import Scalarize.Lower.Cast
import Scalarize.Lower.Connect
import Scalarize.Lower.Instance
import Scalarize.Lower.Memory

/-!
# Blocks

A block is lowered from its last operation to its first. What an operation gives way to stands in
front of it, and is lowered in turn, again from the last to the first.

* `Lower.step` : lowers one operation by one layer; returns whether it was replaced;
* `Lower.lowerOp`, `Lower.lowerBlock` : lower an operation, or a block, to the end;
* `Body.loweringDepth` : how deep that can nest.
-/

namespace Scalarize

namespace Lower

/-- Lowers one operation, other than a guard, by one layer. Returns whether it was replaced. -/
def step (cx : Context) (o : OpId) : OpKind → Lower Bool
  | .bitcast => bitcast o
  | .subaccess => subaccess o
  | .connect strict => connect o strict
  | .mem m => memory o m
  | .inst i => inst cx o i
  | kind => producer o cx.options.preserveAggregate kind

/-- The operation in a slot. -/
def slot (k : BlockId) (i : Nat) : Lower OpId := body fun b => do orOutOfRange (← b.block k).slots[i]?

/-- Lowers slots of a block from the last to the first. -/
def eachSlot (lowerSlot : BlockId → Nat → Lower Unit) (k : BlockId) (first count : Nat) :
    Lower Unit :=
  (List.range count).reverse.forM fun i => lowerSlot k (first + i)

/-- Lowers the operation in a slot, what it guards, and all that it gives way to. -/
def lowerOp (cx : Context) : Nat → BlockId → Nat → Lower Unit
  | 0, _, _ => throw .outOfFuel
  | fuel + 1, k, i => do
    let o ← slot k i
    if (← body (·.op o)).erased then return
    let saved ← point
    let before ← body (·.slotCount k)
    Build.moveTo ⟨k, i⟩
    let kind ← body (·.kindOf o)
    let replaced ← match kind with
      | .when _ _ => do
        kind.blocks.forM fun k => do eachSlot (lowerOp cx fuel) k 0 (← body (·.slotCount k))
        pure false
      | kind => step cx o kind
    Build.moveTo saved
    let after ← body (·.slotCount k)
    if replaced then change (·.eraseOp o)
    eachSlot (lowerOp cx fuel) k i (after - before)

/-- Lowers a block. -/
def lowerBlock (cx : Context) (fuel : Nat) (k : BlockId) : Lower Unit := do
  eachSlot (lowerOp cx fuel) k 0 (← body (·.slotCount k))

end Lower

/-- Depth of the ports of a memory, whether it has any or not. -/
def OpKind.portDepth : OpKind → Nat
  | .mem m => m.dataType.depth + 1
  | _ => 0

/-- The deepest type of a body. A memory without ports has no value of its type. -/
def Body.typeDepth (b : Body) : Nat :=
  max (b.values.foldl (fun d v => max d v.ty.depth) 0)
    (b.ops.foldl (fun d op => max d op.kind.portDepth) 0)

/-- How deep the lowering of one operation into others can nest. Guards nest at most as deep as there
are blocks. Along a chain of replacements types get shallower, except where a write is expanded; each
accessor of a write is expanded once, and a cast may lengthen its accessors by the depth of a type. -/
def Body.loweringDepth (b : Body) : Nat :=
  b.blocks.size + 8 * (b.ops.size + 2) * ((b.typeDepth + 2) * (b.typeDepth + 2))

end Scalarize
