import Scalarize.Lower.State

/-!
# Computed accesses

* `Body.constant?` : the literal that makes a value; `Body.isDynamic` : an access whose position
  must be computed;
* `Body.writePath` : the accessors from the destination of a connection up to the outermost such
  access;
* `Lower.subaccess` : a read at a computed position becomes a choice among the elements;
* `Lower.writePath` : a write at a computed position becomes one guarded write for each element.
-/

namespace Scalarize

namespace Body

/-- The literal that makes a value, if a literal does. -/
def constant? (b : Body) (v : ValueId) : Except Failure (Option Nat) := do
  match ← b.definer v with
  | none => return none
  | some o =>
    match ← b.kindOf o with
    | .constant value => return some value
    | _ => return none

/-- An access whose position is no literal, or that has no element to reach. -/
def isDynamic (b : Body) (o : OpId) : Except Failure Bool := do
  match ← b.kindOf o with
  | .subaccess =>
    let literal ← b.constant? (← b.operand o 1)
    match ← b.typeOf (← b.operand o 0) with
    | .vector _ 0 => return true
    | _ => return literal.isNone
  | _ => return false

/-- The accessors between a value and the value that they all start from, the last one first. An
operand is made before its reader, so that as much fuel as operations is enough. -/
def accessChain (b : Body) : Nat → ValueId → Except Failure (List OpId)
  | 0, _ => return []
  | fuel + 1, v => do
    match ← b.definer v with
    | none => return []
    | some o =>
      if (← b.kindOf o).isAccessor then
        return o :: (← b.accessChain fuel (← b.operand o 0))
      else return []

/-- Drops the accessors behind the last dynamic one. -/
def trimStatic (b : Body) : List OpId → Except Failure (List OpId)
  | [] => return []
  | o :: rest => do
    let rest ← b.trimStatic rest
    if rest.isEmpty then
      if ← b.isDynamic o then return [o] else return []
    else return o :: rest

/-- The accessors from the destination of a connection up to its outermost dynamic access. -/
def writePath (b : Body) (o : OpId) : Except Failure (List OpId) := do
  b.trimStatic (← b.accessChain b.ops.size (← b.operand o 0))

/-- Erases accessors from the first to the last, up to one that is still read. -/
def eraseUnread (b : Body) : List OpId → Except Failure Body
  | [] => return b
  | o :: rest => do if ← b.opHasUses o then return b else (← b.eraseOp o).eraseUnread rest

/-- Element type and length of a vector that is accessed. -/
def vectorOf (b : Body) (v : ValueId) : Except Failure (Ty × Nat) := do
  match ← b.typeOf v with
  | .vector e n => return (e, n)
  | ty => throw (.lower (.malformed (.subaccessOfNonVector ty)))

end Body

namespace Lower

/-- The same access on another value. -/
def reaccess (o : OpId) (input : ValueId) : Lower ValueId := do
  match ← body (·.kindOf o) with
  | .subfield i => Build.subfield input i
  | .subindex i => Build.subindex input i
  | .subaccess => do
    let index ← body (·.operand o 1)
    Build.subaccess input index
  | kind => throw (.lower (.unknownAccessor kind.text))

/-- A write to one element, guarded by its position: `inner` leads from the element to the
destination. -/
def guardedWrite (strict : Bool) (vector index src : ValueId) (width : Nat) (inner : List OpId)
    (element : Nat) : Lower Unit := do
  let position ← Build.constant (.uint width) element
  let cond ← Build.eq index position
  let (_, thenBlock, _) ← Build.when cond false
  let after ← point
  Build.moveTo ⟨thenBlock, 0⟩
  let leaf ← Build.subindex vector element
  let leaf ← inner.reverse.foldlM (fun leaf o => reaccess o leaf) leaf
  let _ ← Build.connect strict leaf src
  Build.moveTo after

/-- Expands a write through the outermost dynamic access of its destination. Returns whether there
was one. -/
def writePath (o : OpId) (strict : Bool) : Lower Bool := do
  let path ← body (·.writePath o)
  let some access := path.getLast? | return false
  let vector ← body (·.operand access 0)
  let index ← body (·.operand access 1)
  let src ← body (·.operand o 1)
  let (_, n) ← body (·.vectorOf vector)
  (List.range n).forM (guardedWrite strict vector index src (selectWidth n) path.dropLast)
  change (·.dropOperands o)
  change (·.eraseUnread path)
  return true

/-- Replaces a read at a computed position. -/
def subaccess (o : OpId) : Lower Bool := do
  let input ← body (·.operand o 0)
  let index ← body (·.operand o 1)
  let result ← body (·.result o 0)
  let (element, n) ← body (·.vectorOf input)
  let replacement ←
    if n = 0 then (Build.invalid element : Lower ValueId)
    else match ← body (·.constant? index) with
      | some literal => Build.subindex input (literal % UInt64.size)
      | none => do
        let inputs ← (List.range n).reverse.mapM fun i => (Build.subindex input i : Lower ValueId)
        Build.multiMux index inputs
  change (·.replaceAllUses result replacement)
  return true

end Lower

end Scalarize
