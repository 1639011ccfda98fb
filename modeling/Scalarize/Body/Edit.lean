import Scalarize.Body.Outline
import Scalarize.Body.Uses

/-!
# Editing bodies

* `Body.insertArgument`, `Body.removeArgument` : the port arguments;
* `Body.insertOp`, `Body.createBlock` : new operations and blocks;
* `Body.dropOperands`, `Body.replaceAllUses` : who reads what, use lists included;
* `Body.eraseOp`, `Body.compact` : erasing leaves the slot, compacting takes empty slots out.
-/

namespace Scalarize.Body

/-! ## Table updates -/

/-- Changes a value. -/
def modifyValue (b : Body) (v : ValueId) (f : Value → Value) : Body :=
  { b with values := b.values.modify v.index f }

/-- Changes an operation. -/
def modifyOp (b : Body) (o : OpId) (f : Operation → Operation) : Body :=
  { b with ops := b.ops.modify o.index f }

/-- Changes the kind of an operation. -/
def modifyKind (b : Body) (o : OpId) (f : OpKind → OpKind) : Body :=
  b.modifyOp o fun op => { op with kind := f op.kind }

/-- Changes the declaration of an operation. -/
def modifyDecl (b : Body) (o : OpId) (f : Decl → Decl) : Body := b.modifyKind o (·.mapDecl f)

/-! ## Arguments -/

/-- Makes an argument in front of a position. -/
def insertArgument (b : Body) (i : Nat) (ty : Ty) : Except Failure (ValueId × Body) :=
  if i ≤ b.args.length then
    let v : ValueId := ⟨b.values.size⟩
    .ok (v, { b with values := b.values.push ⟨ty, .argument, []⟩, args := b.args.insertIdx i v })
  else .error .outOfRange

/-- Makes an argument behind all others. -/
def addArgument (b : Body) (ty : Ty) : Except Failure (ValueId × Body) :=
  b.insertArgument b.args.length ty

/-- Takes the argument at a position out of the list. -/
def removeArgument (b : Body) (i : Nat) : Except Failure (ValueId × Body) := do
  let v ← orOutOfRange b.args[i]?
  return (v, { b with args := b.args.eraseIdx i })

/-! ## Uses -/

/-- Leaves an operation without operands. -/
def dropOperands (b : Body) (o : OpId) : Except Failure Body := do
  let operands := (← b.op o).operands
  return { b with
    values := removeUses b.values o operands
    ops := b.ops.modify o.index fun op => { op with operands := [] } }

/-- Lets every reader of one value read another. -/
def replaceAllUses (b : Body) (old new : ValueId) : Except Failure Body := do
  if old = new then return b
  let uses := (← b.value old).uses
  let _ ← b.value new
  let ops := uses.foldl (fun ops u =>
    ops.modify u.op.index fun op => { op with operands := op.operands.set u.operand new }) b.ops
  let values := (b.values.modify old.index fun x => { x with uses := [] }).modify new.index
    fun x => { x with uses := x.uses ++ uses }
  return { b with ops, values }

/-! ## Operations and blocks -/

/-- The values that an operation makes. -/
def addResults (values : Array Value) (o : OpId) (types : List Ty) : Array Value :=
  types.zipIdx.foldl (fun values (ty, i) => values.push ⟨ty, .result o i, []⟩) values

theorem addResults_eq (values : Array Value) (o : OpId) (types : List Ty) :
    addResults values o types =
      values ++ (types.zipIdx.map fun (ty, i) => (⟨ty, .result o i, []⟩ : Value)).toArray := by
  unfold addResults
  generalize 0 = i
  induction types generalizing i values with
  | nil => simp
  | cons ty types ih => simp [List.zipIdx_cons, ih]

/-- Makes an operation in front of a slot of a block. -/
def insertOp (b : Body) (k : BlockId) (i : Nat) (kind : OpKind) (operands : List ValueId)
    (types : List Ty) : Except Failure (OpId × Body) := do
  let slots := (← b.block k).slots
  if slots.length < i || operands.any (b.values.size ≤ ·.index) then throw .outOfRange
  let o : OpId := ⟨b.ops.size⟩
  let first := b.values.size
  let results := (List.range types.length).map fun j => ⟨first + j⟩
  return (o, { b with
    values := addResults (addUses b.values o operands) o types
    ops := b.ops.push ⟨kind, operands, results, k, false⟩
    blocks := b.blocks.modify k.index fun block => { block with slots := block.slots.insertIdx i o } })

/-- Makes a block for an operation to guard. -/
def createBlock (b : Body) (parent : OpId) : BlockId × Body :=
  (⟨b.blocks.size⟩, { b with blocks := b.blocks.push ⟨[], some parent⟩ })

/-- Erases one operation, whatever still reads it. -/
def discard (b : Body) (o : OpId) : Except Failure Body := do
  let b ← b.dropOperands o
  return b.modifyOp o fun op => { op with erased := true }

/-- Erases an operation that nothing reads, and all that it guards. -/
def eraseOp (b : Body) (o : OpId) : Except Failure Body := do
  if ← b.opHasUses o then throw (.edit (.opHasUses o))
  (o :: b.guarded o).foldlM discard b

/-- Takes the slots of erased operations out of every block. -/
def compact (b : Body) : Body :=
  { b with blocks := b.blocks.map fun block => { block with slots := block.slots.filter b.stands } }

@[simp] theorem stands_compact (b : Body) (o : OpId) : b.compact.stands o = b.stands o := rfl

/-- The operations that stand in a block are the same after compacting. -/
@[simp] theorem live_compact (b : Body) (k : BlockId) : b.compact.live k = b.live k := by
  have h : b.compact.stands = b.stands := rfl
  unfold live
  rw [h]
  simp only [compact, Array.getElem?_map]
  cases b.blocks[k.index]? <;> simp [List.filter_filter]

end Scalarize.Body
