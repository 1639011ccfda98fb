import Scalarize.Failure
import Scalarize.Op

/-!
# Bodies

A body holds three tables: values, operations and blocks. A block lists its operations in order; an
erased operation keeps its slot until the body is compacted, so that positions stay valid meanwhile.

* `Value`, `Operation`, `Block`, `Body` : the tables;
* `Body.value`, `Body.op`, `Body.block` : entries of the tables, a missing one is out of range;
* `Body.definer`, `Body.users`, `Body.opHasUses`, `Body.live` : who makes a value, who reads it, and
  which operations of a block still stand.
-/

namespace Scalarize

/-- One operand slot that reads a value. -/
structure Use where
  op : OpId
  operand : Nat
  deriving DecidableEq, Repr

/-- Where a value comes from. -/
inductive Origin where
  /-- Result of an operation, with its position among the results. -/
  | result (op : OpId) (index : Nat)
  /-- Port of the module. -/
  | argument
  deriving DecidableEq, Repr

/-- A typed value and the operand slots that read it. -/
structure Value where
  ty : Ty
  origin : Origin
  uses : List Use := []
  deriving DecidableEq

/-- An operation. -/
structure Operation where
  kind : OpKind
  operands : List ValueId
  results : List ValueId
  /-- Block that holds its slot. -/
  block : BlockId
  erased : Bool := false
  deriving DecidableEq

/-- Operations in order. -/
structure Block where
  slots : List OpId := []
  /-- Operation that guards the block, none for the entry block. -/
  parent : Option OpId := none
  deriving DecidableEq

/-- A module body. Its arguments are the values of the module's ports. -/
structure Body where
  values : Array Value := #[]
  ops : Array Operation := #[]
  blocks : Array Block := #[{}]
  args : List ValueId := []
  deriving DecidableEq

namespace Body

/-- The block in which a body starts. -/
def entry : BlockId := ⟨0⟩

/-! ## Entries -/

/-- A value of the body. -/
def value (b : Body) (v : ValueId) : Except Failure Value := orOutOfRange b.values[v.index]?

/-- An operation of the body. -/
def op (b : Body) (o : OpId) : Except Failure Operation := orOutOfRange b.ops[o.index]?

/-- A block of the body. -/
def block (b : Body) (k : BlockId) : Except Failure Block := orOutOfRange b.blocks[k.index]?

/-- Kind of an operation, if it is in the table. -/
def kind? (b : Body) (o : OpId) : Option OpKind := b.ops[o.index]?.map (·.kind)

/-- Type of a value. -/
def typeOf (b : Body) (v : ValueId) : Except Failure Ty := return (← b.value v).ty

/-- Kind of an operation. -/
def kindOf (b : Body) (o : OpId) : Except Failure OpKind := return (← b.op o).kind

/-- Operand of an operation at a position. -/
def operand (b : Body) (o : OpId) (i : Nat) : Except Failure ValueId := do
  orOutOfRange (← b.op o).operands[i]?

/-- Result of an operation at a position. -/
def result (b : Body) (o : OpId) (i : Nat) : Except Failure ValueId := do
  orOutOfRange (← b.op o).results[i]?

/-- Number of slots of a block, erased operations included. -/
def slotCount (b : Body) (k : BlockId) : Except Failure Nat := return (← b.block k).slots.length

/-! ## Relations -/

/-- Operation that makes a value, none for an argument. -/
def definer (b : Body) (v : ValueId) : Except Failure (Option OpId) := do
  match (← b.value v).origin with
  | .result o _ => return some o
  | .argument => return none

/-- The operations among uses, each once, in the order of their first use. -/
def usersOf (uses : List Use) : List OpId :=
  uses.foldl (fun users u => if u.op ∈ users then users else users ++ [u.op]) []

/-- The operations that read a value, each once, in the order of their first use. -/
def users (b : Body) (v : ValueId) : Except Failure (List OpId) := return usersOf (← b.value v).uses

/-- Some operation reads the value. -/
def hasUses (b : Body) (v : ValueId) : Except Failure Bool := return !(← b.value v).uses.isEmpty

/-- Some operation reads a result of the operation. -/
def opHasUses (b : Body) (o : OpId) : Except Failure Bool := do
  (← b.op o).results.anyM b.hasUses

/-- The operation stands: it is in the table and not erased. -/
def stands (b : Body) (o : OpId) : Bool := b.ops[o.index]?.any (!·.erased)

/-- The operations of a block that stand. -/
def live (b : Body) (k : BlockId) : List OpId :=
  match b.blocks[k.index]? with
  | some block => block.slots.filter b.stands
  | none => []

end Body

end Scalarize
