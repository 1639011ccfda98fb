import Scalarize.Handle
import Scalarize.Ty

/-!
# Failures

* `EditError` : an edit of a body is refused;
* `LowerError` : a circuit cannot be lowered; `Defect` names the shapes that no checked circuit has;
* `Failure` : either of them, or the computation is abandoned: a position past the end of a table
  or list, a number past its word, or a recursion past its bound;
* `EditError.message`, `LowerError.message`, `Failure.message?` : the wording, in one place each.
-/

namespace Scalarize

/-- Why an edit of a body is refused. -/
inductive EditError where
  | notAggregate (ty : Ty)
  | indexOutOfRange (index : Nat) (ty : Ty)
  | opHasUses (op : OpId)
  | emptyMux
  | unknownWidth (ty : Ty)
  | widthOverflow (width : Nat)
  deriving DecidableEq

/-- Wording of a refused edit. -/
def EditError.message : EditError → String
  | .notAggregate ty => s!"cannot access a field of non-aggregate type `{ty.text}`"
  | .indexOutOfRange index ty => s!"index {index} out of range for `{ty.text}`"
  | .opHasUses op => s!"operation Idx::<Operation>({op.index}) still has uses"
  | .emptyMux => "multibit mux requires at least one input"
  | .unknownWidth ty => s!"type `{ty.text}` has no known width"
  | .widthOverflow width => s!"result width {width} does not fit in 32 bits"

/-- Shapes that cannot occur in a checked circuit. -/
inductive Defect where
  | muxWithoutIndex
  | accessorPastParts (index parts : Nat)
  | subaccessOfNonVector (ty : Ty)
  | wideCast (width : Nat) (ty : Ty)
  | highSlice (ty : Ty) (high : Nat)
  | bareTarget (sym : String)
  deriving DecidableEq

/-- Wording of a defect. -/
def Defect.message : Defect → String
  | .muxWithoutIndex => "multibit mux without an index"
  | .accessorPastParts index parts => s!"accessor index {index} past {parts} lowered fields"
  | .subaccessOfNonVector ty => s!"subaccess of non-vector `{ty.text}`"
  | .wideCast width ty => s!"bit width {width} of `{ty.text}` does not fit in 32 bits"
  | .highSlice ty high => s!"bit cast slice of `{ty.text}` ends at bit {high}"
  | .bareTarget sym => s!"rename target @{sym} has no annotations"

/-- Why a circuit cannot be lowered. -/
inductive LowerError where
  | unknownAggregateUser (user : String) (ty : Ty)
  | unknownAccessor (op : String)
  | missingModule (name : String)
  | missingWidth (ty : Ty)
  | malformed (defect : Defect)
  deriving DecidableEq

/-- Wording of a lowering error. -/
def LowerError.message : LowerError → String
  | .unknownAggregateUser user ty =>
    s!"aggregate value of type `{ty.text}` has unexpected user `{user}`"
  | .unknownAccessor op => s!"unknown accessor `{op}` in write path"
  | .missingModule name => s!"instance of unknown module `{name}`"
  | .missingWidth ty => s!"bit cast requires a known width for `{ty.text}`"
  | .malformed defect => s!"malformed IR: {defect.message}"

/-- Every way in which a computation of this library ends without a value. -/
inductive Failure where
  | edit (error : EditError)
  | lower (error : LowerError)
  | outOfRange
  | overflow
  | outOfFuel
  deriving DecidableEq

/-- Wording of a failure; an abandoned computation has none. -/
def Failure.message? : Failure → Option String
  | .edit error => some error.message
  | .lower error => some error.message
  | .outOfRange | .overflow | .outOfFuel => none

/-- The value, or a position past the end. -/
def orOutOfRange {α : Type} : Option α → Except Failure α
  | some a => .ok a
  | none => .error .outOfRange

/-- The value, or a number past its word. -/
def orOverflow {α : Type} : Option α → Except Failure α
  | some a => .ok a
  | none => .error .overflow

@[simp] theorem orOutOfRange_eq_ok_iff {α : Type} {o : Option α} {a : α} :
    orOutOfRange o = .ok a ↔ o = some a := by cases o <;> simp [orOutOfRange]

@[simp] theorem orOverflow_eq_ok_iff {α : Type} {o : Option α} {a : α} :
    orOverflow o = .ok a ↔ o = some a := by cases o <;> simp [orOverflow]

end Scalarize
