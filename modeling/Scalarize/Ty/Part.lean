import Scalarize.Failure
import Scalarize.Ty.FieldId

/-!
# Parts

Splitting an aggregate takes off one layer of structure.

* `Part` : one immediate part of an aggregate, with its place in the aggregate;
* `Ty.parts` : all parts, in order; `Ty.peel` : the parts, or nothing where the type stays whole.
-/

namespace Scalarize

/-- One immediate part of an aggregate. -/
structure Part where
  /-- Type of the part. -/
  ty : Ty
  /-- Position in the aggregate. -/
  index : Nat
  /-- Field ID within the aggregate. -/
  fieldId : Nat
  /-- What a name gains when it is narrowed to the part. -/
  suffix : String
  /-- The part flows against the aggregate. -/
  flip : Bool
  deriving DecidableEq

namespace Ty

/-- The part at a position. -/
def partAt (t : Ty) (i : Nat) (ty : Ty) (label : String) (flip : Bool) : Except Failure Part := do
  let fieldId ← orOverflow (t.childId? i)
  return ⟨ty, i, fieldId, "_" ++ label, flip⟩

/-- All immediate parts: fields are labelled by name, elements by position. -/
def parts : Ty → Except Failure (List Part)
  | .ground _ => return []
  | .bundle fs => fs.zipIdx.mapM fun (f, i) => partAt (.bundle fs) i f.ty f.name f.flip
  | .vector e n => (List.range n).mapM fun i => partAt (.vector e n) i e (toString i) false

/-- The parts to split a type into, or `none` if it stays whole: it is ground, or `keep` is set
and it may be kept. An aggregate without parts is split into none. -/
def peel (t : Ty) (keep : Bool) : Except Failure (Option (List Part)) :=
  if t.isGround || keep && t.preservable then return none else some <$> t.parts

theorem peel_ground (g : Ground) (keep : Bool) : (ground g).peel keep = .ok none := by
  simp [peel, isGround, pure, Except.pure]

theorem peel_preservable {t : Ty} (h : t.preservable) : t.peel true = .ok none := by
  simp [peel, h, pure, Except.pure]

end Ty

end Scalarize
