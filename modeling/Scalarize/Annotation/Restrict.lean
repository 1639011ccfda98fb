import Scalarize.Annotation
import Scalarize.Ty.Part

/-!
# Restricting annotations

Splitting an aggregate hands its annotations on to the parts.

* `Annotation.onPart` : what one annotation means for one part; `restrict` : the annotations of a
  part, and whether the part needs a symbol;
* `Annotation.onPort` : where an annotation of a memory port goes when the data type is narrowed to
  a part; `restrictPort` : the same for a list.
-/

namespace Scalarize

/-- What an annotation of an aggregate means for one part of it. -/
inductive Share where
  /-- The part carries this annotation. -/
  | carried (a : Annotation)
  /-- The part carries a symbol instead of the annotation. -/
  | symbol
  /-- The annotation does not concern the part. -/
  | absent

namespace Share

/-- The annotation that the part carries. -/
def carried? : Share → Option Annotation
  | carried a => some a
  | symbol | absent => none

/-- The share asks for a symbol: it stands for one, or it is scoped to a path and `ground`. -/
def needsSym (ground : Bool) : Share → Bool
  | carried a => ground && a.path.isSome
  | symbol => true
  | absent => false

end Share

namespace Annotation

/-- Copy of an annotation of the whole for the part with a field ID: the ID that a signal driver
holds moves along with it. -/
def spread (a : Annotation) (fieldId : Nat) : Except Failure Annotation := do
  if fieldId = 0 || a.className != signalDriver then return a
  let held := ((a.members.get? fieldIdMember).bind (·.word? UInt64.size)).getD 0
  let moved ← orOverflow (word? (held + fieldId))
  return { a with members := a.members.put fieldIdMember (.int moved) }

/-- What an annotation means for a part whose nodes end at the field ID `last`. -/
def onPart (a : Annotation) (part : Part) (last : Nat) : Except Failure Share :=
  match a.fieldId with
  | none => .carried <$> a.spread part.fieldId
  | some 0 => return .carried { a with fieldId := none }
  | some id =>
    if id < part.fieldId || last < id then return .absent
    else if part.fieldId < id then
      return .carried { a with fieldId := some (id - part.fieldId) }
    else if a.className = dontTouch then return .symbol
    else return .carried { a with fieldId := none }

end Annotation

/-- The annotations of one part, and whether the part needs a symbol. -/
structure Restricted where
  annotations : List Annotation
  needsSym : Bool

/-- The annotations of an aggregate that concern a part. -/
def restrict (annotations : List Annotation) (part : Part) : Except Failure Restricted := do
  let below ← orOverflow part.ty.lastId?
  let last ← orOverflow (word? (part.fieldId + below))
  let shares ← annotations.mapM (·.onPart part last)
  return ⟨shares.filterMap Share.carried?, shares.any (Share.needsSym part.ty.isGround)⟩

/-! ## Memory ports -/

/-- Where an annotation of a memory port goes when the data type is narrowed to a part: `source`
and `narrowed` are the types of the port before and after. A node inside an element of the port is
kept if it lies in the part. -/
def Annotation.onPort (a : Annotation) (source narrowed : Ty) (part : Part) :
    Except Failure (Option Annotation) :=
  match a.fieldId with
  | none | some 0 => return some a
  | some id => do
    let element ← orOverflow (source.childOf? id)
    let base ← orOverflow (source.childId? element)
    let newBase ← orOverflow (narrowed.childId? element)
    if id = base then return some { a with fieldId := some newBase }
    if !(source.child? element).any Ty.isAggregate then return none
    let first ← orOverflow (word? (base + part.fieldId))
    if id < first then return none
    let below ← orOverflow part.ty.lastId?
    let last ← orOverflow (word? (first + below))
    if last < id then return none
    let moved ← orOverflow (word? (id - first + newBase))
    return some { a with fieldId := some moved }

/-- The annotations of a memory port on the port of the memory that holds a part. -/
def restrictPort (annotations : List Annotation) (source narrowed : Ty) (part : Part) :
    Except Failure (List Annotation) := do
  return (← annotations.mapM (·.onPort source narrowed part)).filterMap id

end Scalarize
