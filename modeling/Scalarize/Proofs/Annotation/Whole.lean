import Scalarize.Proofs.Annotation.Nodes

/-!
# Annotations of the whole

An annotation applies to the whole if it has no field ID, and also if it has the field ID 0.

* `Annotation.whole` : the first spelling of an annotation;
* `Annotation.onPart_whole_iff` : both mean the same for a part, unless the annotation is a signal driver: with the ID
  0, what it holds stays behind by the field ID of the part;
* `Reaches`, `reaches_whole` : splitting layer by layer gives the same annotations and the same need for a symbol, if no
  signal driver has the field ID 0.
-/

namespace Scalarize

variable {A B : List Annotation} {t c : Ty} {keep needsSym : Bool} {path : List Nat} {part : Part} {last : Nat}

namespace Annotation

variable {a : Annotation}

/-- The annotation, without a field ID if that is 0. -/
def whole (a : Annotation) : Annotation := if a.fieldId = some 0 then { a with fieldId := none } else a

/-- A signal driver that has the field ID 0. -/
def DrivesRoot (a : Annotation) : Prop := a.className = signalDriver ∧ a.fieldId = some 0

@[simp] theorem target_whole (a : Annotation) : a.whole.target = a.target := by
  unfold whole
  split
  next h => simp [target, h]
  next => rfl

theorem whole_of_ne (h : a.fieldId ≠ some 0) : a.whole = a := if_neg h

theorem whole_of_eq (h : a.fieldId = some 0) : a.whole = { a with fieldId := none } := if_pos h

/-- With the field ID 0, a part carries the annotation as it is. -/
theorem onPart_of_eq (h : a.fieldId = some 0) : a.onPart part last = .ok (.carried a.whole) := by
  rw [whole_of_eq h]
  simp [onPart, h]
  rfl

/-- Without a field ID, what the annotation holds moves to the part. -/
theorem onPart_whole_of_eq (h : a.fieldId = some 0) (hfit : a.Fits part.fieldId) :
    a.whole.onPart part last = .ok (.carried (a.whole.moved part.fieldId)) := by
  have hspread : a.whole.spread part.fieldId = .ok (a.whole.moved part.fieldId) := by
    rw [whole_of_eq h]
    exact spread_eq hfit
  have hnone : a.whole.fieldId = none := by rw [whole_of_eq h]
  simp [onPart, hnone, hspread]

/-- A signal driver that moves is another one. -/
theorem moved_ne {n : Nat} (hn : n ≠ 0) (hc : a.className = signalDriver) (h : a.held + n < UInt64.size) : a.moved n ≠ a :=
  fun he => by
    have hheld := held_moved hc h
    rw [he] at hheld
    omega

/-- Both spellings mean the same for a part, but for a signal driver: it moves without a field ID only. -/
theorem onPart_whole_iff (hfit : a.Fits part.fieldId) :
    a.whole.onPart part last = a.onPart part last ↔ (a.DrivesRoot → part.fieldId = 0) := by
  by_cases h : a.fieldId = some 0
  swap
  · simp [whole_of_ne h, DrivesRoot, h]
  have hclass : a.whole.className = a.className := by rw [whole_of_eq h]
  have hheld : a.whole.held = a.held := by
    rw [whole_of_eq h]
    rfl
  rw [onPart_of_eq h, onPart_whole_of_eq h hfit]
  simp only [Except.ok.injEq, Share.carried.injEq, DrivesRoot, h, and_true]
  constructor
  · intro he hc
    by_contra hne
    exact moved_ne hne (hclass.trans hc) (hheld ▸ hfit hc) he
  · intro hzero
    by_cases hc : a.className = signalDriver
    · rw [hzero hc, moved_zero]
    · exact moved_of_ne (fun he => hc (hclass.symm.trans he)) _

/-- On the first part, a signal driver that holds 3 still holds 3 if it has the field ID 0, and 4 without a field ID. -/
example :
    let driver : Annotation := ⟨signalDriver, some 0, none, [(fieldIdMember, .int 3)]⟩
    let part : Part := ⟨.uint 1, 0, 1, "_x", false⟩
    ((driver.onPart part 1).toOption.bind (·.carried?)).map held = some 3 ∧
      ((driver.whole.onPart part 1).toOption.bind (·.carried?)).map held = some 4 := by decide

theorem onPart_whole (h : ¬a.DrivesRoot) : a.whole.onPart part last = a.onPart part last := by
  by_cases hz : a.fieldId = some 0
  · exact (onPart_whole_iff fun hc => absurd ⟨hc, hz⟩ h).2 fun hr => absurd hr h
  · rw [whole_of_ne hz]

end Annotation

/-- What a list of annotations means for a part does not depend on the spelling. -/
theorem restrict_whole (h : ∀ a ∈ A, ¬a.DrivesRoot) (part : Part) : restrict (A.map (·.whole)) part = restrict A part := by
  have hshares : ∀ last, (A.map (·.whole)).mapM (·.onPart part last) = A.mapM (·.onPart part last) := fun last => by
    induction A with
    | nil => rfl
    | cons a A ih =>
      rw [List.map_cons, List.mapM_cons, List.mapM_cons, Annotation.onPart_whole (h a List.mem_cons_self),
        ih fun b hb => h b (List.mem_cons_of_mem a hb)]
  unfold restrict
  simp only [hshares]

/-- Splitting a type layer by layer leads to a node of it below the root, with these annotations; `needsSym` says whether
the node, or one that encloses it, needs a symbol. -/
inductive Reaches (keep : Bool) : Ty → List Annotation → List Nat → Ty → List Annotation → Bool → Prop
  | part {t : Ty} {A : List Annotation} {ps : List Part} {part : Part} {r : Restricted} (hps : t.peel keep = .ok (some ps))
    (hp : part ∈ ps) (hr : restrict A part = .ok r) : Reaches keep t A [part.index] part.ty r.annotations r.needsSym
  | deeper {t c : Ty} {A B : List Annotation} {path : List Nat} {needsSym : Bool} {ps : List Part} {part : Part}
    {r : Restricted} (h : Reaches keep t A path c B needsSym) (hps : c.peel keep = .ok (some ps)) (hp : part ∈ ps)
    (hr : restrict B part = .ok r) :
    Reaches keep t A (path ++ [part.index]) part.ty r.annotations (needsSym || r.needsSym)

theorem Reaches.of_restrict_eq {A' : List Annotation} (h : ∀ part, restrict A' part = restrict A part)
    (hr : Reaches keep t A path c B needsSym) : Reaches keep t A' path c B needsSym := by
  induction hr with
  | part hps hp hr => exact .part hps hp ((h _).trans hr)
  | deeper _ hps hp hr ih => exact .deeper (ih h) hps hp hr

/-- Every node has the same annotations and the same need for a symbol with both spellings. -/
theorem reaches_whole (h : ∀ a ∈ A, ¬a.DrivesRoot) :
    Reaches keep t (A.map (·.whole)) path c B needsSym ↔ Reaches keep t A path c B needsSym :=
  ⟨.of_restrict_eq fun part => (restrict_whole h part).symm, .of_restrict_eq (restrict_whole h)⟩

end Scalarize
