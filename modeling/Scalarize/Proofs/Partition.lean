import Scalarize.Partition

/-!
# Leaders

* `Partition.leader` : the leader of a key, itself if it is not tracked;
* `Partition.Star` : every link leads straight to a leader;
* `Partition.get?_union`, `Partition.leader_union` : a new key joins the set of another.
-/

namespace Scalarize

theorem Assoc.get?_append_none {κ ν : Type} [DecidableEq κ] {l : Assoc κ ν} {k : κ} (h : Assoc.get? l k = none)
    (l' : Assoc κ ν) : Assoc.get? (l ++ l') k = Assoc.get? l' k := by
  induction l with
  | nil => rfl
  | cons e l ih =>
    obtain ⟨j, w⟩ := e
    rw [get?] at h
    split at h
    next => cases h
    next hj => rw [List.cons_append, get?, if_neg hj, ih h]

theorem Assoc.get?_append_some {κ ν : Type} [DecidableEq κ] {l : Assoc κ ν} {k : κ} {v : ν}
    (h : Assoc.get? l k = some v) (l' : Assoc κ ν) : Assoc.get? (l ++ l') k = some v := by
  induction l with
  | nil => cases h
  | cons e l ih =>
    obtain ⟨j, w⟩ := e
    rw [get?] at h
    rw [List.cons_append, get?]
    split
    next hj => rwa [if_pos hj] at h
    next hj => exact ih (by rwa [if_neg hj] at h)

namespace Partition

variable {α : Type} [DecidableEq α] {p : Partition α} {a b c m : α}

/-- The leader of a key, itself if it is not tracked. -/
def leader (p : Partition α) (a : α) : α := (p.parents.get? a).getD a

/-- Every link leads straight to a leader. -/
def Star (p : Partition α) : Prop := ∀ a b, p.parents.get? a = some b → p.parents.get? b = some b

theorem star_empty : Star ({} : Partition α) := nofun

theorem leader_leader (h : p.Star) (a : α) : p.leader (p.leader a) = p.leader a := by
  unfold leader
  cases ha : p.parents.get? a with
  | none => simp [ha]
  | some b => simp [h a b ha]

/-- The key is tracked from then on; nothing else is linked anew. -/
theorem find_eq (h : p.Star) (a : α) : (p.find a).1 = p.leader a ∧
    ∀ c, (p.find a).2.parents.get? c = if c = a then some (p.leader a) else p.parents.get? c := by
  unfold find track leader
  cases ha : p.parents.get? a with
  | none =>
    have hself : Assoc.get? (p.parents ++ [(a, a)]) a = some a := by
      rw [Assoc.get?_append_none ha, Assoc.get?, if_pos rfl]
    dsimp only
    rw [List.length_append, List.length_singleton, climb]
    simp only [hself, if_true, Option.getD_none, List.foldl_nil, true_and]
    intro c
    by_cases hc : c = a
    · rw [if_pos hc, hc, hself]
    · rw [if_neg hc]
      cases hget : p.parents.get? c with
      | none => rw [Assoc.get?_append_none hget, Assoc.get?, if_neg (Ne.symm hc), Assoc.get?]
      | some b => exact Assoc.get?_append_some hget _
  | some b =>
    have hb := h a b ha
    have hclimb : ∀ n, p.climb (n + 1) a = (if b = a then [] else [a], b) := by
      intro n
      rw [climb, ha]
      by_cases hba : b = a
      · simp [hba]
      · have hup : p.climb n b = ([], b) := by cases n <;> simp [climb, hb]
        simp [hba, hup]
    obtain ⟨n, hn⟩ : ∃ n, p.parents.length = n + 1 :=
      Nat.exists_eq_succ_of_ne_zero fun hz => by
        rw [List.length_eq_zero_iff.1 hz] at ha
        cases ha
    dsimp only
    rw [hn, hclimb]
    refine ⟨rfl, fun c => ?_⟩
    by_cases hba : b = a
    · subst hba
      by_cases hc : c = b
      · simp [hc, ha]
      · simp [hc]
    · simp only [hba, if_false, List.foldl_cons, List.foldl_nil, Assoc.get?_put, Option.getD_some, eq_comm]

theorem star_find (h : p.Star) (a : α) : (p.find a).2.Star := by
  intro c d hc
  obtain ⟨-, hget⟩ := find_eq h a
  rw [hget] at hc ⊢
  split at hc
  next =>
    obtain rfl := Option.some.inj hc
    split
    · rfl
    next hne =>
      unfold leader at hne ⊢
      cases ha : p.parents.get? a with
      | none => simp [ha] at hne
      | some b => exact h a b ha
  next =>
    split
    next hd =>
      subst hd
      rw [leader, h c d hc, Option.getD_some]
    next => exact h c d hc

/-- A key that is new joins the set of another. -/
theorem get?_union (h : p.Star) (hm : p.parents.get? m = none) (hne : m ≠ a) (c : α) :
    (p.union a m).1 = p.leader a ∧
      (p.union a m).2.parents.get? c = if c = m ∨ c = a then some (p.leader a) else p.parents.get? c := by
  obtain ⟨hroot, hget⟩ := find_eq h a
  have hm₁ : (p.find a).2.parents.get? m = none := by rw [hget, if_neg hne, hm]
  obtain ⟨hother, hget'⟩ := find_eq (star_find h a) m
  have hlead : (p.find a).2.leader m = m := by rw [leader, hm₁, Option.getD_none]
  -- the leader of the other key is tracked, the new key is not
  have hdiff : p.leader a ≠ m := by
    intro heq
    have htracked : (p.find a).2.parents.get? (p.leader a) = some (p.leader a) :=
      star_find h a a _ (by rw [hget, if_pos rfl])
    rw [heq, hm₁] at htracked
    cases htracked
  unfold union
  dsimp only
  rw [hroot, hother, hlead]
  refine ⟨rfl, ?_⟩
  rw [if_neg hdiff, Assoc.get?_put, hget', hlead, hget]
  by_cases hc : c = m
  · simp [hc]
  · by_cases hca : c = a <;> simp [hc, hca, Ne.symm hc, Ne.symm hne]

theorem star_union (h : p.Star) (hm : p.parents.get? m = none) (hne : m ≠ a) : (p.union a m).2.Star := by
  have hget := fun c => (get?_union h hm hne c).2
  intro c d hc
  rw [hget] at hc ⊢
  have hself : ∀ d, p.leader a = d → ¬(d = m ∨ d = a) → p.parents.get? d = some d := by
    rintro d rfl hd
    unfold leader at hd ⊢
    cases ha : p.parents.get? a with
    | none => simp [ha] at hd
    | some b => exact h a b ha
  split at hc
  next =>
    obtain rfl := Option.some.inj hc
    split
    · rfl
    next hd => exact hself _ rfl hd
  next =>
    have hd := h c d hc
    split
    next hor =>
      rcases hor with rfl | rfl
      · rw [hm] at hd
        cases hd
      · rw [leader, hd, Option.getD_some]
    next => exact hd

/-- The new key has the leader of the other; all leaders are as before. -/
theorem leader_union (h : p.Star) (hm : p.parents.get? m = none) (hne : m ≠ a) (c : α) :
    (p.union a m).2.leader c = if c = m then p.leader a else p.leader c := by
  unfold leader at *
  rw [(get?_union h hm hne c).2]
  by_cases hc : c = m
  · simp [hc, leader]
  · by_cases hca : c = a
    · simp [hca, Ne.symm hne, leader]
    · simp [hc, hca]

end Partition

end Scalarize
