/-!
# Association lists in insertion order

* `Assoc.get?` : the entry at a key;
* `Assoc.put` : a new key goes to the end, a known key keeps its place and takes the new entry;
* `Assoc.remove` : takes the first entry at a key out and closes the gap;
* `Assoc.adjust` : replaces the entry at a key by a function of it.
-/

namespace Scalarize

/-- Keys with their entries, in the order in which the keys were first put. -/
abbrev Assoc (κ ν : Type) := List (κ × ν)

namespace Assoc

variable {κ ν : Type} [DecidableEq κ]

/-- The entry at a key. -/
def get? : Assoc κ ν → κ → Option ν
  | [], _ => none
  | (j, v) :: l, k => if j = k then some v else get? l k

/-- Sets the entry at a key: in place if the key is known, at the end otherwise. -/
def put : Assoc κ ν → κ → ν → Assoc κ ν
  | [], k, v => [(k, v)]
  | (j, w) :: l, k, v => if j = k then (j, v) :: l else (j, w) :: put l k v

/-- Takes the first entry at a key out. -/
def remove : Assoc κ ν → κ → Assoc κ ν
  | [], _ => []
  | (j, w) :: l, k => if j = k then l else (j, w) :: remove l k

/-- Replaces the entry at a key, a missing one counted as `default`. -/
def adjust (l : Assoc κ ν) (k : κ) (default : ν) (f : ν → ν) : Assoc κ ν :=
  l.put k (f ((l.get? k).getD default))

/-- The keys, in order. -/
abbrev keys (l : Assoc κ ν) : List κ := l.map (·.1)

theorem get?_put (l : Assoc κ ν) (k k' : κ) (v : ν) :
    (l.put k v).get? k' = if k = k' then some v else l.get? k' := by
  induction l with
  | nil => simp [put, get?]
  | cons e l ih =>
    obtain ⟨j, w⟩ := e
    by_cases hj : j = k
    · subst hj
      simp only [put, if_pos, get?]
      split <;> rfl
    · simp only [put, if_neg hj, get?, ih]
      split
      · rename_i h
        subst h
        rw [if_neg (fun he => hj he.symm)]
      · rfl

theorem get?_eq_none_iff (l : Assoc κ ν) (k : κ) : l.get? k = none ↔ k ∉ keys l := by
  induction l with
  | nil => simp [get?]
  | cons e l ih =>
    obtain ⟨j, w⟩ := e
    by_cases hj : j = k
    · simp [get?, hj]
    · simp [get?, hj, ih, Ne.symm hj]

theorem get?_eq_some_iff {l : Assoc κ ν} (h : l.keys.Nodup) {k : κ} {v : ν} : l.get? k = some v ↔ (k, v) ∈ l := by
  induction l with
  | nil => simp [get?]
  | cons e l ih =>
    obtain ⟨j, w⟩ := e
    obtain ⟨hj, hl⟩ := List.nodup_cons.1 h
    by_cases hk : j = k
    · subst hk
      have hnot : (j, v) ∉ l := fun hmem => hj (List.mem_map.2 ⟨_, hmem, rfl⟩)
      simp [get?, hnot, eq_comm]
    · simp [get?, if_neg hk, ih hl, Ne.symm hk]

/-- Putting keeps the keys and their order, a new key comes last. -/
theorem keys_put (l : Assoc κ ν) (k : κ) (v : ν) :
    keys (l.put k v) = if k ∈ keys l then keys l else keys l ++ [k] := by
  induction l with
  | nil => simp [put]
  | cons e l ih =>
    obtain ⟨j, w⟩ := e
    by_cases hj : j = k
    · simp [put, hj]
    · simp only [put, if_neg hj, List.map_cons, List.mem_cons, Ne.symm hj, false_or]
      rw [show List.map (·.1) (put l k v) = keys (put l k v) from rfl, ih]
      split <;> simp

end Assoc

end Scalarize
