/-!
# Fresh names

* `NamePool` : the names taken so far, and the next number to try;
* `NamePool.reserve` : takes a name; `NamePool.fresh` : takes and returns a free name near a base;
* `NamePool.fresh_not_mem` : the name was free; `NamePool.taken_fresh` : now it is taken.
-/

namespace Scalarize

/-- Names taken so far. The number is shared by all bases. -/
structure NamePool where
  taken : List String := []
  next : Nat := 0

namespace NamePool

/-- Takes a name. -/
def reserve (pool : NamePool) (name : String) : NamePool :=
  if name ∈ pool.taken then pool else { pool with taken := name :: pool.taken }

/-- A base with a number. -/
def numbered (base : String) (n : Nat) : String := s!"{base}_{n}"

/-- The first number from `n` on whose name is not taken. Each taken name spends one unit of fuel,
so that as much fuel as taken names is enough. -/
def firstFree (taken : List String) (base : String) : Nat → Nat → Nat
  | 0, n => n
  | fuel + 1, n => if numbered base n ∈ taken then firstFree taken base fuel (n + 1) else n

theorem numbered_inj {base : String} {n m : Nat} : numbered base n = numbered base m ↔ n = m := by
  refine ⟨fun h => ?_, fun h => by rw [h]⟩
  have h : Nat.toDigits 10 n = Nat.toDigits 10 m := by
    simpa [numbered, String.append_assoc, ← Nat.toList_repr] using congrArg String.toList h
  simpa using congrArg (fun ds => Nat.ofDigitChars 10 ds 0) h

/-- With as much fuel as there are names from `n` on to avoid, the number found is free. -/
theorem numbered_firstFree_not_mem_of_length_le {taken : List String} {base : String}
    (fuel : Nat) : ∀ (n : Nat) (l : List String), l.length ≤ fuel →
    (∀ m, n ≤ m → numbered base m ∈ taken → numbered base m ∈ l) →
    numbered base (firstFree taken base fuel n) ∉ taken := by
  induction fuel with
  | zero =>
    intro n l hl hm h
    rw [List.length_eq_zero_iff.1 (Nat.le_zero.1 hl)] at hm
    exact absurd (hm n (Nat.le_refl n) h) (by simp)
  | succ fuel ih =>
    intro n l hl hm
    rw [firstFree]
    split
    next hn =>
      have hn' := hm n (Nat.le_refl n) hn
      refine ih (n + 1) (l.erase (numbered base n)) ?_ fun m hle hmem => ?_
      · rw [List.length_erase_of_mem hn']; omega
      · have hne : numbered base m ≠ numbered base n := fun h => by
          have := numbered_inj.1 h
          omega
        exact (List.mem_erase_of_ne hne).2 (hm m (by omega) hmem)
    next hn => exact hn

/-- As much fuel as taken names finds a free name. -/
theorem numbered_firstFree_not_mem (taken : List String) (base : String) (n : Nat) :
    numbered base (firstFree taken base taken.length n) ∉ taken :=
  numbered_firstFree_not_mem_of_length_le _ n taken (Nat.le_refl _) fun _ _ h => h

/-- Takes the base itself if it is free, the base with the first free number otherwise. -/
def fresh (pool : NamePool) (base : String) : String × NamePool :=
  if base ∈ pool.taken then
    let n := firstFree pool.taken base pool.taken.length pool.next
    (numbered base n, ⟨numbered base n :: pool.taken, n + 1⟩)
  else (base, { pool with taken := base :: pool.taken })

theorem mem_reserve {pool : NamePool} {name other : String} :
    other ∈ (pool.reserve name).taken ↔ other = name ∨ other ∈ pool.taken := by
  unfold reserve
  split
  · constructor
    · exact .inr
    · rintro (rfl | h) <;> assumption
  · simp

theorem mem_foldl_reserve {names : List String} {pool : NamePool} {name : String} :
    name ∈ (names.foldl reserve pool).taken ↔ name ∈ names ∨ name ∈ pool.taken := by
  induction names generalizing pool with
  | nil => simp
  | cons other names ih =>
    rw [List.foldl_cons, ih, mem_reserve, List.mem_cons, ← or_assoc, or_comm (a := name ∈ names)]

/-- A fresh name was free before. -/
theorem fresh_not_mem (pool : NamePool) (base : String) :
    (pool.fresh base).1 ∉ pool.taken := by
  unfold fresh
  split
  · exact numbered_firstFree_not_mem pool.taken base pool.next
  · assumption

/-- A fresh name is taken from then on, and nothing else. -/
theorem taken_fresh (pool : NamePool) (base : String) :
    (pool.fresh base).2.taken = (pool.fresh base).1 :: pool.taken := by
  unfold fresh
  split <;> rfl

end NamePool

end Scalarize
