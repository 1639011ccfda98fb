import Mathlib.Tactic.Tauto
import Scalarize.NamePool

/-!
# Names that are handed out

* `NamePool.Call`, `NamePool.run` : any number of calls on a pool, and the names that they hand out;
* `NamePool.Taken` : a name was reserved or handed out by calls;
* `NamePool.fresh_after` : what one call hands out, after and before any others.
-/

namespace Scalarize.NamePool

/-- A call on a pool of names. -/
inductive Call where
  | reserve (name : String)
  | fresh (base : String)
  deriving DecidableEq

/-- The names that calls hand out, and the pool that they lead to. -/
def run (pool : NamePool) : List Call → List String × NamePool
  | [] => ([], pool)
  | .reserve name :: calls => run (pool.reserve name) calls
  | .fresh base :: calls =>
    ((pool.fresh base).1 :: (run (pool.fresh base).2 calls).1, (run (pool.fresh base).2 calls).2)

/-- The name was reserved or handed out by calls on the empty pool. -/
def Taken (calls : List Call) (name : String) : Prop := .reserve name ∈ calls ∨ name ∈ (run {} calls).1

instance (calls : List Call) (name : String) : Decidable (Taken calls name) := by
  unfold Taken
  infer_instance

variable {pool : NamePool} {calls : List Call} {name base : String}

theorem run_append (pool : NamePool) (calls rest : List Call) : run pool (calls ++ rest) =
    ((run pool calls).1 ++ (run (run pool calls).2 rest).1, (run (run pool calls).2 rest).2) := by
  induction calls generalizing pool with
  | nil => rfl
  | cons c calls ih => cases c <;> simp only [List.cons_append, run, ih]

/-- The names of a pool are those that it had, and those that calls reserved or handed out. -/
theorem mem_taken_run : name ∈ (run pool calls).2.taken ↔
    name ∈ pool.taken ∨ .reserve name ∈ calls ∨ name ∈ (run pool calls).1 := by
  induction calls generalizing pool with
  | nil => simp [run]
  | cons c calls ih =>
    cases c with
    | reserve other =>
      simp only [run, ih, mem_reserve, List.mem_cons, Call.reserve.injEq]
      tauto
    | fresh base =>
      simp only [run, ih, taken_fresh, List.mem_cons, reduceCtorEq, false_or]
      tauto

theorem mem_taken_iff : name ∈ (run {} calls).2.taken ↔ Taken calls name := by
  rw [mem_taken_run, Taken]
  simp

/-- A name that is taken is not handed out any more. -/
theorem not_mem_run (h : name ∈ pool.taken) : name ∉ (run pool calls).1 := by
  induction calls generalizing pool with
  | nil => exact List.not_mem_nil
  | cons c calls ih =>
    cases c with
    | reserve other => exact ih (mem_reserve.2 (.inr h))
    | fresh base =>
      rw [run, List.mem_cons, not_or]
      refine ⟨?_, ih (taken_fresh pool base ▸ List.mem_cons_of_mem _ h)⟩
      rintro rfl
      exact fresh_not_mem pool base h

/-- All numbers that are passed over have names that are taken. -/
theorem firstFree_least (taken : List String) (base : String) (fuel n : Nat) :
    n ≤ firstFree taken base fuel n ∧
      ∀ k, n ≤ k → k < firstFree taken base fuel n → numbered base k ∈ taken := by
  induction fuel generalizing n with
  | zero => exact ⟨Nat.le_refl n, fun k hle hlt => absurd hlt (Nat.not_lt.2 hle)⟩
  | succ fuel ih =>
    rw [firstFree]
    split
    next hn =>
      obtain ⟨hle, hbelow⟩ := ih (n + 1)
      refine ⟨Nat.le_of_succ_le hle, fun k hk hlt => ?_⟩
      rcases Nat.eq_or_lt_of_le hk with rfl | hk
      · exact hn
      · exact hbelow k hk hlt
    next => exact ⟨Nat.le_refl n, fun k hle hlt => absurd hlt (Nat.not_lt.2 hle)⟩

/-- After any calls, and whatever is called later, the name that is handed out was free and is not handed out again.
It is the base if that was free, and otherwise the base with the least number from the counter on that was free; the
counter moves past it. -/
theorem fresh_after (before after : List Call) (base : String) :
    ∃ name pool, (run {} before).2.fresh base = (name, pool) ∧
      (run {} (before ++ .fresh base :: after)).1 = (run {} before).1 ++ name :: (run pool after).1 ∧
      ¬Taken before name ∧ name ∉ (run pool after).1 ∧
      (¬Taken before base → name = base ∧ pool.next = (run {} before).2.next) ∧
      (Taken before base → ∃ n, (run {} before).2.next ≤ n ∧ name = numbered base n ∧ pool.next = n + 1 ∧
        ∀ k, (run {} before).2.next ≤ k → k < n → Taken before (numbered base k)) := by
  refine ⟨((run {} before).2.fresh base).1, ((run {} before).2.fresh base).2, rfl, by rw [run_append, run], ?_, ?_,
    fun hfree => ?_, fun htaken => ?_⟩
  · rw [← mem_taken_iff]
    exact fresh_not_mem _ base
  · exact not_mem_run (taken_fresh _ base ▸ List.mem_cons_self)
  · rw [← mem_taken_iff] at hfree
    unfold fresh
    rw [if_neg hfree]
    exact ⟨rfl, rfl⟩
  · rw [← mem_taken_iff] at htaken
    obtain ⟨hle, hbelow⟩ := firstFree_least (run {} before).2.taken base (run {} before).2.taken.length
      (run {} before).2.next
    unfold fresh
    rw [if_pos htaken]
    exact ⟨_, hle, rfl, rfl, fun k hk hlt => mem_taken_iff.1 (hbelow k hk hlt)⟩

/-- A base that looks like another one with a number. -/
theorem fresh_after_numbered :
    ∃ name pool, (run {} [.fresh "a", .reserve "a_0"]).2.fresh "a" = (name, pool) ∧
      ¬Taken [.fresh "a", .reserve "a_0"] name ∧ name ∉ (run pool [.fresh "a_1", .fresh "a_0"]).1 ∧
      ∃ n, name = numbered "a" n ∧ pool.next = n + 1 := by
  obtain ⟨name, pool, heq, -, hnew, hlater, -, hnumbered⟩ :=
    fresh_after [.fresh "a", .reserve "a_0"] [.fresh "a_1", .fresh "a_0"] "a"
  obtain ⟨n, -, hname, hnext, -⟩ := hnumbered (by decide)
  exact ⟨name, pool, heq, hnew, hlater, n, hname, hnext⟩

end Scalarize.NamePool
