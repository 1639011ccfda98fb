import Scalarize.Proofs.Sweep.Nesting

/-!
# Where the cursor goes

* `Spread` : operations in a row, with others only in front of those that gave way;
* `Visit.Puts.round` : the slots of a block after one round;
* `Rounds.covers` : rounds down to the first slot visit what stands, each operation once, from the last to the first;
* `Rounds.spread` : what was put in front of an operation stays there in a row, but for what gives way.
-/

namespace Scalarize

open Body

/-- The operations `C` are the operations `N` in their order, and others only in front of those with `R`. -/
inductive Spread (R : OpId → Prop) : List OpId → List OpId → Prop
  | nil : Spread R [] []
  | keep {n : OpId} {N C : List OpId} (h : Spread R N C) : Spread R (n :: N) (n :: C)
  | front {n x : OpId} {N C : List OpId} (h : Spread R (n :: N) C) (hn : R n) : Spread R (n :: N) (x :: C)

namespace Spread

variable {R R' : OpId → Prop} {n x : OpId} {N C C₁ C₂ M : List OpId}

theorem refl (R : OpId → Prop) (N : List OpId) : Spread R N N := by
  induction N with
  | nil => exact .nil
  | cons n N ih => exact .keep ih

theorem mono (h : Spread R N C) (hR : ∀ n, R n → R' n) : Spread R' N C := by
  induction h with
  | nil => exact .nil
  | keep _ ih => exact .keep ih
  | front _ hn ih => exact .front ih (hR _ hn)

theorem fronts (h : Spread R (n :: N) C) (hn : R n) (M : List OpId) : Spread R (n :: N) (M ++ C) := by
  induction M with
  | nil => exact h
  | cons x M ih => exact .front ih hn

/-- Operations are put in front of one that gives way. -/
theorem insert (h : Spread R N (C₁ ++ x :: C₂)) (hR : ∀ n, R n → R' n) (hx : R' x) (M : List OpId) :
    Spread R' N (C₁ ++ M ++ x :: C₂) := by
  generalize hC : C₁ ++ x :: C₂ = C at h
  induction h generalizing C₁ with
  | nil => simp at hC
  | @keep n N C h ih =>
    cases C₁ with
    | nil =>
      obtain ⟨rfl, rfl⟩ := List.cons_eq_cons.1 hC
      simpa using (Spread.keep (h.mono hR)).fronts hx M
    | cons y C₁ =>
      obtain ⟨rfl, hC'⟩ := List.cons_eq_cons.1 hC
      exact .keep (ih hC')
  | @front n y N C h hn ih =>
    cases C₁ with
    | nil =>
      obtain ⟨rfl, rfl⟩ := List.cons_eq_cons.1 hC
      simpa using (Spread.front (x := x) (h.mono hR) (hR n hn)).fronts (hR n hn) M
    | cons z C₁ =>
      obtain ⟨rfl, hC'⟩ := List.cons_eq_cons.1 hC
      exact .front (ih hC') (hR n hn)

/-- Nothing stands in between if nothing gave way. -/
theorem eq_of_none (h : Spread R N C) (hR : ∀ n ∈ N, ¬R n) : C = N := by
  induction h with
  | nil => rfl
  | keep _ ih => rw [ih fun n hn => hR n (List.mem_cons_of_mem _ hn)]
  | front _ hn _ => exact absurd hn (hR _ List.mem_cons_self)

end Spread

namespace Lower

variable {α : Type} {k : BlockId} {i j : Nat} {t t' : LowerState}

/-- The slots of the block after one round. -/
theorem Visit.Puts.round {v : Visit α} {N : List OpId} {b : Body} (hN : v.Puts k N) (hv : v.At k) (hm : v.Moves)
    (start : v.start = ⟨⟨t.builder.body, ⟨k, i⟩⟩, t.symbols⟩) (leave : v.Leaves b) :
    ∃ A B, t.builder.body.slotsOf k = A ++ v.op :: B ∧ A.length = i ∧ b.slotsOf k = A ++ N ++ v.op :: B ∧
      (v.stop.builder.body.slotsOf k).length - (t.builder.body.slotsOf k).length = N.length := by
  obtain ⟨A, B, hAB, hA⟩ := hv.split
  have hstop := hN.slots hAB hA
  rw [start] at hAB hA
  refine ⟨A, B, hAB, hA, ?_, ?_⟩
  · rw [(hm.leaves hv.isSome_op leave).1.slotsOf, hstop]
  · rw [hstop, show t.builder.body.slotsOf k = A ++ v.op :: B from hAB]
    simp only [List.length_append]
    omega

/-- Rounds down to the first slot visit operations from the last to the first, and all that still stand in the end. -/
theorem Rounds.covers {V : List (Visit α)} (h : Rounds k i t V j t') (hj : j = 0) (hV : ∀ v ∈ V, v.Moves)
    (hN : ∀ v ∈ V, ∃ N, v.Puts k N) (hi : i ≤ (t.builder.body.slotsOf k).length) :
    ∃ C, t'.builder.body.slotsOf k = C ++ (t.builder.body.slotsOf k).drop i ∧
      (V.map (·.op)).reverse.Sublist C ∧ ∀ b, t'.builder.body.Advances b →
        C.filter b.stands = (V.map (·.op)).reverse.filter b.stands := by
  induction h with
  | done =>
    subst hj
    exact ⟨[], rfl, .slnil, fun _ _ => rfl⟩
  | @skip i j t t' V o op hs hop he rest ih =>
    obtain ⟨C, hC, hsub, hlive⟩ := ih hj hV hN (Nat.le_of_succ_le hi)
    obtain ⟨hlt, ho⟩ := List.getElem?_eq_some_iff.1 hs
    refine ⟨C ++ [o], ?_, hsub.trans (List.sublist_append_left C [o]), fun b hb => ?_⟩
    · rw [hC, List.append_assoc, List.singleton_append, ← ho, List.getElem_cons_drop]
    · -- what the cursor passes over stays erased
      obtain ⟨op', hop', hp⟩ := ((rest.advances hV).1.trans hb).op? hop
      have hst : b.stands o = false := by simp [stands_eq, hop', hp.erased he]
      rw [List.filter_append, hlive b hb]
      simp [hst]
  | @visit i j t t' v V op b hs hop he start leave rest ih =>
    have hv := hV v List.mem_cons_self
    have hat : v.At k := .of_start hs hop he start
    obtain ⟨N, hN'⟩ := hN v List.mem_cons_self
    obtain ⟨A, B, hAB, rfl, hb, hlen⟩ := hN'.round hat hv start leave
    rw [hlen] at rest ih
    obtain ⟨C, hC, hsub, hlive⟩ := ih hj (fun w hw => hV w (List.mem_cons_of_mem v hw))
      (fun w hw => hN w (List.mem_cons_of_mem v hw)) (by
        show A.length + N.length ≤ (b.slotsOf k).length
        rw [hb]
        simp only [List.length_append]
        omega)
    refine ⟨C ++ [v.op], ?_, ?_, fun b' hb' => ?_⟩
    · rw [hC]
      show C ++ (b.slotsOf k).drop (A.length + N.length) = _
      rw [hb, hAB, ← List.length_append, List.drop_left, List.append_cons A v.op B,
        show A.length + 1 = (A ++ [v.op]).length by simp, List.drop_left, List.append_assoc, List.singleton_append]
    · rw [List.map_cons, List.reverse_cons]
      exact hsub.append (.refl _)
    · rw [List.map_cons, List.reverse_cons, List.filter_append, List.filter_append, hlive b' hb']

/-- An operation in front of `o` lies in the first part or in the second. -/
theorem append_cases {A C B A₀ B₀ : List OpId} {o x : OpId} (h : A ++ C ++ o :: B = A₀ ++ x :: B₀)
    (hlt : A₀.length < (A ++ C).length) :
    (∃ D, A = A₀ ++ x :: D ∧ B₀ = D ++ C ++ o :: B) ∨
      ∃ C₁ C₂, C = C₁ ++ x :: C₂ ∧ A₀ = A ++ C₁ ∧ B₀ = C₂ ++ o :: B := by
  obtain ⟨D, hD, hB⟩ : ∃ D, A ++ C = A₀ ++ x :: D ∧ B₀ = D ++ o :: B := by
    rcases List.append_eq_append_iff.1 h with ⟨E, hE, -⟩ | ⟨E, hE, hB⟩
    · rw [hE, List.length_append] at hlt
      omega
    · cases E with
      | nil => simp [hE] at hlt
      | cons y E =>
        obtain ⟨rfl, rfl⟩ := List.cons_eq_cons.1 hB
        exact ⟨E, hE, rfl⟩
  rcases List.append_eq_append_iff.1 hD with ⟨E, hE, hC⟩ | ⟨E, hE, hC⟩
  · exact .inr ⟨E, D, hC, hE, hB⟩
  · cases E with
    | nil => exact .inr ⟨[], D, hC.symm, by simpa using hE.symm, hB⟩
    | cons y E =>
      obtain ⟨rfl, rfl⟩ := List.cons_eq_cons.1 hC
      exact .inl ⟨E, hE, hB⟩

/-- The operation with this number gave way in one of the visits. -/
def GaveWay (V : List (Visit α)) (x : OpId) : Prop := ∃ v ∈ V, v.op = x ∧ v.replaced = true

/-- While the cursor is in front of an operation, the operations in front of which it is stay in a row, but for what
gives way. -/
theorem Rounds.spread {V : List (Visit α)} (h : Rounds k i t V j t') (hV : ∀ v ∈ V, v.Moves)
    (hN : ∀ v ∈ V, ∃ N, v.Puts k N) {R : OpId → Prop} {N A C B : List OpId} {o : OpId}
    (hs : t.builder.body.slotsOf k = A ++ C ++ o :: B) (hi : i ≤ (A ++ C).length) (hsp : Spread R N C) :
    ∃ A' C', t'.builder.body.slotsOf k = A' ++ C' ++ o :: B ∧ Spread (fun x => R x ∨ GaveWay V x) N C' := by
  induction h generalizing R A C with
  | done => exact ⟨A, C, hs, hsp.mono fun _ => .inl⟩
  | skip _ _ _ _ ih => exact ih hV hN hs (Nat.le_of_succ_le hi) hsp
  | @visit i j t t' v V op b hslot hop he start leave rest ih =>
    have hv := hV v List.mem_cons_self
    have hat : v.At k := .of_start hslot hop he start
    obtain ⟨M, hM⟩ := hN v List.mem_cons_self
    obtain ⟨A₀, B₀, hAB, rfl, hb, hlen⟩ := hM.round hat hv start leave
    rw [hlen] at rest ih
    have hgave : ∀ x, (R x ∨ GaveWay [v] x) ∨ GaveWay V x → R x ∨ GaveWay (v :: V) x := by
      rintro x ((hx | ⟨w, hw, hx⟩) | ⟨w, hw, hx⟩)
      · exact .inl hx
      · exact .inr ⟨w, List.mem_cons.2 (.inl (List.mem_singleton.1 hw)), hx⟩
      · exact .inr ⟨w, List.mem_cons_of_mem v hw, hx⟩
    suffices hround : ∃ A₁ C₁, b.slotsOf k = A₁ ++ C₁ ++ o :: B ∧ A₀.length + M.length ≤ (A₁ ++ C₁).length ∧
        Spread (fun x => R x ∨ GaveWay [v] x) N C₁ by
      obtain ⟨A₁, C₁, hb₁, hi₁, hsp₁⟩ := hround
      obtain ⟨A', C', hs', hsp'⟩ := ih (fun w hw => hV w (List.mem_cons_of_mem v hw))
        (fun w hw => hN w (List.mem_cons_of_mem v hw)) hb₁ hi₁ hsp₁
      exact ⟨A', C', hs', hsp'.mono hgave⟩
    rcases append_cases (hs.symm.trans hAB) hi with ⟨D, rfl, rfl⟩ | ⟨C₁, C₂, rfl, rfl, rfl⟩
    · refine ⟨A₀ ++ M ++ v.op :: D, C, by simp [hb], ?_, hsp.mono fun _ => .inl⟩
      simp only [List.length_append]
      omega
    · refine ⟨A, C₁ ++ M ++ v.op :: C₂, by simp [hb], ?_, ?_⟩
      · simp only [List.length_append]
        omega
      · cases hr : v.replaced with
        | false =>
          rw [hM.idle hr, List.append_nil]
          exact hsp.mono fun _ => .inl
        | true => exact hsp.insert (fun _ => .inl) (.inr ⟨v, List.mem_singleton_self v, rfl, hr⟩) M

end Lower

end Scalarize
