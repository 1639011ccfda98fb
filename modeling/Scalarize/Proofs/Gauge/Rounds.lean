import Scalarize.Proofs.Gauge.Walk
import Scalarize.Proofs.Worklist

/-!
# Rounds within a gauge

* `Lower.rounds` : rounds that are set aside for operations, by their ranks; `rounds_lt` : they suffice for what
  an operation gives way to;
* `lowerOp_works`, `block_works` : within the rounds set aside, the worklist lowers an operation or a block;
* `work_eq_lowerBlock` : after so many rounds nothing is left, and the block is lowered.
-/

namespace Scalarize

open Body

namespace Lower

variable {cx : Context} {L : Limits} {E : OpId → Prop} {t : LowerState} {R : OpId → Nat} {k : BlockId}
  {A B H M P D : List OpId} {o : OpId} {op : Operation} {fuel : Nat}

/-- Rounds that it takes to lower operations of such ranks, with all that they give way to. -/
def rounds (L : Limits) (R : OpId → Nat) (M : List OpId) : Nat := (M.map fun x => 6 * (L.made + 1) ^ R x).sum

theorem rounds_append (N : List OpId) : rounds L R (M ++ N) = rounds L R M + rounds L R N := by
  unfold rounds
  rw [List.map_append, List.sum_append]

theorem rounds_congr {R' : OpId → Nat} (h : ∀ x ∈ M, R' x = R x) : rounds L R' M = rounds L R M := by
  unfold rounds
  rw [List.map_congr_left fun x hx => by rw [h x hx]]

theorem rounds_cons (x : OpId) : rounds L R (x :: M) = 6 * (L.made + 1) ^ R x + rounds L R M := by
  unfold rounds
  rw [List.map_cons, List.sum_cons]

theorem rounds_le {r : Nat} (h : ∀ x ∈ M, R x ≤ r) : rounds L R M ≤ M.length * (6 * (L.made + 1) ^ r) := by
  induction M with
  | nil => exact Nat.zero_le _
  | cons x M ih =>
    obtain ⟨hx, hM⟩ := List.forall_mem_cons.1 h
    have := Nat.pow_le_pow_right (show 0 < L.made + 1 by omega) hx
    have := ih hM
    rw [rounds_cons, List.length_cons, Nat.add_one_mul M.length]
    omega

/-- What an operation gives way to takes fewer rounds than are set aside for it. -/
theorem rounds_lt {r : Nat} (hlt : ∀ x ∈ M, R x < r) (hM : M.length ≤ L.made) :
    rounds L R M + 6 ≤ 6 * (L.made + 1) ^ r := by
  cases r with
  | zero =>
    cases M with
    | nil => exact Nat.le_refl _
    | cons x M => exact absurd (hlt x List.mem_cons_self) (Nat.not_lt_zero _)
  | succ r =>
    have hle := rounds_le (L := L) fun x hx => Nat.le_of_lt_succ (hlt x hx)
    have hmul := Nat.mul_le_mul_right (6 * (L.made + 1) ^ r) hM
    have hpos := Nat.one_le_pow r (L.made + 1) (Nat.succ_pos _)
    have heq : 6 * (L.made + 1) ^ (r + 1) = L.made * (6 * (L.made + 1) ^ r) + 6 * (L.made + 1) ^ r := by
      rw [Nat.pow_succ]
      ring
    omega

/-- One layer, with the erasure of the operation should it be replaced. -/
theorem layer_runs (hI : Gauge.stage cx L E t.builder.body t.symbols R (P ++ [o]) D)
    (hop : t.builder.body.op? o = some op) (hk : op.kind.blocks = []) (hs : t.builder.body.slotsOf k = A ++ o :: B) :
    Runs False (layer cx o op.kind k A.length) t fun n t' => ∃ H N R', n = H.length ∧
      t'.builder.point = t.builder.point ∧ t'.builder.body.slotsOf k = A ++ H ++ o :: B ∧
      Unfolds t'.builder.body H N ∧ Local t.builder.body [k] [] t'.builder.body ∧
      (∀ x, (t.builder.body.op? x).isSome → R' x = R x) ∧
      Gauge.stage cx L E t'.builder.body t'.symbols R' (P ++ N) (o :: D) ∧ (∀ x ∈ N, R' x < R o) ∧
      N.length ≤ L.made := by
  obtain ⟨htidy, G, hg, rfl⟩ := hI
  refine Runs.bind_point (Runs.bind_body (Stages.slotCount_runs hs (by simp)) ?_)
  rintro _ rfl
  refine Runs.bind_moveTo ((Gauge.step_runs (t := ⟨⟨t.builder.body, ⟨k, A.length⟩⟩, t.symbols⟩) htidy hg hop hk hs
    rfl).bind ?_)
  rintro replaced t₁ ⟨H, N, R', hs₁, hH, hloc, -, hR, -, hend⟩
  refine Runs.bind_moveTo (Runs.bind_body (Stages.slotCount_runs hs₁ (by simp)) ?_)
  rintro _ rfl
  suffices hrest : ∀ b', Outlives t₁.builder.body b' ∧ Gauge.stage cx L E b' t₁.symbols R' (P ++ N) (o :: D) ∧
      Gauge.Below L (G.rank o) P R' (P ++ N) → ∃ H' N' R'', (A ++ H ++ o :: B).length - (A ++ o :: B).length = H'.length ∧
      t.builder.point = t.builder.point ∧ b'.slotsOf k = A ++ H' ++ o :: B ∧
      Unfolds b' H' N' ∧ Local t.builder.body [k] [] b' ∧ (∀ x, (t.builder.body.op? x).isSome → R'' x = G.rank x) ∧
      Gauge.stage cx L E b' t₁.symbols R'' (P ++ N') (o :: D) ∧ (∀ x ∈ N', R'' x < G.rank o) ∧
      N'.length ≤ L.made by
    cases replaced with
    | false => exact .pure (hrest _ hend)
    | true => exact Runs.bind_change hend fun b' hb' => .pure (hrest b' hb')
  rintro b' ⟨hout, hI', hbelow⟩
  obtain ⟨hlt, hN⟩ := hbelow N rfl
  exact ⟨H, N, R', by simp; omega, rfl, by rw [hout.slotsOf, hs₁], hout.unfolds hH, hloc.outlives hout, hR, hI', hlt, hN⟩

/-- The operation in a slot is lowered, with what it guards and gives way to, within the rounds set aside. -/
def SlotWorks (cx : Context) (L : Limits) (E : OpId → Prop) (fuel : Nat) : Prop :=
  ∀ {t : LowerState} {R k A B o M P D}, Gauge.stage cx L E t.builder.body t.symbols R (P ++ o :: M) D →
    t.builder.body.Exposed k → t.builder.body.slotsOf k = A ++ o :: B →
    Unfolds t.builder.body (t.builder.body.inner o) M → (∀ x ∈ o :: M, R x < fuel) →
    Works cx (rounds L R (o :: M)) [.slots k (A.length + 1)] (lowerOp cx fuel k A.length) [.slots k A.length] t

/-- Slots from the last to the first. -/
theorem eachSlot_works (hf : SlotWorks cx L E fuel) (hI : Gauge.stage cx L E t.builder.body t.symbols R (P ++ M) D)
    (hopen : t.builder.body.Exposed k) (hs : t.builder.body.slotsOf k = A ++ H ++ B)
    (hM : Unfolds t.builder.body H M) (hfuel : ∀ x ∈ M, R x < fuel) :
    Works cx (rounds L R M) [.slots k (A.length + H.length)] (eachSlot (lowerOp cx fuel) k A.length H.length)
      [.slots k A.length] t := by
  have h := Gauge.stages cx L E
  induction H using List.reverseRecOn generalizing t R M B D with
  | nil =>
    cases hM
    exact .done
  | append_singleton H o ih =>
    obtain ⟨M₀, M₁, rfl, hM₀, hM₁⟩ := hM.split
    obtain ⟨Mo, rfl, hMo⟩ := hM₁.of_single
    have hs' : t.builder.body.slotsOf k = (A ++ H) ++ o :: B := by simp [hs]
    rw [← List.append_assoc] at hI
    have hfuelo := fun x hx => hfuel x (List.mem_append_right _ hx)
    have hwork := hf hI hopen hs' hMo hfuelo
    rw [List.length_append, List.length_singleton, Stages.eachSlot_succ, ← List.length_append, ← Nat.add_assoc,
      ← List.length_append, rounds_append, Nat.add_comm]
    refine hwork.bind ((h.lowerOp_runs fuel hI hopen hs' hMo fun hm => hm.elim).mono ?_)
    rintro _ t₁ ⟨⟨C, N, R₁, hs₁, -, hI₁, hloc, hR, -⟩, -⟩
    have hM₀' := h.pending_unfolds (B := o :: B) hI hs' hM₀ hloc
    have hR₀ : ∀ x ∈ M₀, R₁ x = R x := fun x hx => hR x (h.known hI x (by simp [hx]))
    rw [List.length_append, ← rounds_congr hR₀]
    refine ih (B := C ++ B) hI₁ (h.exposed hI hI₁ hloc hopen) (by simp [hs₁]) hM₀' fun x hx => ?_
    rw [hR₀ x hx]
    exact hfuel x (List.mem_append_left _ hx)

theorem block_works (hf : SlotWorks cx L E fuel) (hI : Gauge.stage cx L E t.builder.body t.symbols R (P ++ M) D)
    (hopen : t.builder.body.Exposed k) (hk : (t.builder.body.block? k).isSome)
    (hM : Unfolds t.builder.body (t.builder.body.slotsOf k) M) (hfuel : ∀ x ∈ M, R x < fuel) :
    Works cx (rounds L R M + 2) [.block k] (lowerBlock cx fuel k) [] t := by
  have hcount : Ends True (t.builder.body.slotCount k) ((t.builder.body.slotsOf k).length = ·) :=
    slotCount_ends (fun blk hblk => by rw [slotsOf_eq hblk]) fun _ => hk
  obtain ⟨n, hn, hlen⟩ := hcount.exists_ok trivial
  have hslots := eachSlot_works (A := []) (B := []) hf hI hopen (by simp) hM hfuel
  rw [List.length_nil, Nat.zero_add, hlen] at hslots
  exact Works.round (p := pure ()) (l := fun _ => [.slots k n]) (r := fun _ => eachSlot (lowerOp cx fuel) k 0 n)
    (next_block hn) (run_bind_body hn _) (.pure hslots.drain)

/-- The blocks of a guard, the first of them first. -/
theorem blocks_works (hf : SlotWorks cx L E fuel) {bs : List BlockId}
    (hI : Gauge.stage cx L E t.builder.body t.symbols R (P ++ M) D) (ho : o ∈ P) (hw : t.builder.body.Walked o)
    (hbs : ∀ k ∈ bs, k ∈ t.builder.body.guardedBlocks o) (hnd : bs.Nodup)
    (hM : Unfolds t.builder.body (bs.reverse.flatMap t.builder.body.slotsOf) M) (hfuel : ∀ x ∈ M, R x < fuel) :
    Works cx (rounds L R M + 2 * bs.length) (bs.map .block) (bs.forM (lowerBlock cx fuel)) [] t := by
  have h := Gauge.stages cx L E
  induction bs generalizing t R M D with
  | nil =>
    cases hM
    exact .done
  | cons k bs ih =>
    rw [List.reverse_cons, List.flatMap_append, List.flatMap_singleton] at hM
    obtain ⟨M₀, M₁, rfl, hM₀, hM₁⟩ := hM.split
    obtain ⟨hk, hbs'⟩ := List.forall_mem_cons.1 hbs
    obtain ⟨hkbs, hnd'⟩ := List.nodup_cons.1 hnd
    rw [← List.append_assoc] at hI
    have ho' : (t.builder.body.op? o).isSome := h.known hI o (by simp [ho])
    obtain ⟨op, hop⟩ := Option.isSome_iff_exists.1 ho'
    obtain ⟨-, blk, hblk, -⟩ := (h.coherent hI).guards hop (guardedBlocks_eq hop ▸ hk)
    have hopen : t.builder.body.Exposed k := .inr ⟨o, hw, hk⟩
    have hblock := block_works hf hI hopen (by rw [hblk]; rfl) hM₁ fun x hx => hfuel x (List.mem_append_right _ hx)
    refine Works.mono (c := rounds L R M₁ + 2 + (rounds L R M₀ + 2 * bs.length)) ?_ ?_
    · have hruns : Runs False (lowerBlock cx fuel k) t _ :=
        h.lowerBlock_runs hI (by rw [hblk]; rfl) hopen hM₁ fun hm => hm.elim
      refine (hblock.wait (bs.map .block)).bind (hruns.mono ?_)
      rintro _ t₁ ⟨C, N, R₁, -, -, hI₁, hloc, hR, -⟩
      have hM₀' := h.pending_blocks hI ho hbs hkbs hM₀ hloc
      have hR₀ : ∀ x ∈ M₀, R₁ x = R x := fun x hx => hR x (h.known hI x (by simp [hx]))
      rw [← rounds_congr hR₀]
      refine ih hI₁ (h.walked hI hI₁ hloc hw (List.ne_nil_of_mem hk))
        (fun k' hk' => hloc.guardedBlocks ho' ▸ hbs' k' hk') hnd' hM₀' fun x hx => ?_
      rw [hR₀ x hx]
      exact hfuel x (List.mem_append_left _ hx)
    · rw [rounds_append, List.length_cons]
      omega

/-- Every operation is lowered within the rounds set aside for it. -/
theorem lowerOp_works (cx : Context) (L : Limits) (E : OpId → Prop) (fuel : Nat) : SlotWorks cx L E fuel := by
  have h := Gauge.stages cx L E
  induction fuel with
  | zero =>
    intro t R k A B o M P D _ _ _ _ hfuel
    exact absurd (hfuel o List.mem_cons_self) (Nat.not_lt_zero _)
  | succ fuel ih =>
    intro t R k A B o M P D hI hopen hs hM hfuel
    have hb := h.coherent hI
    obtain ⟨op, hop⟩ := Option.isSome_iff_exists.1 (h.known hI o (by simp))
    have hpos := Nat.one_le_pow (R o) (L.made + 1) (Nat.succ_pos _)
    cases he : op.erased with
    | true =>
      refine Works.mono (c := 0 + 1) ?_ (by rw [rounds_cons]; omega)
      exact Works.round (p := pure ()) (l := fun _ => [.slots k A.length]) (r := fun _ => pure ())
        (next_erased hs hop he) (lowerOp_erased hs hop he) (.pure .done)
    | false =>
      have hw : t.builder.body.Walked o := hopen.walked (by rw [hs]; simp) (by simp [stands_eq, hop, he])
      by_cases hk : op.kind.blocks = []
      · -- what the operation gives way to ranks lower
        obtain rfl : M = [] := by
          rw [inner_eq_nil hop hk] at hM
          cases hM
          rfl
        refine Works.round (c := 6 * (L.made + 1) ^ R o - 1) (next_plain hs hop he hk)
          (lowerOp_plain hs hop he hk) ((layer_runs hI hop hk hs).mono ?_) |>.mono ?_
        · rintro _ t₁ ⟨H, N, R', rfl, -, hs₁, hH, hloc, -, hI₁, hlt, hN⟩
          refine (eachSlot_works ih hI₁ (h.exposed hI hI₁ hloc hopen) hs₁ hH fun x hx => ?_).mono ?_
          · have := hlt x hx
            have := hfuel o List.mem_cons_self
            omega
          · have := rounds_lt hlt hN
            omega
        · rw [rounds_cons]
          omega
      · rw [← List.singleton_append, ← List.append_assoc] at hI
        have hM' := hM
        rw [inner_eq hop] at hM'
        have ho : o ∈ P ++ [o] := by simp
        have hguard : ∀ k' ∈ op.kind.blocks, k' ∈ t.builder.body.guardedBlocks o := by
          rw [guardedBlocks_eq hop]
          exact fun k' hk' => hk'
        have hbelow : ∀ x ∈ M, R x < fuel := by
          obtain ⟨-, G, hg, rfl⟩ := hI
          intro x hx
          have := Gauge.rank_lt_of_inner hg hM x hx
          have := hfuel o List.mem_cons_self
          omega
        have hlen : op.kind.blocks.length ≤ 2 := by
          cases op.kind <;> simp [OpKind.blocks]
        refine Works.round (c := rounds L R M + 2 * op.kind.blocks.length + (0 + 1))
          (p := (Build.moveTo ⟨k, A.length⟩ : Lower Unit))
          (l := fun _ => op.kind.blocks.map .block ++ [.resume k A.length (A ++ o :: B).length t.builder.point])
          (next_guard hs hop he hk)
          (lowerOp_guard hs hop he hk) (.build (.moveTo ?_)) |>.mono ?_
        · have hblocks := blocks_works (t := ⟨⟨t.builder.body, ⟨k, A.length⟩⟩, t.symbols⟩) ih hI ho hw hguard
            (hb.nodup_guards hop) hM' hbelow
          refine (hblocks.wait [.resume k A.length (A ++ o :: B).length t.builder.point]).bind
            ((h.blocks_runs (t := ⟨⟨t.builder.body, ⟨k, A.length⟩⟩, t.symbols⟩) (h.lowerOp_runs fuel) hI ho hw hguard
              (hb.nodup_guards hop) hM' fun hm => hm.elim).mono ?_)
          rintro _ t₁ ⟨N, R₁, -, hI₁, hloc, -, -⟩
          have hs₁ := slotCount_eq (Stages.slotsOf_guard hb hop hs hM hloc) (by simp)
          refine Works.round (p := (Build.moveTo t.builder.point : Lower Unit)) (l := fun _ => [.slots k A.length])
            (r := fun _ => pure ()) ?_ ?_ (.build (.moveTo .done))
          · rw [Task.next, run_bind_moveTo]
            rw [run_bind_body (t := ⟨⟨t₁.builder.body, t.builder.point⟩, t₁.symbols⟩) hs₁, Nat.sub_self]
            rfl
          · rw [run_bind_moveTo]
            rw [run_bind_body (t := ⟨⟨t₁.builder.body, t.builder.point⟩, t₁.symbols⟩) hs₁, Nat.sub_self]
            rfl
        · rw [rounds_cons]
          omega

/-- After the rounds set aside nothing is left, and the block is lowered, or cannot be. -/
theorem work_eq_lowerBlock (hI : Gauge.stage cx L E t.builder.body t.symbols R M []) (hopen : t.builder.body.Exposed k)
    (hk : (t.builder.body.block? k).isSome) (hM : Unfolds t.builder.body (t.builder.body.slotsOf k) M)
    (hfuel : ∀ x ∈ M, R x < fuel) {n : Nat} (hn : rounds L R M + 2 ≤ n) :
    (work cx n [.block k]).run t = (do lowerBlock cx fuel k; return true : Lower Bool).run t := by
  have hwork := block_works (P := []) (lowerOp_works cx L E fuel) hI hopen hk hM hfuel
  obtain ⟨n', -, he⟩ := hwork [] n hn
  rw [List.append_nil] at he
  rw [he]
  cases n' <;> rfl

end Lower
end Scalarize
