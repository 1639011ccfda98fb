import Mathlib.Data.List.Perm.Subperm
import Scalarize.Proofs.Edits.Walk
import Scalarize.Proofs.Gauge.Step

/-!
# Walking within a gauge

* `Gauge.stage`, `Gauge.stages` : between two steps the body is within a gauge, throughout the walk;
* `Gauge.Below` : a bounded number of operations, all of a lower rank, have become pending;
* `Gauge.step_runs` : that is what every step leaves behind.
-/

namespace Scalarize

open Body Lower

namespace Gauge

variable {cx : Context} {L : Limits} {E : OpId → Prop} {G G' : Gauge} {b b' : Body} {P D A B N M : List OpId}
  {o : OpId} {op : Operation} {k : BlockId} {t : LowerState}

/-- Between two steps the body is tidy and within a gauge, which ranks every operation. -/
def stage (cx : Context) (L : Limits) (E : OpId → Prop) : Stage := fun b _ R P D =>
  b.Tidy E P D ∧ ∃ G : Gauge, b.Gauged cx L G ∧ R = G.rank

/-- Of what is pending besides `P`, there is no more than one step makes, and it ranks below `r`. -/
def Below (L : Limits) (r : Nat) (P : List OpId) (R : OpId → Nat) (P' : List OpId) : Prop :=
  ∀ N, P' = P ++ N → (∀ x ∈ N, R x < r) ∧ N.length ≤ L.made

/-- Operations from a range of the table, each listed once, are no more than the range holds. -/
theorem length_le_of_range {m c : Nat} (hN : N.Nodup) (h : ∀ x ∈ N, m ≤ x.index ∧ x.index < m + c) : N.length ≤ c := by
  have hsub : N.map OpId.index ⊆ List.range' m c := by
    intro i hi
    obtain ⟨x, hx, rfl⟩ := List.mem_map.1 hi
    exact List.mem_range'_1.2 (h x hx)
  have hnd : (N.map OpId.index).Nodup := List.Nodup.map (fun ⟨_⟩ ⟨_⟩ h => congrArg OpId.mk h) hN
  have hle := (List.subperm_of_subset hnd hsub).length_le
  rwa [List.length_map, List.length_range'] at hle

/-- A step over an operation, other than a guard. -/
theorem step_runs (h : t.builder.body.Tidy E (P ++ [o]) D) (hg : t.builder.body.Gauged cx L G)
    (hop : t.builder.body.op? o = some op) (hblocks : op.kind.blocks = [])
    (hs : t.builder.body.slotsOf k = A ++ o :: B) (hp : t.builder.point = ⟨k, A.length⟩) :
    Runs False (step cx o op.kind) t (Stepped False
      (fun b y R P' D => stage cx L E b y R P' D ∧ Below L (G.rank o) P R P')
      t.builder.body G.rank k A o B P D) := by
  obtain ⟨blk, hblk⟩ := exists_block_of_mem_slotsOf (o := o) (b := t.builder.body) (k := k) (by simp [hs])
  have hsite : ∀ n, G.rank o = n + 1 → t.builder.Site cx L n G := fun n hn =>
    .of_slot hg (by rw [hp]; exact hblk) (slotsOf_eq hblk ▸ hs ▸ List.mem_append_right _ List.mem_cons_self)
      (by omega)
  refine ((h.step_runs hop hblocks hs hp G.rank).and (Builder.Site.step_runs hsite hop (hg.fits hop))).mono ?_
  rintro replaced t' ⟨⟨H, N, _, hslots, hH, hlocal, hfresh, -, -, hend⟩, hstepped⟩
  have hnew : ∀ x ∈ N, t.builder.body.ops.size ≤ x.index := fun x hx => by
    refine Nat.not_lt.1 fun hlt => ?_
    have := isSome_op?.2 hlt
    rw [hfresh x hx] at this
    cases this
  rcases hstepped with ⟨rfl, rfl⟩ | ⟨n, G', hn, hl⟩
  · -- nothing was made
    obtain ⟨hout, htidy⟩ := hend
    obtain rfl : N = [] := List.eq_nil_iff_forall_not_mem.2 fun x hx =>
      absurd (isSome_op?.1 (htidy.known x (by simp [hx]))) (Nat.not_lt.2 (hnew x hx))
    refine ⟨H, [], G.rank, hslots, hH, hlocal, hfresh, fun _ _ => rfl, False.elim, .ok ⟨hout, ⟨htidy, G, hg, rfl⟩, ?_⟩⟩
    intro N hN
    obtain rfl : N = [] := by simpa using hN
    exact ⟨nofun, Nat.zero_le _⟩
  · refine ⟨H, N, G'.rank, hslots, hH, hlocal, hfresh, fun x hx => hl.rank (isSome_op?.1 hx), False.elim, ?_⟩
    have hgauged : Ends False (if replaced then t'.builder.body.eraseOp o else .ok t'.builder.body)
        fun b' => b'.Gauged cx L G' ∧ t.builder.body.Laid cx L n L.made G G' b' := by
      cases replaced with
      | false => exact .ok ⟨hl.gauged, hl⟩
      | true =>
        refine (hl.gauged.eraseOp_ends fun op' hop' => ?_).mono fun b' ⟨hg', hout⟩ =>
          ⟨hg', hl.trans (Laid.of_outlives hg' hout)⟩
        obtain ⟨op'', hop'', hbare, -⟩ := hlocal.op? hop
        rw [Option.some.inj (hop'.symm.trans hop''), OpKind.blocks_eq_of_bare_eq hbare, hblocks]
    refine (hend.and hgauged).mono fun b' ⟨⟨hout, htidy⟩, hg', hl'⟩ => ⟨hout, ⟨htidy, G', hg', rfl⟩, ?_⟩
    intro N' hN'
    obtain rfl := List.append_cancel_left hN'
    have hnd := htidy.nodup
    rw [List.nodup_append, List.nodup_append] at hnd
    have hlt : ∀ x ∈ N, x.index < b'.ops.size := fun x hx => isSome_op?.1 (htidy.known x (by simp [hx]))
    refine ⟨fun x hx => ?_, length_le_of_range hnd.1.2.1 fun x hx =>
      ⟨hnew x hx, Nat.lt_of_lt_of_le (hlt x hx) hl'.count⟩⟩
    have := hl'.new (hnew x hx) (hlt x hx)
    omega

/-- What a guard guards ranks below it, and so does all that lies below. -/
theorem rank_lt_of_inner (h : b.Gauged cx L G) (hM : Unfolds b (b.inner o) M) : ∀ x ∈ M, G.rank x < G.rank o := by
  have hinner {g x : OpId} (hx : x ∈ b.inner g) : G.rank x < G.rank g := by
    obtain ⟨opg, hopg, k, hk, hx⟩ := mem_inner.1 hx
    obtain ⟨blk, hblk⟩ := exists_block_of_mem_slotsOf hx
    exact h.nested hblk (slotsOf_eq hblk ▸ hx) hopg hk
  exact hM.forall_mem (fun _ => hinner) fun x y hx hy => Nat.lt_trans (hinner hy) hx

/-- The body is within a gauge throughout the walk. -/
theorem stages (cx : Context) (L : Limits) (E : OpId → Prop) : Stages False cx (stage cx L E) where
  coherent h := h.1.coherent
  nodup h := h.1.nodup
  known h := h.1.known
  guards := ⟨E, fun h => h.1.guards⟩
  nested _ hm := hm.elim
  skip h _ _ _ := ⟨h.1.perm (by simp [List.append_assoc]), h.2⟩
  pass h _ _ _ := ⟨h.1.perm (by simp [List.append_assoc]), h.2⟩
  step := by
    rintro t R P D o op k A B ⟨h, G, hg, rfl⟩ hop - hk hs hp
    refine (step_runs h hg hop hk hs hp).mono ?_
    rintro replaced t' ⟨H, N, R', hslots, hH, hlocal, hfresh, hR, hlt, hend⟩
    exact ⟨H, N, R', hslots, hH, hlocal, hfresh, hR, hlt, hend.mono fun b' ⟨hout, hI, _⟩ => ⟨hout, hI⟩⟩

end Gauge

end Scalarize
