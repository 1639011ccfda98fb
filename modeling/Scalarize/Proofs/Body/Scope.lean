import Scalarize.Proofs.Body.Rewiring
import Scalarize.Proofs.Reachable

/-!
# Scopes

* `Body.Precedes`, `Body.Before` : an operation stands in front of another one, or of a point, in its
  block or in one that encloses it;
* `Body.Visible`, `Body.VisibleAt` : arguments, and what standing operations in front make;
* `Body.InScope` : operations read what is visible to them;
* `InScope.created`, `InScope.replaced`, `InScope.dropped`, `InScope.compact` : edits that keep this.
-/

namespace Scalarize.Body

variable {b b' : Body} {d o x g a : OpId} {k : BlockId} {p : Point} {v w : ValueId} {A B : List OpId}

/-- `d` has its slot in front of `x`, in the same block or in one that encloses it. -/
inductive Precedes (b : Body) (d : OpId) : OpId → Prop
  | here {k : BlockId} {x : OpId} (h : [d, x].Sublist (b.slotsOf k)) : Precedes b d x
  | around {k : BlockId} {g x : OpId} (hg : Precedes b d g) (hk : k ∈ b.guardedBlocks g)
      (hx : x ∈ b.slotsOf k) : Precedes b d x

/-- `d` has its slot in front of the point, in the same block or in one that encloses it. -/
def Before (b : Body) (d : OpId) (p : Point) : Prop :=
  d ∈ (b.slotsOf p.block).take p.index ∨ ∃ g, b.Precedes d g ∧ p.block ∈ b.guardedBlocks g

/-- The value is an argument, or made by a standing operation with `R`. -/
def Held (b : Body) (R : OpId → Prop) (v : ValueId) : Prop :=
  v ∈ b.args ∨ ∃ d i, b.origin? v = some (.result d i) ∧ b.stands d ∧ R d

/-- The operation may read the value. -/
def Visible (b : Body) (x : OpId) (v : ValueId) : Prop := b.Held (b.Precedes · x) v

/-- What is made at the point may read the value. -/
def VisibleAt (b : Body) (p : Point) (v : ValueId) : Prop := b.Held (b.Before · p) v

/-- Every operation that a walk lists reads arguments and results of standing operations in front. -/
def InScope (b : Body) : Prop :=
  ∀ x op v, b.Walked x → b.op? x = some op → v ∈ op.operands → b.Visible x v

/-! ## Places -/

theorem Coherent.nodup_slotsOf (h : b.Coherent) (k : BlockId) : (b.slotsOf k).Nodup := by
  unfold slotsOf
  cases hk : b.block? k with
  | none => exact .nil
  | some blk => exact h.nodup_slots hk

theorem Coherent.not_guarded_entry (h : b.Coherent) : Body.entry ∉ b.guardedBlocks g := fun hmem => by
  unfold guardedBlocks at hmem
  cases hop : b.op? g with
  | none => simp [hop] at hmem
  | some op =>
    rw [hop] at hmem
    obtain ⟨-, blk, hblk, hpar⟩ := h.guards hop hmem
    obtain ⟨blk', hblk', hnone⟩ := h.entry
    rw [Option.some.inj (hblk.symm.trans hblk'), hnone] at hpar
    cases hpar

theorem mem_of_precedes_here (h : [d, x].Sublist (b.slotsOf k)) : d ∈ b.slotsOf k ∧ x ∈ b.slotsOf k :=
  ⟨h.subset List.mem_cons_self, h.subset (by simp)⟩

theorem Precedes.trans (hb : b.Coherent) (h : b.Precedes d a) (h' : b.Precedes a x) : b.Precedes d x := by
  induction h' with
  | around _ hk hx ih => exact .around ih hk hx
  | @here k x h' =>
    obtain ⟨ha, hx⟩ := mem_of_precedes_here h'
    cases h with
    | around hg hk hag => exact .around hg hk (hb.slotsOf_unique ha hag ▸ hx)
    | @here k' _ h =>
      obtain rfl : k = k' := hb.slotsOf_unique ha (mem_of_precedes_here h).2
      -- both pairs lie around the one slot of the operation between them
      obtain ⟨A, B, hs⟩ := List.append_of_mem ha
      have hnd := hb.nodup_slotsOf k
      rw [hs, List.nodup_append, List.nodup_cons] at hnd
      have hA : a ∉ A := fun hmem => hnd.2.2 a hmem a List.mem_cons_self rfl
      have hd : d ∈ A := by
        rw [hs, pair_sublist_append, pair_sublist_cons] at h
        rcases h with h | ⟨hd, -⟩ | ⟨-, hmem⟩ | h
        · exact absurd (h.subset (by simp)) hA
        · exact hd
        · exact absurd hmem hnd.2.1.1
        · exact absurd (h.subset (by simp)) hnd.2.1.1
      have hx : x ∈ B := by
        rw [hs, pair_sublist_append, pair_sublist_cons] at h'
        rcases h' with h' | ⟨hmem, -⟩ | ⟨-, hx⟩ | h'
        · exact absurd (h'.subset (by simp)) hA
        · exact absurd hmem hA
        · exact hx
        · exact absurd (h'.subset (by simp)) hnd.2.1.1
      exact .here (hs ▸ pair_sublist_append.2 (.inr (.inl ⟨hd, List.mem_cons_of_mem _ hx⟩)))

/-- In front of a slot is in front of the operation in the slot. -/
theorem Coherent.precedes_iff_before (h : b.Coherent) (hs : b.slotsOf k = A ++ x :: B) :
    b.Precedes d x ↔ b.Before d ⟨k, A.length⟩ := by
  have hx : x ∈ b.slotsOf k := by simp [hs]
  have htake : (b.slotsOf k).take A.length = A := by simp [hs]
  unfold Before
  rw [htake]
  constructor
  · intro hp
    cases hp with
    | @here k' _ hp =>
      obtain rfl : k = k' := h.slotsOf_unique hx (mem_of_precedes_here hp).2
      have hnd := h.nodup_slotsOf k
      rw [hs] at hp hnd
      exact .inl (mem_of_pair_sublist hp hnd)
    | around hg hk hx' => exact .inr ⟨_, hg, h.slotsOf_unique hx' hx ▸ hk⟩
  · rintro (hd | ⟨g, hg, hk⟩)
    · exact .here (hs ▸ pair_sublist_append.2 (.inr (.inl ⟨hd, List.mem_cons_self⟩)))
    · exact .around hg hk hx

theorem Before.of_precedes (hb : b.Coherent) (h : b.Precedes d a) (h' : b.Before a p) : b.Before d p := by
  rcases h' with ha | ⟨g, hg, hk⟩
  · have ha' := List.mem_of_mem_take ha
    obtain ⟨A, B, hs⟩ := List.append_of_mem ha'
    rcases (hb.precedes_iff_before hs).1 h with hd | hd
    · -- what is taken up to the point is taken up to the slot
      refine .inl ?_
      rw [hs] at ha hd ⊢
      rw [List.take_left] at hd
      have hlt : A.length < p.index := by
        by_contra hle
        rw [List.take_append_of_le_length (Nat.le_of_not_lt hle)] at ha
        have hnd := hb.nodup_slotsOf p.block
        rw [hs, List.nodup_append] at hnd
        exact hnd.2.2 a (List.mem_of_mem_take ha) a List.mem_cons_self rfl
      rw [List.take_append]
      exact List.mem_append_left _ (by rwa [List.take_of_length_le (Nat.le_of_lt hlt)])
    · exact .inr hd
  · exact .inr ⟨g, h.trans hb hg, hk⟩

theorem Precedes.blockIndex (hb : b.Coherent) (h : b.Precedes d x) :
    b.blockIndex d < b.blockIndex x ∨ ∃ k, [d, x].Sublist (b.slotsOf k) := by
  have hsame : ∀ {k d x}, [d, x].Sublist (b.slotsOf k) → b.blockIndex d = b.blockIndex x := fun h => by
    obtain ⟨hd, hx⟩ := mem_of_precedes_here h
    obtain ⟨opd, hopd, rfl⟩ := hb.op?_of_mem_slotsOf hd
    obtain ⟨opx, hopx, hk⟩ := hb.op?_of_mem_slotsOf hx
    simp [Body.blockIndex, hopd, hopx, hk]
  induction h with
  | here h => exact .inr ⟨_, h⟩
  | around _ hk hx ih =>
    have := hb.blockIndex_lt (mem_inner_iff.2 ⟨_, hk, hx⟩)
    rcases ih with ih | ⟨_, ih⟩
    · exact .inl (Nat.lt_trans ih this)
    · exact .inl (hsame ih ▸ this)

theorem Coherent.not_precedes_self (h : b.Coherent) : ¬b.Precedes x x := fun hx => by
  rcases hx.blockIndex h with hlt | ⟨k, hs⟩
  · exact Nat.lt_irrefl _ hlt
  · exact List.nodup_iff_sublist.1 (h.nodup_slotsOf k) x hs

/-! ## What stands in front is walked -/

theorem Walked.exposed (h : b.Walked x) (hb : b.Coherent) (hx : x ∈ b.slotsOf k) : b.Exposed k := by
  cases h with
  | entry hx' _ => exact .inl (hb.slotsOf_unique hx hx')
  | inner hg hx' _ =>
    obtain ⟨k', hk', hx'⟩ := mem_inner_iff.1 hx'
    exact .inr ⟨_, hg, hb.slotsOf_unique hx hx' ▸ hk'⟩

theorem Exposed.guard (h : b.Exposed k) (hb : b.Coherent) (hk : k ∈ b.guardedBlocks g) : b.Walked g := by
  rcases h with rfl | ⟨g', hg', hk'⟩
  · exact absurd hk hb.not_guarded_entry
  · exact hb.guard_unique hk' hk ▸ hg'

theorem Precedes.walked (h : b.Precedes d x) (hb : b.Coherent) (hx : b.Walked x) (hs : b.stands d) :
    b.Walked d := by
  induction h with
  | here h =>
    obtain ⟨hd, hx'⟩ := mem_of_precedes_here h
    exact (hx.exposed hb hx').walked hd hs
  | around _ hk hx' ih => exact ih ((hx.exposed hb hx').guard hb hk)

theorem Before.walked (h : b.Before d p) (hb : b.Coherent) (hp : b.Exposed p.block) (hs : b.stands d) :
    b.Walked d := by
  rcases h with hd | ⟨g, hg, hk⟩
  · exact hp.walked (List.mem_of_mem_take hd) hs
  · exact hg.walked hb (hp.guard hb hk) hs

/-! ## What is held -/

theorem Held.imp {R R' : OpId → Prop} (h : b.Held R v) (hR : ∀ d, R d → R' d) : b.Held R' v :=
  Or.imp_right (fun ⟨d, i, hv, hs, hd⟩ => ⟨d, i, hv, hs, hR d hd⟩) h

theorem Held.mono {R R' : OpId → Prop} (h : b.Held R v) (hargs : b'.args = b.args)
    (horigin : ∀ {r}, b.origin? v = some r → b'.origin? v = some r)
    (hR : ∀ d i, b.origin? v = some (.result d i) → b.stands d → R d → b'.stands d ∧ R' d) :
    b'.Held R' v := by
  rcases h with h | ⟨d, i, hv, hs, hd⟩
  · exact .inl (hargs ▸ h)
  · exact .inr ⟨d, i, horigin hv, hR d i hv hs hd⟩

theorem Held.of_origin (h : b.Coherent) {R : OpId → Prop} (hv : b.Held R v) {i : Nat}
    (hd : b.origin? v = some (.result d i)) : b.stands d ∧ R d := by
  rcases hv with hv | ⟨d', i', hv, hs, hd'⟩
  · rw [h.args v hv] at hd
    cases hd
  · obtain ⟨rfl, -⟩ : d' = d ∧ i' = i := by simpa using hv.symm.trans hd
    exact ⟨hs, hd'⟩

/-- What was visible to an operation in front is visible. -/
theorem VisibleAt.of_visible (hb : b.Coherent) (hd : b.Before d p) (hv : b.Visible d v) : b.VisibleAt p v :=
  hv.imp fun _ hprec => .of_precedes hb hprec hd

/-! ## Bodies laid out alike -/

/-- Both bodies have the same slots, and the same operations guard the same blocks. -/
structure Alike (b b' : Body) : Prop where
  slotsOf : ∀ k, b'.slotsOf k = b.slotsOf k
  guardedBlocks : ∀ x, b'.guardedBlocks x = b.guardedBlocks x

theorem Outlives.alike (h : Outlives b b') : Alike b b' where
  slotsOf := h.slotsOf
  guardedBlocks x := by
    have hop := h.op? x
    unfold Body.guardedBlocks
    cases hx : b.op? x with
    | none =>
      rw [hx] at hop
      rw [Option.map_eq_none_iff.1 hop]
    | some op =>
      obtain ⟨op', hop', hk, -⟩ := h.op?_some hx
      simp [hop', hk]

theorem alike_modifyDecl (b : Body) (o : OpId) (f : Decl → Decl) : Alike b (b.modifyDecl o f) where
  slotsOf _ := rfl
  guardedBlocks x := by
    unfold Body.guardedBlocks
    rw [op?_modifyDecl]
    cases b.op? x with
    | none => rfl
    | some op =>
      simp only [Option.map_some, Option.elim_some]
      split
      · exact OpKind.blocks_eq_of_bare_eq (OpKind.bare_mapDecl f op.kind)
      · rfl

namespace Alike

theorem symm (h : Alike b b') : Alike b' b where
  slotsOf k := (h.slotsOf k).symm
  guardedBlocks x := (h.guardedBlocks x).symm

theorem precedes (h : Alike b b') (hd : b.Precedes d x) : b'.Precedes d x := by
  induction hd with
  | here hd => exact .here ((h.slotsOf _).symm ▸ hd)
  | around _ hk hx ih => exact .around ih ((h.guardedBlocks _).symm ▸ hk) ((h.slotsOf _).symm ▸ hx)

theorem before (h : Alike b b') (hd : b.Before d p) : b'.Before d p := by
  unfold Before
  rw [h.slotsOf]
  exact hd.imp_right fun ⟨g, hg, hk⟩ => ⟨g, h.precedes hg, (h.guardedBlocks _).symm ▸ hk⟩

theorem walked (h : Alike b b') (hs : ∀ x, b'.stands x → b.stands x) (hx : b'.Walked x) : b.Walked x := by
  induction hx with
  | entry hx hx' => exact .entry (h.slotsOf _ ▸ hx) (hs _ hx')
  | inner _ hx hx' ih =>
    obtain ⟨k, hk, hx⟩ := mem_inner_iff.1 hx
    exact .inner ih (mem_inner_iff.2 ⟨k, h.guardedBlocks _ ▸ hk, h.slotsOf _ ▸ hx⟩) (hs _ hx')

end Alike

/-! ## New operations -/

namespace Created

variable {kind : OpKind} {vs : List ValueId} {tys : List Ty}

/-- The slots in front of the point, and behind it. -/
theorem slotsOf_place (h : Created b p kind vs tys o b') :
    ∃ A B, b.slotsOf p.block = A ++ B ∧ A.length = p.index ∧ b'.slotsOf p.block = A ++ o :: B := by
  obtain ⟨blk, hblk, hle⟩ := h.place
  have hlen : (blk.slots.take p.index).length = p.index := List.length_take_of_le hle
  have hs : b.slotsOf p.block = blk.slots.take p.index ++ blk.slots.drop p.index := by
    rw [slotsOf_eq hblk, List.take_append_drop]
  have h' : Created b ⟨p.block, (blk.slots.take p.index).length⟩ kind vs tys o b' := by rwa [hlen]
  exact ⟨_, _, hs, hlen, h'.slotsOf hs⟩

theorem slotsOf_sublist (h : Created b p kind vs tys o b') (k : BlockId) :
    (b.slotsOf k).Sublist (b'.slotsOf k) := by
  by_cases hk : k = p.block
  · obtain ⟨A, B, hs, -, hs'⟩ := h.slotsOf_place
    rw [hk, hs, hs']
    exact (List.append_sublist_append_left A).2 (List.sublist_cons_self o B)
  · cases hblk : b.block? k with
    | none => simp [Body.slotsOf, hblk]
    | some blk =>
      obtain ⟨blk', hblk', -, hslots⟩ := h.block?_old hblk
      rw [slotsOf_eq hblk, slotsOf_eq hblk', hslots, if_neg hk]

theorem slotsOf_ne (h : Created b p kind vs tys o b') (hk : k ≠ p.block) (hold : (b.block? k).isSome) :
    b'.slotsOf k = b.slotsOf k := by
  obtain ⟨blk, hblk⟩ := Option.isSome_iff_exists.1 hold
  obtain ⟨blk', hblk', -, hslots⟩ := h.block?_old hblk
  rw [slotsOf_eq hblk, slotsOf_eq hblk', hslots, if_neg hk]

theorem guardedBlocks_old (h : Created b p kind vs tys o b') (hk : k ∈ b.guardedBlocks g) :
    k ∈ b'.guardedBlocks g := by
  unfold Body.guardedBlocks at hk ⊢
  cases hop : b.op? g with
  | none => simp [hop] at hk
  | some op => rwa [h.op?_old hop, ← hop]

theorem stands_old (h : Created b p kind vs tys o b') (hs : b.stands d) : b'.stands d := by
  rw [stands_eq] at hs ⊢
  cases hop : b.op? d with
  | none => simp [hop] at hs
  | some op => rwa [h.op?_old hop, ← hop]

theorem precedes_old (h : Created b p kind vs tys o b') (hd : b.Precedes d x) : b'.Precedes d x := by
  induction hd with
  | here hd => exact .here (hd.trans (h.slotsOf_sublist _))
  | around _ hk hx ih => exact .around ih (h.guardedBlocks_old hk) ((h.slotsOf_sublist _).subset hx)

/-- What was in front of the point is in front of the new operation. -/
theorem precedes_new (h : Created b p kind vs tys o b') (hd : b.Before d p) : b'.Precedes d o := by
  obtain ⟨A, B, hs, hlen, hs'⟩ := h.slotsOf_place
  rcases hd with hd | ⟨g, hg, hk⟩
  · rw [hs, ← hlen, List.take_left] at hd
    exact .here (hs' ▸ pair_sublist_append.2 (.inr (.inl ⟨hd, List.mem_cons_self⟩)))
  · exact .around (h.precedes_old hg) (h.guardedBlocks_old hk) (by simp [hs'])

/-- The point behind the new operation has in front what the point had, and the operation. -/
theorem before_next (h : Created b p kind vs tys o b') (hd : b.Before d p ∨ d = o) :
    b'.Before d ⟨p.block, p.index + 1⟩ := by
  obtain ⟨A, B, hs, hlen, hs'⟩ := h.slotsOf_place
  have htake : (b'.slotsOf p.block).take (p.index + 1) = A ++ [o] := by
    rw [hs', ← hlen]
    simp [List.take_append, List.take_of_length_le]
  unfold Before
  dsimp only
  rw [htake]
  rcases hd with (hd | ⟨g, hg, hk⟩) | rfl
  · rw [hs, ← hlen, List.take_left] at hd
    exact .inl (List.mem_append_left _ hd)
  · exact .inr ⟨g, h.precedes_old hg, h.guardedBlocks_old hk⟩
  · exact .inl (by simp)

/-- The point behind keeps what was visible, and shows the new results. -/
theorem visibleAt_next (h : Created b p kind vs tys o b') (hv : b.VisibleAt p v) :
    b'.VisibleAt ⟨p.block, p.index + 1⟩ v :=
  hv.mono h.args h.extended.origin?_some fun _ _ _ hs hd => ⟨h.stands_old hs, h.before_next (.inl hd)⟩

theorem stands_self (h : Created b p kind vs tys o b') : b'.stands o := by
  rw [stands_eq, h.op?_self]
  rfl

theorem visibleAt_new (h : Created b p kind vs tys o b') {i : Nat} (hv : b'.origin? v = some (.result o i)) :
    b'.VisibleAt ⟨p.block, p.index + 1⟩ v :=
  .inr ⟨o, i, hv, h.stands_self, h.before_next (.inr rfl)⟩

/-- Inside the block that a new guard guards, what was visible in front of the guard still is. -/
theorem visibleAt_inside (h : Created b p kind vs tys o b') (hk : k ∈ b'.guardedBlocks o)
    (hv : b.VisibleAt p v) : b'.VisibleAt ⟨k, 0⟩ v :=
  hv.mono h.args h.extended.origin?_some fun _ _ _ hs hd =>
    ⟨h.stands_old hs, .inr ⟨o, h.precedes_new hd, hk⟩⟩

/-- Points in other blocks keep what is visible. -/
theorem visibleAt_ne (h : Created b p kind vs tys o b') {q : Point} (hq : q.block ≠ p.block)
    (hold : (b.block? q.block).isSome) (hv : b.VisibleAt q v) : b'.VisibleAt q v := by
  refine hv.mono h.args h.extended.origin?_some fun d _ _ hs hd => ⟨h.stands_old hs, ?_⟩
  unfold Before
  rw [h.slotsOf_ne hq hold]
  exact hd.imp_right fun ⟨g, hg, hk⟩ => ⟨g, h.precedes_old hg, h.guardedBlocks_old hk⟩

/-- An old operation is walked only if it was walked before. -/
theorem walked_old (h : Created b p kind vs tys o b') (hx : b'.Walked x) (hne : x ≠ o) :
    b.Walked x := by
  have hold : ∀ {k x}, x ∈ b'.slotsOf k → x ≠ o → x ∈ b.slotsOf k := fun {k x} hx hne => by
    obtain ⟨blk', hblk'⟩ := exists_block_of_mem_slotsOf hx
    rw [slotsOf_eq hblk'] at hx
    rcases h.block_cases hblk' with ⟨blk, hblk, -, hs⟩ | ⟨-, -, rfl⟩
    · rw [slotsOf_eq hblk]
      rw [hs] at hx
      split at hx
      next he =>
        subst he
        obtain ⟨blk₁, hblk₁, hle⟩ := h.place
        obtain rfl := Option.some.inj (hblk.symm.trans hblk₁)
        exact ((mem_slots hle).1 hx).resolve_left hne
      next => exact hx
    · cases hx
  have hstands : ∀ {x}, b'.stands x → x ≠ o → b.stands x := fun {x} hs hne => by
    rw [stands_eq, h.op?, if_neg hne] at hs
    exact hs
  induction hx with
  | entry hx hs => exact .entry (hold hx hne) (hstands hs hne)
  | @inner g x _ hx hs ih =>
    have hg : g ≠ o := by
      rintro rfl
      rw [h.inner] at hx
      cases hx
    rcases h.mem_inner hg hx with hx | ⟨rfl, -⟩
    · exact .inner (ih hg) hx (hstands hs hne)
    · exact absurd rfl hne

end Created

/-! ## Edits keep scopes -/

/-- A new operation that reads what is visible at its point. -/
theorem InScope.created (h : b.InScope) {kind : OpKind} {vs : List ValueId} {tys : List Ty}
    (hc : Created b p kind vs tys o b') (hvs : ∀ v ∈ vs, b.VisibleAt p v) : b'.InScope := by
  intro x op v hx hop hv
  rcases hc.op?_cases hop with hop' | ⟨rfl, rfl⟩
  · have hne : x ≠ o := by
      rintro rfl
      rw [hc.fresh] at hop'
      cases hop'
    exact (h _ _ _ (hc.walked_old hx hne) hop' hv).mono hc.args hc.extended.origin?_some
      fun _ _ _ hs hd => ⟨hc.stands_old hs, hc.precedes_old hd⟩
  · exact (hvs v hv).mono hc.args hc.extended.origin?_some
      fun _ _ _ hs hd => ⟨hc.stands_old hs, hc.precedes_new hd⟩

theorem stands_modifyDecl (b : Body) (o : OpId) (f : Decl → Decl) (x : OpId) :
    (b.modifyDecl o f).stands x = b.stands x := by
  rw [stands_eq, stands_eq, op?_modifyDecl]
  cases b.op? x with
  | none => rfl
  | some op =>
    simp only [Option.map_some, Option.any_some]
    split <;> rfl

theorem VisibleAt.declared (h : b.VisibleAt p v) (o : OpId) (f : Decl → Decl) :
    (b.modifyDecl o f).VisibleAt p v :=
  h.mono rfl (fun hv => by rwa [origin?_modifyDecl]) fun _ _ _ hs hd =>
    ⟨by rwa [stands_modifyDecl], (alike_modifyDecl b o f).before hd⟩

theorem InScope.declared (h : b.InScope) (o : OpId) (f : Decl → Decl) : (b.modifyDecl o f).InScope := by
  intro x op v hx hop hv
  have hlike := alike_modifyDecl b o f
  have hx' := hlike.walked (fun x hs => by rwa [stands_modifyDecl] at hs) hx
  have hread : ∃ op₀, b.op? x = some op₀ ∧ op₀.operands = op.operands := by
    rw [op?_modifyDecl] at hop
    obtain ⟨op₀, hop₀, rfl⟩ := Option.map_eq_some_iff.1 hop
    refine ⟨op₀, hop₀, ?_⟩
    split <;> rfl
  obtain ⟨op₀, hop₀, hops⟩ := hread
  exact (h _ _ _ hx' hop₀ (hops ▸ hv)).mono rfl (fun hv => by rwa [origin?_modifyDecl]) fun _ _ _ hs hd =>
    ⟨by rwa [stands_modifyDecl], hlike.precedes hd⟩

theorem Replaced.stands (h : Replaced b v w b') (x : OpId) : b'.stands x = b.stands x := by
  rw [stands_eq, stands_eq, h.op?]
  cases b.op? x <;> rfl

theorem Replaced.held (h : Replaced b v w b') {R R' : OpId → Prop} {u : ValueId} (hu : b.Held R u)
    (hR : ∀ d, R d → R' d) : b'.Held R' u :=
  hu.mono h.outlives.args (fun hu => by rwa [h.outlives.origin?]) fun _ _ _ hs hd =>
    ⟨by rwa [h.stands], hR _ hd⟩

theorem Replaced.walked (h : Replaced b v w b') (hx : b'.Walked x) : b.Walked x :=
  h.outlives.alike.walked (fun x hs => by rwa [h.stands] at hs) hx

/-- A value gives way to one that all its readers may read. -/
theorem InScope.replaced (h : b.InScope) (hr : Replaced b v w b')
    (hw : ∀ x, b.Walked x → b.Reads x v → b.Visible x w) : b'.InScope := by
  intro x op u hx hop hu
  have hx' := hr.walked hx
  rw [hr.op?] at hop
  obtain ⟨op₀, hop₀, rfl⟩ := Option.map_eq_some_iff.1 hop
  obtain ⟨u₀, hu₀, rfl⟩ := List.mem_map.1 hu
  refine hr.held (R := (b.Precedes · x)) ?_ fun _ => hr.outlives.alike.precedes
  split
  next he => exact hw x hx' ⟨op₀, hop₀, he ▸ hu₀⟩
  next => exact h _ _ _ hx' hop₀ hu₀

theorem Dropped.stands_of {f : Bool → Bool} (h : Dropped b o f b') (hf : f true = true)
    (hs : b'.stands x) : b.stands x := by
  rw [stands_eq] at hs ⊢
  cases hx : b.op? x with
  | none =>
    rw [h.op?, hx] at hs
    cases hs
  | some op =>
    cases he : op.erased with
    | false => simp [he]
    | true =>
      obtain ⟨op', hop', -, -, -, he'⟩ := (h.outlives hf).op?_some hx
      rw [hop'] at hs
      simp [he' he] at hs

theorem Dropped.stands_ne {f : Bool → Bool} (h : Dropped b o f b') (hne : f false = true → x ≠ o)
    (hs : b.stands x) : b'.stands x := by
  rw [stands_eq] at hs ⊢
  rw [h.op?]
  cases hx : b.op? x with
  | none => simp [hx] at hs
  | some op =>
    rw [hx] at hs
    simp only [Option.any_some, Bool.not_eq_true', Option.map_some] at hs ⊢
    split
    next he =>
      cases hf : f false with
      | false => simp [hs, hf]
      | true => exact absurd he (hne hf)
    next => exact hs

theorem Dropped.walked {f : Bool → Bool} (h : Dropped b o f b') (hf : f true = true) (hx : b'.Walked x) :
    b.Walked x :=
  (h.outlives hf).alike.walked (fun _ => h.stands_of hf) hx

/-- An operation that nothing reads is erased. -/
theorem InScope.dropped (h : b.InScope) {f : Bool → Bool} (hf : f true = true) (hd : Dropped b o f b')
    (ho : f false = true → ¬b.ResultRead o) (hb : b.Coherent) : b'.InScope := by
  intro x op v hx hop hv
  have hx' := hd.walked hf hx
  obtain ⟨hne, op₀, hop₀, hv₀⟩ := hd.reads_iff.1 ⟨op, hop, hv⟩
  refine (h _ _ _ hx' hop₀ hv₀).mono (hd.outlives hf).args (fun hu => by rwa [(hd.outlives hf).origin?])
    fun d i hvd hs hprec => ⟨hd.stands_ne (fun hf' => ?_) hs, (hd.outlives hf).alike.precedes hprec⟩
  rintro rfl
  obtain ⟨opd, hopd, hres⟩ := hb.origin hvd
  exact ho hf' ⟨opd, v, x, hopd, List.mem_of_getElem? hres, op₀, hop₀, hv₀⟩

/-! ## Compacting -/

@[simp] theorem slotsOf_compact (b : Body) (k : BlockId) :
    b.compact.slotsOf k = (b.slotsOf k).filter b.stands := by
  unfold slotsOf
  rw [block?_compact]
  cases b.block? k <;> rfl

theorem walked_of_compact (hx : b.compact.Walked x) : b.Walked x := by
  have hmem : ∀ {k x}, x ∈ b.compact.slotsOf k → x ∈ b.slotsOf k := fun hx => by
    rw [slotsOf_compact] at hx
    exact (List.mem_filter.1 hx).1
  induction hx with
  | entry hx hs => exact .entry (hmem hx) hs
  | inner _ hx hs ih =>
    obtain ⟨k, hk, hx⟩ := mem_inner_iff.1 hx
    exact .inner ih (mem_inner_iff.2 ⟨k, hk, hmem hx⟩) hs

/-- What stands keeps its order. -/
theorem Precedes.compact (h : b.Precedes d x) (hb : b.Coherent) (hd : b.stands d) (hx : b.Walked x) :
    b.compact.Precedes d x := by
  induction h with
  | @here k x h =>
    have := h.filter b.stands
    rw [List.filter_cons_of_pos hd, List.filter_cons_of_pos hx.stands] at this
    exact .here (by simpa using this)
  | @around k g x _ hk hx' ih =>
    have hg := (hx.exposed hb hx').guard hb hk
    exact .around (ih hg) hk (by simp [hx', hx.stands])

/-- Scopes stay when the slots of erased operations are taken out. -/
theorem InScope.compact (h : b.InScope) (hb : b.Coherent) : b.compact.InScope := by
  intro x op v hx hop hv
  have hx' := walked_of_compact hx
  exact (h x op v hx' hop hv).mono rfl id fun _ _ _ hs hprec => ⟨hs, hprec.compact hb hs hx'⟩

end Scalarize.Body
