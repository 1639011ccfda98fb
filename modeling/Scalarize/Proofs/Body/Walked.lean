import Scalarize.Proofs.Body.Below

/-!
# What a walk lists

* `Body.Walked`, `Coherent.mem_walk_iff` : the operations that a walk lists stand, and so do all that
  enclose them;
* `Body.Exposed` : blocks in which whatever stands is walked; `Body.GuardsStay` : they stay so;
* `Coherent.nodup_walk` : a walk lists each of them once.
-/

namespace Scalarize.Body

variable {b : Body} {o x g : OpId} {k k' : BlockId} {L : List OpId}

/-- The operation stands, and so does every operation that encloses it. -/
inductive Walked (b : Body) : OpId → Prop
  | entry {x : OpId} (hx : x ∈ b.slotsOf Body.entry) (hs : b.stands x) : Walked b x
  | inner {g x : OpId} (hg : Walked b g) (hx : x ∈ b.inner g) (hs : b.stands x) : Walked b x

theorem Walked.stands (h : b.Walked x) : b.stands x := by
  cases h with
  | entry _ hs => exact hs
  | inner _ _ hs => exact hs

/-- A walk comes past all that the entry block leads to. -/
theorem Walked.mem_of_unfolds (h : b.Walked x) (hL : Unfolds b (b.slotsOf Body.entry) L) : x ∈ L := by
  induction h with
  | entry hx _ => exact hL.subset hx
  | inner _ hx _ ih => exact hL.inner_subset ih hx

theorem erased_of_stands {op : Operation} (hop : b.op? x = some op) (hs : b.stands x) :
    op.erased = false := by
  rw [stands_eq, hop] at hs
  simpa using hs

/-- All that encloses the block stands. -/
def Exposed (b : Body) (k : BlockId) : Prop :=
  k = Body.entry ∨ ∃ g, b.Walked g ∧ k ∈ b.guardedBlocks g

theorem mem_inner_iff : x ∈ b.inner g ↔ ∃ k ∈ b.guardedBlocks g, x ∈ b.slotsOf k := by
  rw [inner_eq_guardedBlocks]
  simp

theorem Exposed.walked (h : b.Exposed k) (hx : x ∈ b.slotsOf k) (hs : b.stands x) : b.Walked x := by
  rcases h with rfl | ⟨g, hg, hk⟩
  · exact .entry hx hs
  · exact .inner hg (mem_inner_iff.2 ⟨k, hk, hx⟩) hs

/-- Guards that stand in `b` stand in `b'` as well, in the same block, and guard the same blocks. -/
structure GuardsStay (b b' : Body) : Prop where
  op? : ∀ {x op}, b.op? x = some op → op.kind.blocks ≠ [] → op.erased = false →
    ∃ op', b'.op? x = some op' ∧ op'.kind.blocks = op.kind.blocks ∧ op'.block = op.block ∧ op'.erased = false

theorem GuardsStay.guardedBlocks {b' : Body} (h : GuardsStay b b') (hs : b.stands g)
    (hk : k ∈ b.guardedBlocks g) : k ∈ b'.guardedBlocks g := by
  cases hop : b.op? g with
  | none =>
    unfold Body.guardedBlocks at hk
    simp [hop] at hk
  | some op =>
    rw [guardedBlocks_eq hop] at hk
    obtain ⟨op', hop', hblocks, -⟩ :=
      h.op? hop (List.ne_nil_of_mem hk) (erased_of_stands hop hs)
    rwa [guardedBlocks_eq hop', hblocks]

/-- Guards that were walked still are. -/
theorem GuardsStay.walked {b' : Body} (h : GuardsStay b b') (hb : b.Coherent) (hb' : b'.Coherent)
    (hg : b.Walked g) (hk : b.guardedBlocks g ≠ []) : b'.Walked g := by
  have hstay : ∀ {x k}, x ∈ b.slotsOf k → b.stands x → b.guardedBlocks x ≠ [] →
      x ∈ b'.slotsOf k ∧ b'.stands x := fun {x k} hx hs hk => by
    obtain ⟨op, hop, rfl⟩ := hb.op?_of_mem_slotsOf hx
    rw [guardedBlocks_eq hop] at hk
    obtain ⟨op', hop', -, hblock, he⟩ := h.op? hop hk (erased_of_stands hop hs)
    exact ⟨hblock ▸ hb'.mem_slotsOf hop' he, by simp [stands_eq, hop', he]⟩
  induction hg with
  | entry hx hs =>
    obtain ⟨hx', hs'⟩ := hstay hx hs hk
    exact .entry hx' hs'
  | @inner g x hg hx hs ih =>
    obtain ⟨kx, hkx, hx⟩ := mem_inner_iff.1 hx
    obtain ⟨hx', hs'⟩ := hstay hx hs hk
    exact .inner (ih (List.ne_nil_of_mem hkx)) (mem_inner_iff.2 ⟨kx, h.guardedBlocks hg.stands hkx, hx'⟩) hs'

theorem GuardsStay.exposed {b' : Body} (h : GuardsStay b b') (hb : b.Coherent) (hb' : b'.Coherent)
    (hk : b.Exposed k) : b'.Exposed k := by
  rcases hk with rfl | ⟨g, hg, hk⟩
  · exact .inl rfl
  · exact .inr ⟨g, h.walked hb hb' hg (List.ne_nil_of_mem hk), h.guardedBlocks hg.stands hk⟩

/-! ## Below a block -/

theorem Coherent.mem_below_iff (h : b.Coherent) :
    x ∈ b.below k ↔ ∃ o ∈ b.live k, x = o ∨ ∃ k' ∈ b.guardedBlocks o, x ∈ b.below k' := by
  rw [h.below_eq]
  simp

theorem Coherent.mem_below_of_live (h : b.Coherent) (hx : x ∈ b.live k) : x ∈ b.below k :=
  h.mem_below_iff.2 ⟨x, hx, .inl rfl⟩

/-- Induction over the operations below a block, from the outside to the inside. -/
theorem Coherent.below_induction (h : b.Coherent) {Q : OpId → Prop} (h0 : ∀ x ∈ b.live k, Q x)
    (hstep : ∀ g ∈ b.below k, Q g → ∀ k' ∈ b.guardedBlocks g, ∀ x ∈ b.live k', Q x) :
    ∀ x ∈ b.below k, Q x := by
  suffices ∀ n k, b.blocks.size ≤ k.index + n → (∀ x ∈ b.live k, Q x) →
      (∀ g ∈ b.below k, Q g → ∀ k' ∈ b.guardedBlocks g, ∀ x ∈ b.live k', Q x) →
      ∀ x ∈ b.below k, Q x from this b.blocks.size k (by omega) h0 hstep
  clear h0 hstep
  intro n
  induction n with
  | zero =>
    intro k hn _ _ x hx
    obtain ⟨o, ho, -⟩ := h.mem_below_iff.1 hx
    rw [live_eq_nil (by omega)] at ho
    cases ho
  | succ n ih =>
    intro k hn h0 hstep x hx
    obtain ⟨o, ho, rfl | ⟨k', hk', hx⟩⟩ := h.mem_below_iff.1 hx
    · exact h0 x ho
    · have := h.lt_of_live ho hk'
      refine ih k' (by omega) (hstep o (h.mem_below_of_live ho) (h0 o ho) k' hk') (fun g hg => ?_) x hx
      exact hstep g (h.mem_below_iff.2 ⟨o, ho, .inr ⟨k', hk', hg⟩⟩)

/-- What stands below an operation below a block stands below the block. -/
theorem Coherent.below_subset (h : b.Coherent) (hg : g ∈ b.below k) (hk' : k' ∈ b.guardedBlocks g) :
    ∀ x ∈ b.below k', x ∈ b.below k := by
  refine h.below_induction (Q := fun g => ∀ k' ∈ b.guardedBlocks g, ∀ x ∈ b.below k', x ∈ b.below k)
    (fun g hg k' hk' x hx => ?_) (fun g' _ ih kg hkg g hg k' hk' x hx => ?_) g hg k' hk'
  · exact h.mem_below_iff.2 ⟨g, hg, .inr ⟨k', hk', hx⟩⟩
  · exact ih kg hkg x (h.mem_below_iff.2 ⟨g, hg, .inr ⟨k', hk', hx⟩⟩)

/-- A walk lists what stands together with all that encloses it. -/
theorem Coherent.mem_walk_iff (h : b.Coherent) : x ∈ b.walk ↔ b.Walked x := by
  rw [walk_eq]
  constructor
  · refine h.below_induction (fun x hx => ?_) (fun g _ hg k' hk' x hx => ?_) x
    · exact .entry (mem_live.1 hx).1 (mem_live.1 hx).2
    · exact .inner hg (mem_inner_iff.2 ⟨k', hk', (mem_live.1 hx).1⟩) (mem_live.1 hx).2
  · intro hx
    induction hx with
    | entry hx hs => exact h.mem_below_of_live (mem_live.2 ⟨hx, hs⟩)
    | inner _ hx hs ih =>
      obtain ⟨k', hk', hx⟩ := mem_inner_iff.1 hx
      exact h.below_subset ih hk' _ (h.mem_below_of_live (mem_live.2 ⟨hx, hs⟩))

/-- What an erased operation guards is not walked. -/
theorem Coherent.not_walked (h : b.Coherent) {op : Operation} (hop : b.op? o = some op)
    (he : op.erased) (hL : Unfolds b (b.inner o) L) : ∀ x ∈ o :: L, ¬b.Walked x := by
  refine (Unfolds.single hL).forall_mem (fun x hx hr => ?_) fun g x hg hx hr => ?_
  · obtain rfl := List.mem_singleton.1 hx
    have := hr.stands
    rw [stands_eq, hop] at this
    simp [he] at this
  · cases hr with
    | entry hx' _ => exact h.not_mem_inner_entry hx' hx
    | inner hg' hx' _ => exact hg (h.inner_unique hx' hx ▸ hg')

/-! ## A walk lists each operation once -/

theorem Coherent.blockIndex_of_live (h : b.Coherent) (hx : x ∈ b.live k) : b.blockIndex x = k.index := by
  obtain ⟨op, hop, rfl⟩ := h.op?_of_mem_slotsOf (mem_live.1 hx).1
  simp [blockIndex, hop]

theorem Coherent.le_blockIndex (h : b.Coherent) : ∀ x ∈ b.below k, k.index ≤ b.blockIndex x := by
  refine h.below_induction (fun x hx => Nat.le_of_eq (h.blockIndex_of_live hx).symm) fun g _ hg k' hk' x hx => ?_
  have hlt := h.blockIndex_lt (mem_inner_iff.2 ⟨k', hk', (mem_live.1 hx).1⟩)
  omega

/-- Two blocks share what stands below them only if one is the other or lies below it. -/
theorem Coherent.below_cases (h : b.Coherent) (hx : x ∈ b.below k) (hx' : x ∈ b.below k') :
    k = k' ∨ (∃ g ∈ b.below k, k' ∈ b.guardedBlocks g) ∨ ∃ g ∈ b.below k', k ∈ b.guardedBlocks g := by
  have hlast : ∀ {k x}, x ∈ b.below k →
      x ∈ b.live k ∨ ∃ g ∈ b.below k, ∃ k₁ ∈ b.guardedBlocks g, x ∈ b.live k₁ := fun {k x} hx => by
    refine h.below_induction
      (Q := fun x => x ∈ b.live k ∨ ∃ g ∈ b.below k, ∃ k₁ ∈ b.guardedBlocks g, x ∈ b.live k₁)
      (fun x hx => .inl hx)
      (fun g hg _ k₁ hk₁ x hx => .inr ⟨g, hg, k₁, hk₁, hx⟩) x hx
  have hblock : ∀ {k₁ k₂ x}, x ∈ b.live k₁ → x ∈ b.live k₂ → k₁ = k₂ := fun {k₁ k₂ x} h₁ h₂ => by
    obtain ⟨op, hop, rfl⟩ := h.op?_of_mem_slotsOf (mem_live.1 h₁).1
    obtain ⟨op', hop', rfl⟩ := h.op?_of_mem_slotsOf (mem_live.1 h₂).1
    rw [Option.some.inj (hop.symm.trans hop')]
  -- the operations that enclose `x` are the same on both ways
  suffices ∀ n x, b.blockIndex x = n → x ∈ b.below k → x ∈ b.below k' → k = k' ∨
      (∃ g ∈ b.below k, k' ∈ b.guardedBlocks g) ∨ ∃ g ∈ b.below k', k ∈ b.guardedBlocks g from
    this _ x rfl hx hx'
  intro n
  induction n using Nat.strongRecOn with
  | ind n ih =>
    rintro x rfl hx hx'
    rcases hlast hx with hx | ⟨g, hg, k₁, hk₁, hx⟩ <;> rcases hlast hx' with hx' | ⟨g', hg', k₂, hk₂, hx'⟩
    · exact .inl (hblock hx hx')
    · obtain rfl := hblock hx hx'
      exact .inr (.inr ⟨g', hg', hk₂⟩)
    · obtain rfl := hblock hx hx'
      exact .inr (.inl ⟨g, hg, hk₁⟩)
    · obtain rfl := hblock hx hx'
      obtain rfl := h.guard_unique hk₁ hk₂
      exact ih _ (h.blockIndex_lt (mem_inner_iff.2 ⟨k₁, hk₁, (mem_live.1 hx).1⟩)) g rfl hg hg'

/-- An operation does not stand below a block that it guards. -/
theorem Coherent.not_mem_below (h : b.Coherent) {o' : OpId} (ho : o ∈ b.live k) (ho' : o' ∈ b.live k)
    (hk' : k' ∈ b.guardedBlocks o') : o ∉ b.below k' := fun hmem => by
  have := h.le_blockIndex o hmem
  have := h.lt_of_live ho' hk'
  rw [h.blockIndex_of_live ho] at *
  omega

theorem Coherent.nodup_below (h : b.Coherent) (k : BlockId) : (b.below k).Nodup := by
  suffices ∀ n k, b.blocks.size ≤ k.index + n → (b.below k).Nodup from this b.blocks.size k (by omega)
  intro n
  induction n with
  | zero =>
    intro k hn
    rw [h.below_eq, live_eq_nil (by omega)]
    exact .nil
  | succ n ih =>
    intro k hn
    have hdisjoint : ∀ {o o' k₁ k₂ x}, o ∈ b.live k → o' ∈ b.live k → k₁ ∈ b.guardedBlocks o →
        k₂ ∈ b.guardedBlocks o' → x ∈ b.below k₁ → x ∈ b.below k₂ → k₁ = k₂ := by
      intro o o' k₁ k₂ x ho ho' hk₁ hk₂ hx hx'
      rcases h.below_cases hx hx' with heq | ⟨g, hg, hkg⟩ | ⟨g, hg, hkg⟩
      · exact heq
      · obtain rfl := h.guard_unique hk₂ hkg
        exact absurd hg (h.not_mem_below ho' ho hk₁)
      · obtain rfl := h.guard_unique hk₁ hkg
        exact absurd hg (h.not_mem_below ho ho' hk₂)
    rw [h.below_eq, List.nodup_flatMap]
    refine ⟨fun o ho => List.nodup_cons.2 ⟨fun hmem => ?_, List.nodup_flatMap.2 ⟨fun k' hk' => ?_, ?_⟩⟩, ?_⟩
    · obtain ⟨k', hk', hmem⟩ := List.mem_flatMap.1 hmem
      exact h.not_mem_below ho ho hk' hmem
    · have := h.lt_of_live ho hk'
      exact ih k' (by omega)
    · obtain ⟨op, hop, -⟩ := h.op?_of_mem_slotsOf (mem_live.1 ho).1
      have hnd := h.nodup_guards hop
      rw [← guardedBlocks_eq hop] at hnd
      exact hnd.imp_of_mem fun hk₁ hk₂ hne x hx hx' => hne (hdisjoint ho ho hk₁ hk₂ hx hx')
    · have hnd : (b.live k).Nodup := by
        unfold live
        split
        next blk hblk => exact (h.nodup_slots hblk).filter _
        next => exact .nil
      refine hnd.imp_of_mem fun {o o'} ho ho' hne x hx hx' => ?_
      rcases List.mem_cons.1 hx with rfl | hx <;> rcases List.mem_cons.1 hx' with rfl | hx'
      · exact hne rfl
      · obtain ⟨k₂, hk₂, hx'⟩ := List.mem_flatMap.1 hx'
        exact h.not_mem_below ho ho' hk₂ hx'
      · obtain ⟨k₁, hk₁, hx⟩ := List.mem_flatMap.1 hx
        exact h.not_mem_below ho' ho hk₁ hx
      · obtain ⟨k₁, hk₁, hx⟩ := List.mem_flatMap.1 hx
        obtain ⟨k₂, hk₂, hx'⟩ := List.mem_flatMap.1 hx'
        obtain rfl := hdisjoint ho ho' hk₁ hk₂ hx hx'
        exact hne (h.guard_unique hk₁ hk₂)

/-- A walk lists each operation once. -/
theorem Coherent.nodup_walk (h : b.Coherent) : b.walk.Nodup := h.nodup_below Body.entry

end Scalarize.Body
