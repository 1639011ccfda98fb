import Scalarize.Proofs.Body.Scope

/-!
# Where operations lie, and the order of a walk

* `Body.LiesIn`, `Body.Encloses`, `Body.Around` : an operation in its block, and below a guard, erased or not;
* `Coherent.walked_iff` : what is walked stands, and so does all that encloses it;
* `Coherent.mem_below_iff_around`, `Walked.sublist_walk` : what is walked below a block, and that it is one piece of the
  walk;
* `Body.ComesBefore`, `Coherent.sublist_walk_iff` : of two operations that are walked, which one comes first;
* `Coherent.wellFounded_blocks` : blocks are nested to a finite depth.
-/

namespace Scalarize.Body

variable {b : Body} {g x y : OpId} {k k' : BlockId}

/-- The operation was made in the block. -/
def LiesIn (b : Body) (x : OpId) (k : BlockId) : Prop := ∃ op, b.op? x = some op ∧ op.block = k

/-- The operation lies in a block that `g` guards, or in one that an operation enclosed by `g` guards. -/
inductive Encloses (b : Body) (g : OpId) : OpId → Prop
  | inside {k : BlockId} {x : OpId} (hk : k ∈ b.guardedBlocks g) (hx : b.LiesIn x k) : Encloses b g x
  | deeper {y : OpId} {k : BlockId} {x : OpId} (hy : Encloses b g y) (hk : k ∈ b.guardedBlocks y)
      (hx : b.LiesIn x k) : Encloses b g x

/-- `y` is `x`, or encloses it. -/
def Around (b : Body) (y x : OpId) : Prop := x = y ∨ b.Encloses y x

/-! ## Places -/

theorem LiesIn.unique (h : b.LiesIn x k) (h' : b.LiesIn x k') : k = k' := by
  obtain ⟨op, hop, rfl⟩ := h
  obtain ⟨op', hop', rfl⟩ := h'
  rw [Option.some.inj (hop.symm.trans hop')]

theorem Coherent.liesIn (h : b.Coherent) (hx : x ∈ b.slotsOf k) : b.LiesIn x k := h.op?_of_mem_slotsOf hx

/-- An operation that stands has a slot in its block. -/
theorem Coherent.mem_live_of_liesIn (h : b.Coherent) (hx : b.LiesIn x k) (hs : b.stands x) : x ∈ b.live k := by
  obtain ⟨op, hop, rfl⟩ := hx
  exact mem_live.2 ⟨h.mem_slotsOf hop (erased_of_stands hop hs), hs⟩

/-- Guarded blocks are made after the block of their guard. -/
theorem Coherent.lt_of_liesIn (h : b.Coherent) (hg : b.LiesIn g k) (hk' : k' ∈ b.guardedBlocks g) :
    k.index < k'.index ∧ k'.index < b.blocks.size := by
  obtain ⟨op, hop, rfl⟩ := hg
  rw [guardedBlocks_eq hop] at hk'
  obtain ⟨hlt, blk, hblk, -⟩ := h.guards hop hk'
  exact ⟨hlt, lt_of_block? hblk⟩

/-- Blocks are nested to a finite depth. -/
theorem Coherent.wellFounded_blocks (h : b.Coherent) :
    WellFounded fun k' k => ∃ g, b.LiesIn g k ∧ k' ∈ b.guardedBlocks g := by
  refine Subrelation.wf (fun {k' k} ⟨g, hg, hk'⟩ => ?_) (measure fun k : BlockId => b.blocks.size - k.index).wf
  obtain ⟨hlt, hsize⟩ := h.lt_of_liesIn hg hk'
  show b.blocks.size - k'.index < b.blocks.size - k.index
  omega

/-- Every block but the entry has a guard. -/
theorem Coherent.exists_guard (h : b.Coherent) (hx : x ∈ b.slotsOf k) (hk : k ≠ Body.entry) :
    ∃ g, k ∈ b.guardedBlocks g := by
  obtain ⟨blk, hblk⟩ := exists_block_of_mem_slotsOf hx
  obtain ⟨g, hg⟩ := Option.isSome_iff_exists.1 (h.guarded hblk hk)
  obtain ⟨op, hop, hmem⟩ := h.parent hblk hg
  exact ⟨g, guardedBlocks_eq hop ▸ hmem⟩

/-! ## Enclosing operations -/

/-- The guard of the block of an operation that is walked is walked. -/
theorem Walked.guard (hx : b.Walked x) (h : b.Coherent) (hk : k ∈ b.guardedBlocks g) (hin : b.LiesIn x k) :
    b.Walked g := (hx.exposed h (mem_live.1 (h.mem_live_of_liesIn hin hx.stands)).1).guard h hk

theorem Encloses.walked (hgx : b.Encloses g x) (h : b.Coherent) (hx : b.Walked x) : b.Walked g := by
  induction hgx with
  | inside hk hin => exact hx.guard h hk hin
  | deeper _ hk hin ih => exact ih (hx.guard h hk hin)

theorem Around.walked (hyx : b.Around y x) (h : b.Coherent) (hx : b.Walked x) : b.Walked y := by
  rcases hyx with rfl | henc
  · exact hx
  · exact henc.walked h hx

/-- What is walked stands, and so does all that encloses it. -/
theorem Coherent.walked_iff (h : b.Coherent) :
    b.Walked x ↔ b.stands x ∧ ∀ g, b.Encloses g x → b.stands g := by
  refine ⟨fun hx => ⟨hx.stands, fun g hg => (hg.walked h hx).stands⟩, ?_⟩
  -- from the inside to the outside: a guard lies in a block made before
  suffices ∀ n x, b.blockIndex x = n → b.stands x ∧ (∀ g, b.Encloses g x → b.stands g) → b.Walked x from this _ x rfl
  intro n
  induction n using Nat.strongRecOn with
  | ind n ih =>
    rintro x rfl ⟨hs, henc⟩
    obtain ⟨op, hop⟩ : ∃ op, b.op? x = some op := by
      rw [stands_eq] at hs
      cases hop : b.op? x with
      | none => simp [hop] at hs
      | some op => exact ⟨op, rfl⟩
    have hmem : x ∈ b.slotsOf op.block := h.mem_slotsOf hop (erased_of_stands hop hs)
    by_cases hentry : op.block = Body.entry
    · exact .entry (hentry ▸ hmem) hs
    · obtain ⟨g, hk⟩ := h.exists_guard hmem hentry
      have hinner : x ∈ b.inner g := mem_inner_iff.2 ⟨_, hk, hmem⟩
      have hg : b.Walked g := by
        refine ih _ (h.blockIndex_lt hinner) g rfl ⟨henc g (.inside hk ⟨op, hop, rfl⟩), fun g' hg' => ?_⟩
        exact henc g' (.deeper hg' hk ⟨op, hop, rfl⟩)
      exact .inner hg hinner hs

/-! ## Below operations and blocks -/

theorem Coherent.encloses_of_mem (h : b.Coherent) (hx : x ∈ (b.guardedBlocks g).flatMap b.below) : b.Encloses g x := by
  obtain ⟨k, hk, hx⟩ := List.mem_flatMap.1 hx
  refine h.below_induction (Q := b.Encloses g) (fun x hx => ?_) (fun y _ hy k' hk' x hx => ?_) x hx
  · exact .inside hk (h.liesIn (mem_live.1 hx).1)
  · exact .deeper hy hk' (h.liesIn (mem_live.1 hx).1)

/-- What a guard encloses is walked below it. -/
theorem Coherent.mem_of_encloses (h : b.Coherent) (hgx : b.Encloses g x) (hx : b.Walked x) :
    x ∈ (b.guardedBlocks g).flatMap b.below := by
  rw [List.mem_flatMap]
  induction hgx with
  | inside hk hin => exact ⟨_, hk, h.mem_below_of_live (h.mem_live_of_liesIn hin hx.stands)⟩
  | deeper _ hk hin ih =>
    obtain ⟨k', hk', hmem⟩ := ih (hx.guard h hk hin)
    exact ⟨k', hk', h.below_subset hmem hk _ (h.mem_below_of_live (h.mem_live_of_liesIn hin hx.stands))⟩

/-- The piece of a walk that begins with an operation. -/
theorem Coherent.mem_piece_iff (h : b.Coherent) (hx : b.Walked x) :
    x ∈ y :: (b.guardedBlocks y).flatMap b.below ↔ b.Around y x := by
  rw [List.mem_cons]
  exact or_congr_right ⟨h.encloses_of_mem, fun henc => h.mem_of_encloses henc hx⟩

/-- Of what is walked, that is below a block which lies in it, or is enclosed by what lies in it. -/
theorem Coherent.mem_below_iff_around (h : b.Coherent) (hx : b.Walked x) :
    x ∈ b.below k ↔ ∃ y, b.LiesIn y k ∧ b.Around y x := by
  rw [h.below_eq, List.mem_flatMap]
  constructor
  · rintro ⟨y, hy, hmem⟩
    exact ⟨y, h.liesIn (mem_live.1 hy).1, (h.mem_piece_iff hx).1 hmem⟩
  · rintro ⟨y, hy, hyx⟩
    exact ⟨y, h.mem_live_of_liesIn hy (hyx.walked h hx).stands, (h.mem_piece_iff hx).2 hyx⟩

theorem sublist_flatMap_of_mem {α β : Type} {a : α} {l : List α} (h : a ∈ l) (f : α → List β) :
    (f a).Sublist (l.flatMap f) := List.sublist_flatten_of_mem (List.mem_map_of_mem h)

/-- What is below an operation stands behind it, in one piece. -/
theorem Coherent.sublist_below (h : b.Coherent) :
    ∀ g ∈ b.below k, (g :: (b.guardedBlocks g).flatMap b.below).Sublist (b.below k) := by
  have hpiece : ∀ {k g}, g ∈ b.live k → (g :: (b.guardedBlocks g).flatMap b.below).Sublist (b.below k) := by
    intro k g hg
    rw [h.below_eq k]
    exact sublist_flatMap_of_mem hg fun o => o :: (b.guardedBlocks o).flatMap b.below
  refine h.below_induction (fun g hg => hpiece hg) fun g _ hg k' hk' x hx => ?_
  exact (hpiece hx).trans ((sublist_flatMap_of_mem hk' b.below).trans ((List.sublist_cons_self _ _).trans hg))

theorem Walked.sublist_walk (hg : b.Walked g) (h : b.Coherent) :
    (g :: (b.guardedBlocks g).flatMap b.below).Sublist b.walk := h.sublist_below g (h.mem_walk_iff.2 hg)

theorem Exposed.sublist_walk (hk : b.Exposed k) (h : b.Coherent) : (b.below k).Sublist b.walk := by
  rcases hk with rfl | ⟨g, hg, hk⟩
  · exact List.Sublist.refl _
  · exact (sublist_flatMap_of_mem hk b.below).trans ((List.sublist_cons_self _ _).trans (hg.sublist_walk h))

/-! ## The order of a walk -/

/-- `x` comes in front of `y`: it encloses `y`, or lies below the first block of a guard and `y` below the second, or
one slot of a block is around `x`, and a later one around `y`. -/
inductive ComesBefore (b : Body) (x y : OpId) : Prop
  | encloses (h : b.Encloses x y)
  | blocks {g x' y' : OpId} {t e : BlockId} (hg : b.kind? g = some (.when t (some e))) (ht : b.LiesIn x' t)
      (hx : b.Around x' x) (he : b.LiesIn y' e) (hy : b.Around y' y)
  | slots {k : BlockId} {x' y' : OpId} (h : [x', y'].Sublist (b.slotsOf k)) (hx : b.Around x' x) (hy : b.Around y' y)

theorem guardedBlocks_of_kind {t e : BlockId} (h : b.kind? g = some (.when t (some e))) :
    b.guardedBlocks g = [t, e] := by
  rw [kind?_eq] at h
  obtain ⟨op, hop, hk⟩ := Option.map_eq_some_iff.1 h
  rw [guardedBlocks_eq hop, hk]
  rfl

/-- Only the two blocks of a guard are guarded one in front of the other. -/
theorem kind_of_pair_sublist {t e : BlockId} (h : [t, e].Sublist (b.guardedBlocks g)) :
    b.kind? g = some (.when t (some e)) := by
  cases hop : b.op? g with
  | none =>
    rw [guardedBlocks, hop] at h
    cases h
  | some op =>
    rw [guardedBlocks_eq hop] at h
    rw [kind?_eq, hop, Option.map_some]
    cases hk : op.kind with
    | when t' e' =>
      rw [hk] at h
      cases e' with
      | none => simpa [OpKind.blocks] using h.length_le
      | some e' =>
        obtain ⟨rfl, rfl⟩ : t = t' ∧ e = e' := by simpa [OpKind.blocks] using h.eq_of_length rfl
        rfl
    | _ =>
      rw [hk] at h
      simpa [OpKind.blocks] using h.length_le

/-- Operations that are walked are listed in this order below a block. -/
theorem Coherent.comesBefore_of_sublist (h : b.Coherent) (hx : b.Walked x) (hy : b.Walked y) (k : BlockId)
    (hxy : [x, y].Sublist (b.below k)) : b.ComesBefore x y := by
  induction k using h.wellFounded_blocks.induction with
  | h k ih =>
    rw [h.below_eq, pair_sublist_flatMap] at hxy
    rcases hxy with ⟨o, ho, hxy⟩ | ⟨o, o', hoo', hox, hoy⟩
    · rcases pair_sublist_cons.1 hxy with ⟨rfl, hmem⟩ | hxy
      · exact .encloses (h.encloses_of_mem hmem)
      · rcases pair_sublist_flatMap.1 hxy with ⟨k', hk', hxy⟩ | ⟨t, e, hte, hxt, hye⟩
        · exact ih k' ⟨o, h.liesIn (mem_live.1 ho).1, hk'⟩ hxy
        · obtain ⟨x', hx', hxx'⟩ := (h.mem_below_iff_around hx).1 hxt
          obtain ⟨y', hy', hyy'⟩ := (h.mem_below_iff_around hy).1 hye
          exact .blocks (kind_of_pair_sublist hte) hx' hxx' hy' hyy'
    · rw [live_eq] at hoo'
      exact .slots (hoo'.trans List.filter_sublist) ((h.mem_piece_iff hx).1 hox) ((h.mem_piece_iff hy).1 hoy)

/-- A walk lists what comes before in front. -/
theorem Coherent.sublist_of_comesBefore (h : b.Coherent) (hx : b.Walked x) (hy : b.Walked y)
    (hxy : b.ComesBefore x y) : [x, y].Sublist b.walk := by
  cases hxy with
  | encloses henc =>
    exact ((List.singleton_sublist.2 (h.mem_of_encloses henc hy)).cons_cons x).trans (hx.sublist_walk h)
  | blocks hg ht hxx' he hyy' =>
    have hblocks := guardedBlocks_of_kind hg
    have hwg := (hxx'.walked h hx).guard h (hblocks ▸ List.mem_cons_self) ht
    have hpiece := (List.sublist_cons_self _ _).trans (hwg.sublist_walk h)
    rw [hblocks] at hpiece
    refine List.Sublist.trans (pair_sublist_flatMap.2 (.inr ⟨_, _, List.Sublist.refl _, ?_, ?_⟩)) hpiece
    · exact (h.mem_below_iff_around hx).2 ⟨_, ht, hxx'⟩
    · exact (h.mem_below_iff_around hy).2 ⟨_, he, hyy'⟩
  | @slots k x' y' hslots hxx' hyy' =>
    have hwx' := hxx'.walked h hx
    have hlive : [x', y'].Sublist (b.live k) := by
      have hfilter := hslots.filter b.stands
      rwa [← live_eq, List.filter_eq_self.2 (List.forall_mem_cons.2 ⟨hwx'.stands,
        List.forall_mem_singleton.2 (hyy'.walked h hy).stands⟩)] at hfilter
    have hbelow : [x, y].Sublist (b.below k) := by
      rw [h.below_eq]
      exact pair_sublist_flatMap.2 (.inr ⟨x', y', hlive, (h.mem_piece_iff hx).2 hxx', (h.mem_piece_iff hy).2 hyy'⟩)
    have hexposed : b.Exposed k := hwx'.exposed h (mem_of_precedes_here hslots).1
    exact hbelow.trans (hexposed.sublist_walk h)

theorem Coherent.sublist_walk_iff (h : b.Coherent) :
    [x, y].Sublist b.walk ↔ x ∈ b.walk ∧ y ∈ b.walk ∧ b.ComesBefore x y := by
  constructor
  · intro hxy
    have hx : x ∈ b.walk := hxy.subset List.mem_cons_self
    have hy : y ∈ b.walk := hxy.subset (by simp)
    exact ⟨hx, hy, h.comesBefore_of_sublist (h.mem_walk_iff.1 hx) (h.mem_walk_iff.1 hy) Body.entry hxy⟩
  · rintro ⟨hx, hy, hxy⟩
    exact h.sublist_of_comesBefore (h.mem_walk_iff.1 hx) (h.mem_walk_iff.1 hy) hxy

end Scalarize.Body
