import Scalarize.Proofs.Body.Growth

/-!
# The order in which operations are reached

* `Body.slotsOf`, `Body.inner` : the operations of a block, and those that an operation guards directly;
* `Body.Unfolds` : a list of operations with all that they guard, each in front of what it guards. The
  blocks of one guard come from the last to the first, so that the list read backwards is the order in
  which lowering reaches the operations;
* `Body.Local` : what lies outside some blocks, and outside those that some operations guard, is as
  before.
-/

namespace Scalarize.Body

variable {b b' b'' : Body} {o x : OpId} {k : BlockId} {os A B L L' LA LB X Y : List OpId}

/-- The operations of a block, erased ones included. -/
def slotsOf (b : Body) (k : BlockId) : List OpId := (b.block? k).elim [] (·.slots)

/-- The operations in the blocks that an operation guards, the last block first. -/
def inner (b : Body) (o : OpId) : List OpId :=
  (b.op? o).elim [] fun op => op.kind.blocks.reverse.flatMap b.slotsOf

theorem slotsOf_eq {blk : Block} (h : b.block? k = some blk) : b.slotsOf k = blk.slots := by
  simp [slotsOf, h]

theorem inner_eq {op : Operation} (h : b.op? o = some op) :
    b.inner o = op.kind.blocks.reverse.flatMap b.slotsOf := by
  simp [inner, h]

theorem inner_eq_nil {op : Operation} (h : b.op? o = some op) (hk : op.kind.blocks = []) :
    b.inner o = [] := by
  simp [inner, h, hk]

/-! ## Unfolding -/

/-- `L` lists `os` and all that they guard, each in front of what it guards. -/
inductive Unfolds (b : Body) : List OpId → List OpId → Prop
  | nil : Unfolds b [] []
  | cons {o : OpId} {os L Ls : List OpId} (below : Unfolds b (b.inner o) L) (rest : Unfolds b os Ls) :
      Unfolds b (o :: os) (o :: (L ++ Ls))

namespace Unfolds

theorem single (h : Unfolds b (b.inner o) L) : Unfolds b [o] (o :: L) := by
  simpa using h.cons .nil

theorem append (hA : Unfolds b A LA) (hB : Unfolds b B LB) : Unfolds b (A ++ B) (LA ++ LB) := by
  induction hA with
  | nil => exact hB
  | cons below _ _ ih =>
    rw [List.cons_append, List.cons_append, List.append_assoc]
    exact below.cons ih

theorem split (h : Unfolds b (A ++ B) L) :
    ∃ LA LB, L = LA ++ LB ∧ Unfolds b A LA ∧ Unfolds b B LB := by
  induction A generalizing L with
  | nil => exact ⟨[], L, rfl, .nil, h⟩
  | cons o A ih =>
    cases h with
    | cons below rest =>
      obtain ⟨LA, LB, rfl, hA, hB⟩ := ih rest
      exact ⟨_, LB, by simp, below.cons hA, hB⟩

theorem of_single (h : Unfolds b [o] L) : ∃ L', L = o :: L' ∧ Unfolds b (b.inner o) L' := by
  cases h with
  | cons below rest =>
    cases rest
    exact ⟨_, by simp, below⟩

theorem unique (h : Unfolds b os L) (h' : Unfolds b os L') : L = L' := by
  induction h generalizing L' with
  | nil => cases h'; rfl
  | cons _ _ ih₁ ih₂ =>
    cases h' with
    | cons below rest => rw [ih₁ below, ih₂ rest]

/-- What guards nothing unfolds to itself. -/
theorem eq_of_plain (h : Unfolds b os L) (hos : ∀ x ∈ os, ∀ op, b.op? x = some op → op.kind.blocks = []) : L = os := by
  induction h with
  | nil => rfl
  | @cons o os L Ls below _ _ ih =>
    have hnil : b.inner o = [] := by
      cases hop : b.op? o with
      | none => simp [inner, hop]
      | some op => exact inner_eq_nil hop (hos o (by simp) op hop)
    rw [hnil] at below
    cases below
    rw [List.nil_append, ih fun x hx => hos x (List.mem_cons_of_mem _ hx)]

theorem subset (h : Unfolds b os L) : os ⊆ L := by
  induction h with
  | nil => exact List.Subset.refl _
  | cons _ _ _ ih =>
    intro x hx
    rcases List.mem_cons.1 hx with rfl | hx
    · exact List.mem_cons_self
    · exact List.mem_cons_of_mem _ (List.mem_append_right _ (ih hx))

theorem mono (h : Unfolds b os L) (hb : ∀ x ∈ L, b'.inner x = b.inner x) : Unfolds b' os L := by
  induction h with
  | nil => exact .nil
  | cons _ _ ih₁ ih₂ =>
    refine .cons ?_ (ih₂ fun x hx => hb x (by simp [hx]))
    rw [hb _ List.mem_cons_self]
    exact ih₁ fun x hx => hb x (by simp [hx])

/-- What holds of the operations and passes from a guard to what it guards holds of all. -/
theorem forall_mem {Q : OpId → Prop} (h : Unfolds b os L) (h0 : ∀ x ∈ os, Q x)
    (hstep : ∀ x y, Q x → y ∈ b.inner x → Q y) : ∀ x ∈ L, Q x := by
  induction h with
  | nil => simp
  | @cons o os L Ls _ _ ih₁ ih₂ =>
    intro x hx
    have ho := h0 o List.mem_cons_self
    rcases List.mem_cons.1 hx with rfl | hx
    · exact ho
    · rcases List.mem_append.1 hx with hx | hx
      · exact ih₁ (fun y hy => hstep o y ho hy) x hx
      · exact ih₂ (fun y hy => h0 y (List.mem_cons_of_mem _ hy)) x hx

theorem inner_subset (h : Unfolds b os L) (hx : x ∈ L) : b.inner x ⊆ L := by
  induction h with
  | nil => cases hx
  | cons below _ ih₁ ih₂ =>
    intro y hy
    rcases List.mem_cons.1 hx with rfl | hx
    · exact List.mem_cons_of_mem _ (List.mem_append_left _ (below.subset hy))
    · rcases List.mem_append.1 hx with hx | hx
      · exact List.mem_cons_of_mem _ (List.mem_append_left _ (ih₁ hx hy))
      · exact List.mem_cons_of_mem _ (List.mem_append_right _ (ih₂ hx hy))

end Unfolds

/-! ## Where operations lie -/

theorem exists_block_of_mem_slotsOf (h : o ∈ b.slotsOf k) : ∃ blk, b.block? k = some blk := by
  unfold slotsOf at h
  cases hk : b.block? k with
  | none => simp [hk] at h
  | some blk => exact ⟨blk, rfl⟩

theorem Coherent.op?_of_mem_slotsOf (h : b.Coherent) (ho : o ∈ b.slotsOf k) :
    ∃ op, b.op? o = some op ∧ op.block = k := by
  obtain ⟨blk, hblk⟩ := exists_block_of_mem_slotsOf ho
  exact h.slots hblk (slotsOf_eq hblk ▸ ho)

theorem Coherent.slotsOf_unique (h : b.Coherent) {k' : BlockId} (hx : x ∈ b.slotsOf k)
    (hx' : x ∈ b.slotsOf k') : k = k' := by
  obtain ⟨op, hop, rfl⟩ := h.op?_of_mem_slotsOf hx
  obtain ⟨op', hop', rfl⟩ := h.op?_of_mem_slotsOf hx'
  rw [Option.some.inj (hop.symm.trans hop')]

/-- Only an operation that stands is sure to have its slot. -/
theorem Coherent.mem_slotsOf (h : b.Coherent) {op : Operation} (hop : b.op? o = some op)
    (he : op.erased = false) : o ∈ b.slotsOf op.block := by
  obtain ⟨blk, hblk, hmem⟩ := h.slot hop he
  rwa [slotsOf_eq hblk]

theorem mem_inner : x ∈ b.inner o ↔ ∃ op, b.op? o = some op ∧ ∃ k ∈ op.kind.blocks, x ∈ b.slotsOf k := by
  unfold inner
  cases hop : b.op? o <;> simp

theorem Coherent.op?_of_mem_inner (h : b.Coherent) (hx : x ∈ b.inner o) :
    ∃ op opx, b.op? o = some op ∧ b.op? x = some opx ∧ opx.block ∈ op.kind.blocks := by
  obtain ⟨op, hop, k, hk, hmem⟩ := mem_inner.1 hx
  obtain ⟨opx, hopx, rfl⟩ := h.op?_of_mem_slotsOf hmem
  exact ⟨op, opx, hop, hopx, hk⟩

/-- The blocks that an operation guards, if it is in the table. -/
def guardedBlocks (b : Body) (o : OpId) : List BlockId := (b.op? o).elim [] (·.kind.blocks)

theorem guardedBlocks_eq {op : Operation} (h : b.op? o = some op) :
    b.guardedBlocks o = op.kind.blocks := by
  simp [guardedBlocks, h]

theorem inner_eq_guardedBlocks (b : Body) (o : OpId) :
    b.inner o = (b.guardedBlocks o).reverse.flatMap b.slotsOf := by
  unfold inner guardedBlocks
  cases b.op? o <;> simp

/-- A block is guarded by one operation only. -/
theorem Coherent.guard_unique (h : b.Coherent) (ho : k ∈ b.guardedBlocks o)
    (hx : k ∈ b.guardedBlocks x) : o = x := by
  unfold guardedBlocks at ho hx
  cases hop : b.op? o with
  | none => simp [hop] at ho
  | some op =>
    cases hopx : b.op? x with
    | none => simp [hopx] at hx
    | some opx =>
      rw [hop] at ho
      rw [hopx] at hx
      obtain ⟨-, blk, hblk, hpar⟩ := h.guards hop ho
      obtain ⟨-, blk', hblk', hpar'⟩ := h.guards hopx hx
      rw [hblk] at hblk'
      obtain rfl := Option.some.inj hblk'
      rw [hpar] at hpar'
      exact Option.some.inj hpar'

/-- What operations guard, directly or below, lies in blocks behind their own. -/
theorem Unfolds.lt_of_mem (h : Unfolds b os L) (hb : b.Coherent) (hos : ∀ x ∈ os, x ∈ b.slotsOf k)
    (hx : x ∈ L) {k' : BlockId} (hk' : k' ∈ b.guardedBlocks x) : k.index < k'.index := by
  have hL : ∀ x ∈ L, ∀ op, b.op? x = some op → k.index ≤ op.block.index := by
    refine h.forall_mem (fun x hx op hop => ?_) fun x y hx hy op hop => ?_
    · obtain ⟨op', hop', hk⟩ := hb.op?_of_mem_slotsOf (hos x hx)
      rw [hop] at hop'
      exact Nat.le_of_eq (by rw [Option.some.inj hop', hk])
    · obtain ⟨opx, opy, hopx, hopy, hmem⟩ := hb.op?_of_mem_inner hy
      rw [hop] at hopy
      obtain rfl := Option.some.inj hopy
      have := hx opx hopx
      have := (hb.guards hopx hmem).1
      omega
  unfold guardedBlocks at hk'
  cases hop : b.op? x with
  | none => simp [hop] at hk'
  | some op =>
    rw [hop] at hk'
    have := hL x hx op hop
    have := (hb.guards hop hk').1
    omega

/-! ## What stays as it is -/

variable {K : List BlockId}

/-- Outside the blocks `K`, and outside the blocks of the operations `X`, all is as before;
declarations, operands and marks may change anywhere. No argument is new. -/
structure Local (b : Body) (K : List BlockId) (X : List OpId) (b' : Body) : Prop where
  block? : ∀ {k' blk}, b.block? k' = some blk → k' ∉ K → (∀ x ∈ X, k' ∉ b.guardedBlocks x) →
    b'.block? k' = some blk
  op? : ∀ {x op}, b.op? x = some op → ∃ op', b'.op? x = some op' ∧ op'.kind.bare = op.kind.bare ∧
    op'.block = op.block
  args : b'.args = b.args
  ty? : ∀ {v t}, b.ty? v = some t → b'.ty? v = some t
  argument : ∀ {v}, b'.origin? v = some .argument → b.origin? v = some .argument

namespace Local

theorem refl (b : Body) (K : List BlockId) (X : List OpId) : Local b K X b :=
  ⟨fun h _ _ => h, fun h => ⟨_, h, rfl, rfl⟩, rfl, id, id⟩

theorem guardedBlocks (h : Local b K X b') (ho : (b.op? o).isSome) :
    b'.guardedBlocks o = b.guardedBlocks o := by
  obtain ⟨op, hop⟩ := Option.isSome_iff_exists.1 ho
  obtain ⟨op', hop', hb, -⟩ := h.op? hop
  rw [guardedBlocks_eq hop, guardedBlocks_eq hop', OpKind.blocks_eq_of_bare_eq hb]

theorem mono (h : Local b K X b') {K' : List BlockId} (hK : K ⊆ K') (hXY : X ⊆ Y) :
    Local b K' Y b' :=
  { h with block? := fun hk hne hout =>
      h.block? hk (fun hmem => hne (hK hmem)) fun x hx => hout x (hXY hx) }

theorem isSome (h : Local b K X b') (ho : (b.op? o).isSome) : (b'.op? o).isSome := by
  obtain ⟨op, hop⟩ := Option.isSome_iff_exists.1 ho
  obtain ⟨op', hop', -⟩ := h.op? hop
  rw [hop']
  rfl

/-- Operations that are new in the meantime guard new blocks only. -/
theorem trans (h : Local b K X b') (h' : Local b' K Y b'') (hb : b.Coherent) (hb' : b'.Coherent)
    (hY : ∀ x ∈ Y, x ∈ X ∨ b.op? x = none) : Local b K X b'' where
  block? {k' blk} hk hne hout := by
    have hk' := h.block? hk hne hout
    refine h'.block? hk' hne fun x hx hmem => ?_
    -- the guard of an old block is an old operation
    have hold : (b.op? x).isSome := by
      unfold Body.guardedBlocks at hmem
      cases hop : b'.op? x with
      | none => simp [hop] at hmem
      | some op =>
        rw [hop] at hmem
        obtain ⟨-, blk', hblk', hpar⟩ := hb'.guards hop hmem
        rw [hk'] at hblk'
        obtain rfl := Option.some.inj hblk'
        obtain ⟨op', hop', -⟩ := hb.parent hk hpar
        rw [hop']
        rfl
    rcases hY x hx with hx | hx
    · rw [h.guardedBlocks hold] at hmem
      exact hout x hx hmem
    · rw [hx] at hold
      cases hold
  op? hx := by
    obtain ⟨op', hop', hb, hk⟩ := h.op? hx
    obtain ⟨op'', hop'', hb', hk'⟩ := h'.op? hop'
    exact ⟨op'', hop'', hb'.trans hb, hk'.trans hk⟩
  args := h'.args.trans h.args
  ty? ht := h'.ty? (h.ty? ht)
  argument hv := h.argument (h'.argument hv)

theorem inner (h : Local b K X b') (hb : b.Coherent) (ho : (b.op? o).isSome)
    (hk : ∀ k ∈ K, k ∉ b.guardedBlocks o) (hX : o ∉ X) : b'.inner o = b.inner o := by
  rw [inner_eq_guardedBlocks, inner_eq_guardedBlocks, h.guardedBlocks ho]
  refine List.flatMap_congr fun k' hk' => ?_
  rw [List.mem_reverse] at hk'
  obtain ⟨op, hop⟩ := Option.isSome_iff_exists.1 ho
  obtain ⟨-, blk, hblk, -⟩ := hb.guards hop (guardedBlocks_eq hop ▸ hk')
  rw [slotsOf_eq hblk, slotsOf_eq (h.block? hblk ?_ ?_)]
  · exact fun hmem => hk k' hmem hk'
  · intro x hx hmem
    rw [hb.guard_unique hk' hmem] at hX
    exact hX hx

theorem slotsOf (h : Local b K X b') {k' : BlockId} {blk : Block} (hk : b.block? k' = some blk)
    (hne : k' ∉ K) (hX : ∀ x ∈ X, k' ∉ b.guardedBlocks x) : b'.slotsOf k' = b.slotsOf k' := by
  rw [slotsOf_eq hk, slotsOf_eq (h.block? hk hne hX)]

theorem unfolds (h : Local b K X b') (hb : b.Coherent) (hL : Unfolds b os L)
    (hsome : ∀ x ∈ L, (b.op? x).isSome) (hk : ∀ x ∈ L, ∀ k ∈ K, k ∉ b.guardedBlocks x)
    (hX : ∀ x ∈ L, x ∉ X) : Unfolds b' os L :=
  hL.mono fun x hx => h.inner hb (hsome x hx) (hk x hx) (hX x hx)

end Local

theorem Outlives.local (h : Outlives b b') (K : List BlockId) (X : List OpId) : Local b K X b' where
  block? hk _ _ := by rw [h.block?, hk]
  op? hx := by
    obtain ⟨op', hop', hk, -, hblk, -⟩ := h.op?_some hx
    exact ⟨op', hop', by rw [hk], hblk⟩
  args := h.args
  ty? ht := (h.ty? _).trans ht
  argument hv := (h.origin? _).symm.trans hv

theorem Local.outlives {X : List OpId} (h : Local b K X b') (h' : Outlives b' b'') :
    Local b K X b'' where
  block? hk hne hout := by rw [h'.block?, h.block? hk hne hout]
  op? hx := by
    obtain ⟨op', hop', hb, hblk⟩ := h.op? hx
    obtain ⟨op'', hop'', hk, -, hblk', -⟩ := h'.op?_some hop'
    exact ⟨op'', hop'', by rw [hk, hb], hblk'.trans hblk⟩
  args := h'.args.trans h.args
  ty? ht := (h'.ty? _).trans (h.ty? ht)
  argument hv := h.argument ((h'.origin? _).symm.trans hv)

theorem Outlives.slotsOf (h : Outlives b b') (k : BlockId) : b'.slotsOf k = b.slotsOf k := by
  rw [Body.slotsOf, Body.slotsOf, h.block?]

theorem Outlives.inner (h : Outlives b b') (o : OpId) : b'.inner o = b.inner o := by
  unfold Body.inner
  have := h.kind? o
  rw [kind?_eq, kind?_eq] at this
  have hs : b'.slotsOf = b.slotsOf := funext h.slotsOf
  rw [hs]
  cases hop : b.op? o <;> cases hop' : b'.op? o <;> simp_all

theorem Outlives.unfolds (h : Outlives b b') (hL : Unfolds b os L) : Unfolds b' os L :=
  hL.mono fun x _ => h.inner x

theorem Local.modifyDecl (b : Body) (o : OpId) (f : Decl → Decl) (K : List BlockId)
    (X : List OpId) : Local b K X (b.modifyDecl o f) where
  block? hk _ _ := hk
  op? hx := by
    obtain ⟨kind, hx', hb⟩ := op?_modifyDecl_some hx
    exact ⟨_, hx', hb, rfl⟩
  args := rfl
  ty? ht := ht
  argument hv := hv

@[simp] theorem inner_modifyDecl (b : Body) (o : OpId) (f : Decl → Decl) (x : OpId) :
    (b.modifyDecl o f).inner x = b.inner x := by
  have hs : (b.modifyDecl o f).slotsOf = b.slotsOf := rfl
  unfold inner
  rw [op?_modifyDecl, hs]
  cases b.op? x with
  | none => rfl
  | some op =>
    simp only [Option.map_some, Option.elim_some]
    split
    · rw [OpKind.blocks_eq_of_bare_eq (OpKind.bare_mapDecl f op.kind)]
    · rfl

theorem Created.local {p : Point} {kind : OpKind} {vs : List ValueId} {tys : List Ty}
    (h : Created b p kind vs tys o b') : Local b [p.block] [] b' where
  block? {k' blk} hk hne _ := by
    rw [h.block? k' (lt_of_block? hk), hk, Option.map_some, if_neg (by simpa using hne)]
  op? hx := ⟨_, h.op?_old hx, rfl, rfl⟩
  args := h.args
  ty? ht := (h.ty?_old (lt_of_ty? ht)).trans ht
  argument {v} hv := by
    obtain ⟨y, hy, hr⟩ := origin?_eq_some_iff.1 hv
    rcases h.value_cases hy with ⟨y₀, hy₀, rfl⟩ | ⟨j, ty, -, -, rfl⟩
    · exact origin?_eq_some_iff.2 ⟨y₀, hy₀, hr⟩
    · cases hr

theorem insertIdx_append {α : Type} (A B : List α) (a : α) :
    (A ++ B).insertIdx A.length a = A ++ a :: B := by
  induction A with
  | nil => rfl
  | cons a A ih => simpa using ih

/-- A new operation takes its slot. -/
theorem Created.slotsOf {kind : OpKind} {vs : List ValueId} {tys : List Ty}
    (h : Created b ⟨k, A.length⟩ kind vs tys o b') (hs : b.slotsOf k = A ++ B) :
    b'.slotsOf k = A ++ o :: B := by
  obtain ⟨blk, hblk, -⟩ := h.place
  obtain ⟨blk', hblk', -, hslots⟩ := h.block?_old hblk
  rw [slotsOf_eq hblk] at hs
  rw [slotsOf_eq hblk', hslots, if_pos rfl, hs, insertIdx_append]

/-- A new operation guards empty blocks. -/
theorem Created.inner {p : Point} {kind : OpKind} {vs : List ValueId} {tys : List Ty}
    (h : Created b p kind vs tys o b') : b'.inner o = [] := by
  rw [inner_eq h.op?_self, List.flatMap_eq_nil_iff]
  intro k' hk'
  exact slotsOf_eq (h.block?_new (List.mem_reverse.1 hk'))

/-- What an old operation guards is what it guarded before, and the new operation if its block is
among those that it guards. -/
theorem Created.mem_inner {p : Point} {kind : OpKind} {vs : List ValueId} {tys : List Ty}
    (h : Created b p kind vs tys o b') (hx : x ≠ o) {y : OpId} (hy : y ∈ b'.inner x) :
    y ∈ b.inner x ∨ y = o ∧ p.block ∈ b.guardedBlocks x := by
  obtain ⟨op, hop, k', hk', hmem⟩ := Body.mem_inner.1 hy
  rcases h.op?_cases hop with hop | ⟨rfl, -⟩
  · obtain ⟨blk', hblk'⟩ := exists_block_of_mem_slotsOf hmem
    rw [slotsOf_eq hblk'] at hmem
    rcases h.block_cases hblk' with ⟨blk, hblk, -, hs⟩ | ⟨-, -, rfl⟩
    · have hold : y ∈ blk.slots → y ∈ b.inner x := fun hmem =>
        Body.mem_inner.2 ⟨op, hop, k', hk', by rwa [slotsOf_eq hblk]⟩
      rw [hs] at hmem
      split at hmem
      next he =>
        subst he
        obtain ⟨blk₁, hblk₁, hle⟩ := h.place
        obtain rfl := Option.some.inj (hblk.symm.trans hblk₁)
        exact ((Created.mem_slots hle).1 hmem).symm.imp hold fun he =>
          ⟨he, by rwa [guardedBlocks_eq hop]⟩
      next => exact .inl (hold hmem)
    · cases hmem
  · exact absurd rfl hx

end Scalarize.Body
