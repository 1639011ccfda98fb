import Scalarize.Proofs.Lowering
import Scalarize.Proofs.Walk

/-!
# New operations in front of an old one

* `Body.Persists` : operations keep their kinds and results, values their types and origins;
* `InFront`, `InGuard` : where the new operations stand, in the block of the old one or in a block that
  the last of them guards;
* `Start` : what is known when an operation is taken up; `Start.Making` : a body with the operations
  that were made since;
* `Start.grows`, `Start.growsIn` : building steps keep this.
-/

namespace Scalarize

namespace Body

variable {b b' b'' : Body} {o x : OpId} {v old new : ValueId}

/-- Operations keep their kinds and results, up to declarations, and values their types and origins. -/
structure Persists (b b' : Body) : Prop where
  op? : ∀ {x op}, b.op? x = some op → ∃ op', b'.op? x = some op' ∧ op'.kind.bare = op.kind.bare ∧
    op'.results = op.results ∧ op'.erased = op.erased
  ty? : ∀ {v : ValueId}, v.index < b.values.size → b'.ty? v = b.ty? v
  origin? : ∀ {v : ValueId}, v.index < b.values.size → b'.origin? v = b.origin? v
  size : b.values.size ≤ b'.values.size

namespace Persists

theorem refl (b : Body) : Persists b b :=
  ⟨fun h => ⟨_, h, rfl, rfl, rfl⟩, fun _ => rfl, fun _ => rfl, Nat.le_refl _⟩

theorem trans (h : Persists b b') (h' : Persists b' b'') : Persists b b'' where
  op? hx := by
    obtain ⟨op', hop', h₁, h₂, h₃⟩ := h.op? hx
    obtain ⟨op'', hop'', h₁', h₂', h₃'⟩ := h'.op? hop'
    exact ⟨op'', hop'', h₁'.trans h₁, h₂'.trans h₂, h₃'.trans h₃⟩
  ty? hv := (h'.ty? (Nat.lt_of_lt_of_le hv h.size)).trans (h.ty? hv)
  origin? hv := (h'.origin? (Nat.lt_of_lt_of_le hv h.size)).trans (h.origin? hv)
  size := Nat.le_trans h.size h'.size

theorem ty?_some (h : Persists b b') {t : Ty} (hv : b.ty? v = some t) : b'.ty? v = some t := by
  rw [h.ty? (isSome_ty?.1 (by rw [hv]; rfl)), hv]

theorem origin?_some (h : Persists b b') {r : Origin} (hv : b.origin? v = some r) :
    b'.origin? v = some r := by
  obtain ⟨y, hy, -⟩ := origin?_eq_some_iff.1 hv
  rw [h.origin? (lt_of_value? hy), hv]

theorem types (h : Persists b b') {vs : List ValueId} {ts : List Ty} (hv : b.Types vs ts) :
    b'.Types vs ts :=
  hv.imp fun _ _ => h.ty?_some

theorem madeBy (h : Persists b b') {Q : List OpId} (hv : b.MadeBy Q v) : b'.MadeBy Q v := by
  rcases hv with hv | ⟨d, hd, i, hv⟩
  · exact .inl (h.origin?_some hv)
  · exact .inr ⟨d, hd, i, h.origin?_some hv⟩

end Persists

theorem Extends.persists (h : Extends b b') : Persists b b' :=
  ⟨fun hx => by
    obtain ⟨op', hop', h₁, -, h₂, -, h₃⟩ := h.op? hx
    exact ⟨op', hop', h₁, h₂, h₃⟩, h.ty?, h.origin?, h.size⟩

theorem Replaced.persists (h : Replaced b old new b') : Persists b b' where
  op? {x op} hx := ⟨_, (h.op? x).trans (congrArg _ hx), rfl, rfl, rfl⟩
  ty? _ := h.outlives.ty? _
  origin? _ := h.outlives.origin? _
  size := by
    by_contra hlt
    rw [Nat.not_le] at hlt
    have := Bool.eq_iff_iff.1 (h.outlives.isSome_value? ⟨b'.values.size⟩)
    rw [isSome_value?, isSome_value?] at this
    exact Nat.lt_irrefl _ (this.2 hlt)

end Body

open Body

/-! ## Places -/

/-- `H`, which unfolds to `N`, was made in block `k` of `b₀`, between `A` and `B`. -/
structure InFront (b₀ : Body) (k : BlockId) (A B H N : List OpId) (s : Builder) : Prop where
  coherent₀ : b₀.Coherent
  slots : s.body.slotsOf k = A ++ H ++ B
  exists_block : (s.body.block? k).isSome
  point : s.point = ⟨k, (A ++ H).length⟩
  unfolds : Unfolds s.body H N
  untouched : Local b₀ [k] [] s.body
  fresh : ∀ x ∈ N, b₀.op? x = none
  known : ∀ x ∈ N, (s.body.op? x).isSome

namespace InFront

variable {b₀ : Body} {k : BlockId} {A B H N : List OpId} {s : Builder} {o : OpId} {b' : Body}

theorem place (h : InFront b₀ k A B H N s) :
    ∃ blk, s.body.block? s.point.block = some blk ∧ s.point.index ≤ blk.slots.length := by
  obtain ⟨blk, hblk⟩ := Option.isSome_iff_exists.1 h.exists_block
  have := h.slots
  rw [slotsOf_eq hblk] at this
  refine ⟨blk, by rw [h.point]; exact hblk, ?_⟩
  rw [h.point, this]
  simp

theorem not_guarded (h : InFront b₀ k A B H N s) (hb : s.body.Coherent) :
    ∀ x ∈ N, k ∉ s.body.guardedBlocks x := fun x hx hmem =>
  Nat.lt_irrefl _ (h.unfolds.lt_of_mem hb (fun x hx => by
    rw [h.slots]
    exact List.mem_append_left _ (List.mem_append_right _ hx)) hx hmem)

theorem created (h : InFront b₀ k A B H N s) (hb : s.body.Coherent) {kind : OpKind}
    {vs : List ValueId} {tys : List Ty} (hc : Created s.body s.point kind vs tys o b') :
    InFront b₀ k A B (H ++ [o]) (N ++ [o]) ⟨b', ⟨k, (A ++ (H ++ [o])).length⟩⟩ := by
  have hp := h.point
  have hc' : Created s.body ⟨k, (A ++ H).length⟩ kind vs tys o b' := hp ▸ hc
  have hloc : Local s.body [k] [] b' := hc'.local
  refine
    { coherent₀ := h.coherent₀
      slots := by simpa using hc'.slotsOf h.slots
      exists_block := ?_, point := rfl, unfolds := ?_, untouched := ?_, fresh := ?_, known := ?_ }
  · obtain ⟨blk, hblk⟩ := Option.isSome_iff_exists.1 h.exists_block
    obtain ⟨blk', hblk', -⟩ := hc'.block?_old hblk
    change (b'.block? k).isSome
    rw [hblk']
    rfl
  · refine (hloc.unfolds hb h.unfolds h.known (fun x hx k' hk' => ?_) (by simp)).append (.single ?_)
    · rw [List.mem_singleton.1 hk']
      exact h.not_guarded hb x hx
    · rw [hc'.inner]
      exact .nil
  · exact h.untouched.trans hloc h.coherent₀ hb (by simp)
  · intro x hx
    rcases List.mem_append.1 hx with hx | hx
    · exact h.fresh x hx
    · rw [List.mem_singleton.1 hx]
      cases hop : b₀.op? o with
      | none => rfl
      | some op =>
        obtain ⟨op', hop', -⟩ := h.untouched.op? hop
        rw [hc.fresh] at hop'
        cases hop'
  · intro x hx
    rcases List.mem_append.1 hx with hx | hx
    · exact hloc.isSome (h.known x hx)
    · rw [List.mem_singleton.1 hx]
      change (b'.op? o).isSome
      rw [hc'.op?_self]
      rfl

theorem declared (h : InFront b₀ k A B H N s) (f : Decl → Decl) :
    InFront b₀ k A B H N ⟨s.body.modifyDecl o f, s.point⟩ where
  coherent₀ := h.coherent₀
  slots := h.slots
  exists_block := h.exists_block
  point := h.point
  unfolds := h.unfolds.mono fun x _ => inner_modifyDecl _ _ _ _
  untouched :=
    { h.untouched with
      op? := fun hx => by
        obtain ⟨op, hop, hb, hk⟩ := h.untouched.op? hx
        obtain ⟨kind, hop', hb'⟩ := op?_modifyDecl_some (o := o) (f := f) hop
        exact ⟨_, hop', hb'.trans hb, hk⟩ }
  fresh := h.fresh
  known x hx := by
    rw [op?_modifyDecl, Option.isSome_map]
    exact h.known x hx

/-- Operands and marks do not matter. -/
theorem outlives (h : InFront b₀ k A B H N s) (hout : Outlives s.body b') :
    InFront b₀ k A B H N ⟨b', s.point⟩ where
  coherent₀ := h.coherent₀
  slots := by rw [← h.slots]; exact hout.slotsOf k
  exists_block := by
    change (b'.block? k).isSome
    rw [hout.block?]
    exact h.exists_block
  point := h.point
  unfolds := hout.unfolds h.unfolds
  untouched := h.untouched.outlives hout
  fresh := h.fresh
  known x hx := (hout.local [] []).isSome (h.known x hx)

theorem start (hb : s.body.Coherent) (hs : s.body.slotsOf k = A ++ B)
    (hk : (s.body.block? k).isSome) (hp : s.point = ⟨k, A.length⟩) :
    InFront s.body k A B [] [] s where
  coherent₀ := hb
  slots := by simpa using hs
  exists_block := hk
  point := by simpa using hp
  unfolds := .nil
  untouched := .refl _ _ _
  fresh := by simp
  known := by simp

end InFront

/-- `G`, which unfolds to `NG`, was made in block `t`, which `w` guards; `w` itself was made as the last
operation between `A` and `B`. -/
structure InGuard (b₀ : Body) (k : BlockId) (A B H : List OpId) (w : OpId) (t : BlockId)
    (N G NG : List OpId) (s : Builder) : Prop where
  outer : InFront b₀ k A B (H ++ [w]) (N ++ w :: NG) ⟨s.body, ⟨k, (A ++ (H ++ [w])).length⟩⟩
  new : b₀.block? t = none
  guards : s.body.guardedBlocks w = [t]
  slots : s.body.slotsOf t = G
  point : s.point = ⟨t, G.length⟩
  unfolds : Unfolds s.body H N
  unfoldsIn : Unfolds s.body G NG

namespace InGuard

variable {b₀ : Body} {k t : BlockId} {A B H N G NG : List OpId} {w : OpId} {s : Builder} {o : OpId}
  {b' : Body}

theorem exists_block (h : InGuard b₀ k A B H w t N G NG s) (hb : s.body.Coherent) :
    ∃ blk, s.body.block? t = some blk := by
  have hw := h.outer.known w (by simp)
  obtain ⟨op, hop⟩ := Option.isSome_iff_exists.1 hw
  have hg := h.guards
  change s.body.op? w = some op at hop
  rw [guardedBlocks_eq hop] at hg
  obtain ⟨-, blk, hblk, -⟩ := hb.guards hop (by rw [hg]; exact List.mem_singleton_self t)
  exact ⟨blk, hblk⟩

theorem place (h : InGuard b₀ k A B H w t N G NG s) (hb : s.body.Coherent) :
    ∃ blk, s.body.block? s.point.block = some blk ∧ s.point.index ≤ blk.slots.length := by
  obtain ⟨blk, hblk⟩ := h.exists_block hb
  refine ⟨blk, by rw [h.point]; exact hblk, ?_⟩
  exact Nat.le_of_eq (by rw [h.point, ← h.slots, slotsOf_eq hblk])

theorem ne (h : InGuard b₀ k A B H w t N G NG s) (hb : s.body.Coherent) : t ≠ k := by
  rintro rfl
  exact h.outer.not_guarded hb w (by simp) (by
    change t ∈ s.body.guardedBlocks w
    rw [h.guards]
    exact List.mem_singleton_self t)

theorem created (h : InGuard b₀ k A B H w t N G NG s) (hb : s.body.Coherent)
    (hnd : (N ++ w :: NG).Nodup) {kind : OpKind} {vs : List ValueId} {tys : List Ty}
    (hc : Created s.body s.point kind vs tys o b') :
    InGuard b₀ k A B H w t N (G ++ [o]) (NG ++ [o]) ⟨b', ⟨t, (G ++ [o]).length⟩⟩ := by
  have hp := h.point
  have hc' : Created s.body ⟨t, G.length⟩ kind vs tys o b' := hp ▸ hc
  have hloc : Local s.body [t] [] b' := hc'.local
  have hmem : ∀ x ∈ N ++ w :: NG, (s.body.op? x).isSome := h.outer.known
  have hw := hmem w (by simp)
  -- only the guard itself guards the block
  have hng : ∀ x ∈ N ++ NG, ∀ k' ∈ [t], k' ∉ s.body.guardedBlocks x := by
    intro x hx k' hk' hg
    rw [List.mem_singleton.1 hk'] at hg
    have hwg : t ∈ s.body.guardedBlocks w := by rw [h.guards]; exact List.mem_singleton_self t
    obtain rfl := hb.guard_unique hwg hg
    rw [List.nodup_append, List.nodup_cons] at hnd
    rcases List.mem_append.1 hx with hx | hx
    · exact hnd.2.2 w hx w List.mem_cons_self rfl
    · exact hnd.2.1.1 hx
  have hslots : b'.slotsOf t = G ++ [o] := by
    have := hc'.slotsOf (A := G) (B := []) (by simpa using h.slots)
    simpa using this
  have hguards : b'.guardedBlocks w = [t] := by rw [hloc.guardedBlocks hw, h.guards]
  have hN : Unfolds b' H N := hloc.unfolds hb h.unfolds (fun x hx => hmem x (by simp [hx]))
    (fun x hx => hng x (List.mem_append_left _ hx)) (by simp)
  have hNG : Unfolds b' (G ++ [o]) (NG ++ [o]) := by
    refine (hloc.unfolds hb h.unfoldsIn (fun x hx => hmem x (by simp [hx]))
      (fun x hx => hng x (List.mem_append_right _ hx)) (by simp)).append (.single ?_)
    rw [hc'.inner]
    exact .nil
  have hk := h.ne hb
  obtain ⟨blk, hblk⟩ := Option.isSome_iff_exists.1 h.outer.exists_block
  change s.body.block? k = some blk at hblk
  have hblk' : b'.block? k = some blk := hloc.block? hblk (by simpa using hk.symm) (by simp)
  refine ⟨?_, h.new, hguards, hslots, rfl, hN, hNG⟩
  refine
    { coherent₀ := h.outer.coherent₀, slots := ?_, exists_block := ?_, point := rfl, unfolds := ?_
      untouched :=
        { block? := fun {k' blk'} hk' hne hX => ?_
          op? := fun hx => ?_
          args := hloc.args.trans h.outer.untouched.args
          ty? := fun ht => hloc.ty? (h.outer.untouched.ty? ht)
          argument := fun hv => h.outer.untouched.argument (hloc.argument hv) }
      fresh := ?_, known := ?_ }
  · have := h.outer.slots
    change s.body.slotsOf k = _ at this
    change b'.slotsOf k = _
    rw [slotsOf_eq hblk', ← slotsOf_eq hblk, this]
  · change (b'.block? k).isSome
    rw [hblk']
    rfl
  · refine hN.append (.single ?_)
    rw [inner_eq_guardedBlocks, hguards]
    change Unfolds b' (List.flatMap b'.slotsOf [t]) _
    rw [List.flatMap_singleton, hslots]
    exact hNG
  · refine hloc.block? (h.outer.untouched.block? hk' hne hX) (fun hmem => ?_) (by simp)
    rw [List.mem_singleton.1 hmem, h.new] at hk'
    cases hk'
  · obtain ⟨op', hop', hb', hblk'⟩ := h.outer.untouched.op? hx
    obtain ⟨op'', hop'', hb'', hblk''⟩ := hloc.op? hop'
    exact ⟨op'', hop'', hb''.trans hb', hblk''.trans hblk'⟩
  · intro x hx
    rw [← List.cons_append, ← List.append_assoc] at hx
    rcases List.mem_append.1 hx with hx | hx
    · exact h.outer.fresh x hx
    · rw [List.mem_singleton.1 hx]
      cases hop : b₀.op? o with
      | none => rfl
      | some op =>
        obtain ⟨op', hop', -⟩ := h.outer.untouched.op? hop
        change s.body.op? o = _ at hop'
        rw [hc.fresh] at hop'
        cases hop'
  · intro x hx
    rw [← List.cons_append, ← List.append_assoc] at hx
    rcases List.mem_append.1 hx with hx | hx
    · exact hloc.isSome (hmem x hx)
    · rw [List.mem_singleton.1 hx]
      change (b'.op? o).isSome
      rw [hc'.op?_self]
      rfl

theorem declared (h : InGuard b₀ k A B H w t N G NG s) (f : Decl → Decl) :
    InGuard b₀ k A B H w t N G NG ⟨s.body.modifyDecl o f, s.point⟩ where
  outer := h.outer.declared f
  new := h.new
  guards := by
    rw [(Local.modifyDecl s.body o f [] []).guardedBlocks (h.outer.known w (by simp))]
    exact h.guards
  slots := h.slots
  point := h.point
  unfolds := h.unfolds.mono fun x _ => inner_modifyDecl _ _ _ _
  unfoldsIn := h.unfoldsIn.mono fun x _ => inner_modifyDecl _ _ _ _

/-- A guard without operations yet. -/
theorem start {cond : ValueId} (h : InFront b₀ k A B H N s) (hb : s.body.Coherent)
    (hc : Created s.body s.point (.when t none) [cond] [] w b') :
    InGuard b₀ k A B H w t N [] [] ⟨b', ⟨t, 0⟩⟩ := by
  have hfront := h.created hb hc
  have ht : b'.block? t = some ⟨[], some w⟩ := hc.block?_new (by simp [OpKind.blocks])
  have hnone : s.body.block? t = none := by
    cases hs : s.body.block? t with
    | none => rfl
    | some blk =>
      obtain ⟨blk', hblk', hpar, -⟩ := hc.block?_old hs
      rw [ht] at hblk'
      obtain rfl := Option.some.inj hblk'
      obtain ⟨op, hop, -⟩ := hb.parent hs hpar.symm
      rw [hc.fresh] at hop
      cases hop
  refine
    { outer := hfront, new := ?_, guards := ?_, slots := slotsOf_eq ht, point := rfl, unfolds := ?_
      unfoldsIn := .nil }
  · cases h₀ : b₀.block? t with
    | none => rfl
    | some blk =>
      have hlt : ¬t.index < s.body.blocks.size := fun hlt => by
        simp [block?, hlt] at hnone
      by_cases hk : t = k
      · subst hk
        have := h.exists_block
        rw [hnone] at this
        cases this
      · have := h.untouched.block? h₀ (by simpa using hk) (by simp)
        rw [hnone] at this
        cases this
  · exact guardedBlocks_eq hc.op?_self
  · have hloc : Local s.body [k] [] b' := by
      have := hc.local
      rwa [h.point] at this
    refine hloc.unfolds hb h.unfolds h.known (fun x hx k' hk' => ?_) (by simp)
    rw [List.mem_singleton.1 hk']
    exact h.not_guarded hb x hx

end InGuard

/-! ## What is made -/

/-- `o`, in block `k` between `A` and `B`, is the next operation to be reached. -/
structure Start (q : Setting) (b₀ : Body) (R₀ : OpId → Nat) (P : List OpId) (o : OpId) (D : List OpId)
    (k : BlockId) (A B : List OpId) : Prop where
  holds : Lowering q b₀ R₀ (P ++ [o]) [] D
  slots : b₀.slotsOf k = A ++ o :: B

/-- The values that new operations may read. -/
def Body.Readable (q : Setting) (b₀ : Body) (P : List OpId) (v : ValueId) : Prop :=
  v.index < b₀.values.size ∧ (q.ordered → b₀.MadeBy P v) ∧
    ∀ {d i}, b₀.origin? v = some (.result d i) → ∃ op, b₀.op? d = some op ∧ op.erased = false

/-- Since `o` was taken up in `b₀`, the operations `N` were made. -/
structure Making (q : Setting) (b₀ : Body) (R₀ : OpId → Nat) (P : List OpId) (o : OpId) (D N : List OpId)
    (b : Body) (R : OpId → Nat) : Prop where
  holds : Lowering q b R (P ++ N) [o] D
  persists : Persists b₀ b
  same : ∀ x, (b₀.op? x).isSome → R x = R₀ x
  lower : q.must → ∀ x ∈ N, R x < R₀ o
  stands : ∀ x ∈ N, ∃ op, b.op? x = some op ∧ op.erased = false

/-- What is asked of an operation before it is made, if operations may nest less deep than `r`. -/
def Allowed (q : Setting) (r : Nat) (b : Body) (kind : OpKind) (vs : List ValueId) (tys : List Ty) :
    Prop :=
  q.must → b.Ready q kind vs tys ∧ ∃ r' < r, b.Suffices q kind vs tys r'

namespace Making

variable {q : Setting} {b₀ b b' : Body} {R₀ R : OpId → Nat} {P D N : List OpId} {o o' : OpId}
  {v : ValueId}

theorem readable (h : Making q b₀ R₀ P o D N b R) (hv : AtHand (b₀.Readable q P) N b v) :
    (q.ordered → b.MadeBy (P ++ N) v) ∧
      ∀ {d i op}, b.origin? v = some (.result d i) → b.op? d = some op → op.erased = false := by
  rcases hv with ⟨hlt, hmade, hstands⟩ | ⟨d, hd, i, hr⟩
  · refine ⟨fun hm => (h.persists.madeBy (hmade hm)).mono (List.subset_append_left _ _), ?_⟩
    intro d i op hr hop
    rw [h.persists.origin? hlt] at hr
    obtain ⟨op₀, hop₀, he⟩ := hstands hr
    obtain ⟨op', hop', -, -, he'⟩ := h.persists.op? hop₀
    rw [hop] at hop'
    rw [Option.some.inj hop', he', he]
  · refine ⟨fun _ => .inr ⟨d, List.mem_append_right _ hd, i, hr⟩, ?_⟩
    intro d' i' op hr' hop
    rw [hr] at hr'
    obtain ⟨rfl, rfl⟩ : d = d' ∧ i = i' := by simpa using hr'
    obtain ⟨op', hop', he⟩ := h.stands d hd
    rw [hop] at hop'
    rw [Option.some.inj hop']
    exact he

theorem not_mem (h : Making q b₀ R₀ P o D N b R) : o ∉ P ++ N := fun hmem => by
  have := h.holds.nodup
  rw [List.nodup_append, List.nodup_append] at this
  exact this.1.2.2 o hmem o (List.mem_singleton_self o) rfl

/-- Nothing that is pending reads what the operation makes. -/
theorem not_reads (h : Making q b₀ R₀ P o D N b R) (hord : q.ordered) {i : Nat}
    (hv : b.origin? v = some (.result o i)) : ∀ x ∈ P ++ N, ¬b.Reads x v := by
  rintro x hx ⟨op, hop, hmem⟩
  rcases Closed.madeBy (h.holds.closed hord) hx hop hmem with ha | ⟨d, hd, j, hr⟩
  · rw [hv] at ha
    cases ha
  · rw [hv] at hr
    obtain ⟨rfl, -⟩ : o = d ∧ i = j := by simpa using hr
    exact h.not_mem hd

theorem created (h : Making q b₀ R₀ P o D N b R) {p : Point} {kind : OpKind} {vs : List ValueId}
    {ins tys : List Ty} {r : Nat} (hc : Created b p kind vs tys o' b')
    (hv : ∀ v ∈ vs, AtHand (b₀.Readable q P) N b v) (hins : b.Types vs ins) (hs : kind.Shaped q.strict ins tys)
    (hm : q.must → b.Ready q kind vs tys ∧ b.Suffices q kind vs tys r ∧ r < R₀ o ∧
      ∀ g ∈ P ++ N, p.block ∈ b.guardedBlocks g → r < R g) :
    Making q b₀ R₀ P o D (N ++ [o']) b' (Function.update R o' r) := by
  have hnew : ∀ {x op}, b.op? x = some op → x ≠ o' := by
    rintro x op hop rfl
    rw [hc.fresh] at hop
    cases hop
  refine ⟨?_, h.persists.trans hc.extended.persists, fun x hx => ?_, fun hmust x hx => ?_,
    fun x hx => ?_⟩
  · rw [← List.append_assoc]
    refine h.holds.created hc hins hs (fun v hmem d i op hr hop => (h.readable (hv v hmem)).2 hr hop)
      (fun hord v hmem => (h.readable (hv v hmem)).1 hord)
      fun hmust => ⟨(hm hmust).1, (hm hmust).2.1, (hm hmust).2.2.2⟩
  · obtain ⟨op, hop⟩ := Option.isSome_iff_exists.1 hx
    obtain ⟨op', hop', -⟩ := h.persists.op? hop
    rw [Function.update_of_ne (hnew hop'), h.same x hx]
  · rcases List.mem_append.1 hx with hx | hx
    · obtain ⟨op, hop, -⟩ := h.stands x hx
      rw [Function.update_of_ne (hnew hop)]
      exact h.lower hmust x hx
    · rw [List.mem_singleton.1 hx, Function.update_self]
      exact (hm hmust).2.2.1
  · rcases List.mem_append.1 hx with hx | hx
    · obtain ⟨op, hop, he⟩ := h.stands x hx
      exact ⟨op, hc.op?_old hop, he⟩
    · rw [List.mem_singleton.1 hx]
      exact ⟨_, hc.op?_self, rfl⟩

theorem declared (h : Making q b₀ R₀ P o D N b R) {f : Decl → Decl} (ho : o' ∈ N)
    (hm : ∀ op outs, b.op? o' = some op → b.Types op.results outs →
      q.must → (op.kind.mapDecl f).Declares outs) :
    Making q b₀ R₀ P o D N (b.modifyDecl o' f) R where
  holds := h.holds.declared (List.mem_append_right _ ho) fun hmust op outs hop houts =>
    hm op outs hop houts hmust
  persists := h.persists.trans (Extends.modifyDecl b o' f).persists
  same := h.same
  lower := h.lower
  stands x hx := by
    obtain ⟨op, hop, he⟩ := h.stands x hx
    obtain ⟨kind, hop', -⟩ := op?_modifyDecl_some (o := o') (f := f) hop
    exact ⟨_, hop', he⟩

end Making

namespace Start

variable {q : Setting} {b₀ : Body} {R₀ : OpId → Nat} {P D : List OpId} {o : OpId} {k : BlockId}
  {A B : List OpId}

/-- Operations made in front of the one that was taken up. -/
def Front (q : Setting) (b₀ : Body) (R₀ : OpId → Nat) (P : List OpId) (o : OpId) (D : List OpId)
    (k : BlockId) (A B N : List OpId) (s : Builder) : Prop :=
  (∃ H, InFront b₀ k A (o :: B) H N s) ∧ ∃ R, Making q b₀ R₀ P o D N s.body R

/-- Operations made in a block that the last of those in front guards. -/
def Guarded (q : Setting) (b₀ : Body) (R₀ : OpId → Nat) (P : List OpId) (o : OpId) (D : List OpId)
    (k : BlockId) (A B H : List OpId) (w : OpId) (t : BlockId) (N₀ N : List OpId) (s : Builder) : Prop :=
  (∃ G NG, N = N₀ ++ w :: NG ∧ InGuard b₀ k A (o :: B) H w t N₀ G NG s) ∧
    ∃ R, Making q b₀ R₀ P o D N s.body R ∧ (q.must → R w = R₀ o - 1)

/-- The guard of the block in which `o` lies nests deeper than `o`. -/
theorem lt_guard (h : Start q b₀ R₀ P o D k A B) (hm : q.must) {g : OpId} (hg : g ∈ P)
    (hk : k ∈ b₀.guardedBlocks g) : R₀ o < R₀ g := by
  refine h.holds.nested hm (List.mem_append_left _ hg) ?_
  rw [inner_eq_guardedBlocks, List.mem_flatMap]
  exact ⟨k, List.mem_reverse.2 hk, by rw [h.slots]; simp⟩

/-- An operation in front of `o` nests less deep than what guards it. -/
theorem created (h : Start q b₀ R₀ P o D k A B) {H N : List OpId} {s : Builder} {R : OpId → Nat}
    (hH : InFront b₀ k A (o :: B) H N s) (hR : Making q b₀ R₀ P o D N s.body R) {kind : OpKind}
    {vs : List ValueId} {ins tys : List Ty} {o' : OpId} {b' : Body} {r : Nat}
    (hc : Created s.body s.point kind vs tys o' b') (hv : ∀ v ∈ vs, AtHand (b₀.Readable q P) N s.body v)
    (hins : s.body.Types vs ins) (hs : kind.Shaped q.strict ins tys)
    (hm : q.must → s.body.Ready q kind vs tys ∧ s.body.Suffices q kind vs tys r ∧ r < R₀ o) :
    Making q b₀ R₀ P o D (N ++ [o']) b' (Function.update R o' r) := by
  refine hR.created hc hv hins hs fun hmust => ?_
  obtain ⟨hready, hsuf, hlt⟩ := hm hmust
  refine ⟨hready, hsuf, hlt, fun g hg hmem => ?_⟩
  rw [hH.point] at hmem
  have hgP : g ∈ P := by
    rcases List.mem_append.1 hg with hg | hg
    · exact hg
    · exact absurd hmem (hH.not_guarded hR.holds.coherent g hg)
  have hsome := h.holds.isSome (x := g) (by simp [hgP])
  rw [hH.untouched.guardedBlocks hsome] at hmem
  rw [hR.same g hsome]
  exact Nat.lt_trans hlt (h.lt_guard hmust hgP hmem)

theorem grows (h : Start q b₀ R₀ P o D k A B) :
    Grows (b₀.Readable q P) (Allowed q (R₀ o)) (fun kind outs => q.must → kind.Declares outs)
      (Front q b₀ R₀ P o D k A B) where
  coherent hI := by
    obtain ⟨-, R, hR⟩ := hI
    exact hR.holds.coherent
  place hI := by
    obtain ⟨⟨H, hH⟩, -⟩ := hI
    exact hH.place
  make := by
    rintro N s kind vs ins tys o' b' ⟨⟨H, hH⟩, R, hR⟩ hk hc hv hins hs hM
    have hfront := hH.created hR.holds.coherent hc
    refine ⟨⟨H ++ [o'], ?_⟩, ?_⟩
    · rw [hH.point]
      simpa [Nat.add_assoc] using hfront
    · by_cases hmust : q.must
      · obtain ⟨hready, r, hlt, hsuf⟩ := hM hmust
        exact ⟨_, h.created hH hR hc hv hins (hs.mono fun _ => trivial) fun _ => ⟨hready, hsuf, hlt⟩⟩
      · exact ⟨_, h.created (r := 0) hH hR hc hv hins (hs.mono fun _ => trivial) fun hm => absurd hm hmust⟩
  declare := by
    rintro N s o' f ⟨⟨H, hH⟩, R, hR⟩ ho hA
    exact ⟨⟨H, hH.declared f⟩, R, hR.declared ho hA⟩

theorem growsIn {H : List OpId} {w : OpId} {t : BlockId} {N₀ : List OpId} :
    Grows (b₀.Readable q P) (Allowed q (R₀ o - 1)) (fun kind outs => q.must → kind.Declares outs)
      (Guarded q b₀ R₀ P o D k A B H w t N₀) where
  coherent hI := by
    obtain ⟨-, R, hR, -⟩ := hI
    exact hR.holds.coherent
  place hI := by
    obtain ⟨⟨G, NG, -, hG⟩, R, hR, -⟩ := hI
    exact hG.place hR.holds.coherent
  make := by
    rintro N s kind vs ins tys o' b' ⟨⟨G, NG, rfl, hG⟩, R, hR, hw⟩ hk hc hv hins hs hM
    have hb := hR.holds.coherent
    have hnd : (N₀ ++ w :: NG).Nodup := by
      have := hR.holds.nodup
      rw [List.append_assoc, List.append_assoc, List.nodup_append] at this
      exact (List.nodup_append.1 this.2.1).1
    have hguard := hG.created hb hnd hc
    have hp := hG.point
    have hsomew := hG.outer.known w (by simp)
    have hne : w ≠ o' := by
      rintro rfl
      rw [hc.fresh] at hsomew
      cases hsomew
    refine ⟨⟨G ++ [o'], NG ++ [o'], by simp, ?_⟩, ?_⟩
    · rw [hp]
      simpa using hguard
    · by_cases hmust : q.must
      · obtain ⟨hready, r, hlt, hsuf⟩ := hM hmust
        refine ⟨_, hR.created hc hv hins (hs.mono fun _ => trivial) fun _ =>
          ⟨hready, hsuf, by omega, fun g hg hmem => ?_⟩,
          fun _ => by rw [Function.update_of_ne hne, hw hmust]⟩
        rw [hp] at hmem
        have hwg : t ∈ s.body.guardedBlocks w := by rw [hG.guards]; exact List.mem_singleton_self t
        obtain rfl := hb.guard_unique hwg hmem
        rw [hw hmust]
        exact hlt
      · exact ⟨_, hR.created (r := 0) hc hv hins (hs.mono fun _ => trivial) fun hm => absurd hm hmust,
          fun hm => absurd hm hmust⟩
  declare := by
    rintro N s o' f ⟨⟨G, NG, rfl, hG⟩, R, hR, hw⟩ ho hA
    exact ⟨⟨G, NG, rfl, hG.declared f⟩, R, hR.declared ho hA, hw⟩

end Start

end Scalarize
