import Scalarize.Proofs.Body.Listing
import Scalarize.Proofs.Body.Uses

/-!
# Bodies that only move on

* `Body.Slotted` : blocks list what was made in them, each operation once; `Formed.slotted` : so do all bodies that
  are formed, whatever blocks their guards name;
* `Operation.Persists` : what never changes about an operation while it is lowered;
* `Body.Quiet` : blocks and guards are as before; reading, rewiring and erasing plain operations is quiet;
* `Body.Advances` : no slot is taken away or filled anew, and new operations guard new blocks only;
* `Body.Opens`, `Advances.opens`, `Advances.below_back` : the blocks right below a block, before and after;
* `BlockTree.apart` : in a tree of blocks, nothing lies below two blocks right below the same block.
-/

namespace Scalarize

open Relation

/-- Nothing need be known of what comes before. -/
theorem Ends.bind_ok {ε α β : Type} {m : Except ε α} {f : α → Except ε β} {Q : β → Prop}
    (h : ∀ a, m = .ok a → Ends False (f a) Q) : Ends False (m >>= f) Q :=
  .bind (.intro (fun _ ha => ha) nofun) h

/-- The same over a state. -/
theorem Runs.bind_ok {ε σ α β : Type} {m : StateT σ (Except ε) α} {f : α → StateT σ (Except ε) β} {s : σ}
    {Q : β → σ → Prop} (h : ∀ a s', Runs False (f a) s' Q) : Runs False (m >>= f) s Q :=
  .bind (P := fun _ _ => True) (.intro (fun _ _ => trivial) nofun) fun a s' _ => h a s'

theorem Runs.of_run_eq {must : Prop} {ε σ α : Type} {m m' : StateT σ (Except ε) α} {s : σ} {Q : α → σ → Prop}
    (h : m.run s = m'.run s) (hm : Runs must m' s Q) : Runs must m s Q := by
  unfold Runs
  rw [h]
  exact hm

/-- The operation guards what it guarded, lies where it lay, and stays erased; nothing erases a guard. -/
structure Operation.Persists (op op' : Operation) : Prop where
  guards : op'.kind.blocks = op.kind.blocks
  block : op'.block = op.block
  erased : op.erased = true → op'.erased = true
  guard : op.kind.blocks ≠ [] → op'.erased = op.erased

theorem Operation.Persists.refl (op : Operation) : op.Persists op := ⟨rfl, rfl, id, fun _ => rfl⟩

theorem Operation.Persists.trans {op op' op'' : Operation} (h : op.Persists op') (h' : op'.Persists op'') :
    op.Persists op'' :=
  ⟨h'.guards.trans h.guards, h'.block.trans h.block, fun he => h'.erased (h.erased he),
    fun hk => (h'.guard (h.guards ▸ hk)).trans (h.guard hk)⟩

namespace Body

variable {b b' b'' : Body} {g o x : OpId} {v w : ValueId} {k k' m : BlockId}

/-! ## Slots -/

/-- Blocks list operations that were made in them, each once. -/
structure Slotted (b : Body) : Prop where
  lies : ∀ {x k}, x ∈ b.slotsOf k → b.LiesIn x k
  nodup : ∀ k, (b.slotsOf k).Nodup

theorem LiesIn.isSome (h : b.LiesIn x k) : (b.op? x).isSome := by
  obtain ⟨op, hop, -⟩ := h
  rw [hop]
  rfl

/-- Operations stay where they were made, and no slot is filled anew. -/
theorem Slotted.of_sublist (h : b.Slotted) (hlies : ∀ {x k}, b.LiesIn x k → b'.LiesIn x k)
    (hs : ∀ k, (b'.slotsOf k).Sublist (b.slotsOf k)) : b'.Slotted where
  lies hx := hlies (h.lies ((hs _).subset hx))
  nodup k := (h.nodup k).sublist (hs k)

/-- A new operation takes one slot of its block. -/
theorem Slotted.joined (h : b.Slotted) {kind : OpKind} {vs : List ValueId} {tys : List Ty} {A B : List OpId}
    (hj : Joined b k kind vs tys o b') (hs : b.slotsOf k = A ++ B) (hs' : b'.slotsOf k = A ++ o :: B)
    (hne : ∀ m, m ≠ k → b'.slotsOf m = b.slotsOf m) : b'.Slotted := by
  have hold : ∀ {x m}, x ∈ b.slotsOf m → b'.LiesIn x m := fun hx => by
    obtain ⟨op, hop, hm⟩ := h.lies hx
    exact ⟨op, hj.op?_old hop, hm⟩
  have hfresh : o ∉ A ++ B := fun hmem => by
    have := (h.lies (hs ▸ hmem)).isSome
    rw [hj.fresh] at this
    cases this
  refine ⟨fun {x m} hx => ?_, fun m => ?_⟩
  · by_cases hm : m = k
    · subst hm
      rw [hs', List.mem_append, List.mem_cons] at hx
      rcases hx with hx | rfl | hx
      · exact hold (hs ▸ List.mem_append_left _ hx)
      · exact ⟨_, hj.op?_self, rfl⟩
      · exact hold (hs ▸ List.mem_append_right _ hx)
    · exact hold (hne m hm ▸ hx)
  · by_cases hm : m = k
    · subst hm
      rw [hs', List.perm_middle.nodup_iff]
      exact List.nodup_cons.2 ⟨hfresh, hs ▸ h.nodup m⟩
    · exact hne m hm ▸ h.nodup m

/-! ## Quiet changes -/

/-- Blocks and guards are as before, and operations stay where they were; those that guard nothing may have been
erased. -/
structure Quiet (b b' : Body) : Prop where
  blocks : b'.blocks = b.blocks
  op? : ∀ {x op}, b.op? x = some op → ∃ op', b'.op? x = some op' ∧ op.Persists op'
  missing : ∀ {x}, b.op? x = none → b'.op? x = none

namespace Quiet

theorem refl (b : Body) : Quiet b b := ⟨rfl, fun h => ⟨_, h, .refl _⟩, id⟩

theorem trans (h : Quiet b b') (h' : Quiet b' b'') : Quiet b b'' where
  blocks := h'.blocks.trans h.blocks
  op? hx := by
    obtain ⟨op', hop', hp⟩ := h.op? hx
    obtain ⟨op'', hop'', hp'⟩ := h'.op? hop'
    exact ⟨op'', hop'', hp.trans hp'⟩
  missing hx := h'.missing (h.missing hx)

/-- Operations are changed one by one. -/
theorem of_map {f : OpId → Operation → Operation} (hblocks : b'.blocks = b.blocks)
    (hop : ∀ x, b'.op? x = (b.op? x).map (f x)) (hf : ∀ x op, b.op? x = some op → op.Persists (f x op)) :
    Quiet b b' where
  blocks := hblocks
  op? {x op} hx := ⟨f x op, by rw [hop, hx]; rfl, hf x op hx⟩
  missing hx := by rw [hop, hx]; rfl

theorem block? (h : Quiet b b') (k : BlockId) : b'.block? k = b.block? k := by
  simp only [Body.block?, h.blocks]

theorem slotsOf (h : Quiet b b') (k : BlockId) : b'.slotsOf k = b.slotsOf k := by
  simp only [Body.slotsOf, h.block?]

theorem op?_back (h : Quiet b b') {op' : Operation} (hx : b'.op? x = some op') :
    ∃ op, b.op? x = some op ∧ op.Persists op' := by
  cases hop : b.op? x with
  | none => rw [h.missing hop] at hx; cases hx
  | some op =>
    obtain ⟨op₁, hop₁, hp⟩ := h.op? hop
    obtain rfl := Option.some.inj (hop₁.symm.trans hx)
    exact ⟨op, rfl, hp⟩

theorem guardedBlocks (h : Quiet b b') (x : OpId) : b'.guardedBlocks x = b.guardedBlocks x := by
  cases hop : b.op? x with
  | none => simp [Body.guardedBlocks, hop, h.missing hop]
  | some op =>
    obtain ⟨op', hop', hp⟩ := h.op? hop
    rw [guardedBlocks_eq hop, guardedBlocks_eq hop', hp.guards]

theorem liesIn (h : Quiet b b') : b'.LiesIn x k ↔ b.LiesIn x k := by
  constructor
  · rintro ⟨op', hop', rfl⟩
    obtain ⟨op, hop, hp⟩ := h.op?_back hop'
    exact ⟨op, hop, hp.block.symm⟩
  · rintro ⟨op, hop, rfl⟩
    obtain ⟨op', hop', hp⟩ := h.op? hop
    exact ⟨op', hop', hp.block⟩

theorem slotted (h : Quiet b b') (hb : b.Slotted) : b'.Slotted :=
  hb.of_sublist h.liesIn.2 fun k => by rw [h.slotsOf]

theorem blockTree (h : Quiet b b') (hb : b.BlockTree) : b'.BlockTree where
  later {g k k'} hg hk := by
    rw [h.guardedBlocks] at hk
    have := hb.later (h.liesIn.1 hg) hk
    rwa [h.blocks]
  owner {g g' k} hk hk' := by
    rw [h.guardedBlocks] at hk hk'
    exact hb.owner hk hk'
  distinct g := by
    rw [h.guardedBlocks]
    exact hb.distinct g
  wellFounded := by
    simp only [h.liesIn, h.guardedBlocks]
    exact hb.wellFounded

end Quiet

theorem Dropped.quiet {f : Bool → Bool} (h : Dropped b o f b') (hf : f true = true)
    (ho : f false = true → b.guardedBlocks o = []) : Quiet b b' := by
  refine .of_map h.blocks h.op? fun x op hop => ?_
  split
  next hx =>
    subst hx
    refine ⟨rfl, rfl, fun he => by rw [he]; exact hf, fun hk => ?_⟩
    have hnot : f false ≠ true := fun he => hk (guardedBlocks_eq hop ▸ ho he)
    cases he : op.erased with
    | true => exact hf
    | false => exact Bool.eq_false_iff.2 hnot
  next => exact .refl op

theorem quiet_modifyDecl (b : Body) (o : OpId) (f : Decl → Decl) : Quiet b (b.modifyDecl o f) := by
  refine .of_map rfl (b.op?_modifyDecl o f) fun x op _ => ?_
  split
  · exact ⟨OpKind.blocks_eq_of_bare_eq (OpKind.bare_mapDecl f op.kind), rfl, id, fun _ => rfl⟩
  · exact .refl op

/-- One value is read in place of another, whatever the use lists say. -/
theorem replaceAllUses_quiet : Ends False (b.replaceAllUses v w) (Quiet b) := by
  unfold replaceAllUses
  split
  · exact .pure (.refl b)
  refine .bind_ok fun y _ => ?_
  refine .bind_ok fun _ _ => .pure ?_
  exact .of_map rfl (foldl_set_operands y.uses w b.ops) fun _ _ _ => ⟨rfl, rfl, id, fun _ => rfl⟩

theorem Reargs.quiet {tys : List Ty} (h : Reargs b b' tys) : Quiet b b' :=
  .of_map (f := fun _ op => op) h.blocks (fun x => by simp [Body.op?, h.ops]) fun _ op _ => .refl op

theorem dropOperands_quiet : Ends False (b.dropOperands o) (Quiet b) :=
  (dropOperands_ends nofun).mono fun _ h => h.quiet rfl nofun

theorem guarded_of_guardedBlocks (h : b.guardedBlocks o = []) : b.guarded o = [] := by
  unfold guarded
  rw [kind?_eq]
  cases hop : b.op? o with
  | none => rfl
  | some op =>
    rw [guardedBlocks_eq hop] at h
    simp [h]

/-- What guards nothing is erased alone. -/
theorem eraseOp_quiet (h : b.guardedBlocks o = []) : Ends False (b.eraseOp o) fun b' =>
    Quiet b b' ∧ ∃ op, b'.op? o = some op ∧ op.erased = true := by
  unfold eraseOp
  refine Ends.bind (P := fun _ => (b.op? o).isSome) (.intro (fun r hr => ?_) nofun) fun r ho => ?_
  · unfold opHasUses at hr
    rw [op_eq] at hr
    cases hop : b.op? o with
    | none => rw [hop] at hr; cases hr
    | some op => rfl
  split
  · exact .throw id
  rw [guarded_of_guardedBlocks h, List.foldlM_cons]
  refine Ends.bind ((discard_ends nofun).mono fun b' hd => (⟨hd.quiet rfl fun _ => h, hd⟩ : _ ∧ _))
    fun b' ⟨hq, hd⟩ => .pure ⟨hq, ?_⟩
  obtain ⟨op, hop⟩ := Option.isSome_iff_exists.1 ho
  exact ⟨_, by rw [hd.op?, hop]; rfl, by simp⟩

/-- An accessor of a split value gives way to the part that it reaches. -/
theorem rewireUser_quiet {parts : List ValueId} {u : OpId} : Ends False (rewireUser v parts b u) (Quiet b) := by
  refine Ends.bind (P := fun kind => ∃ op, b.op? u = some op ∧ op.kind = kind)
    (kindOf_ends (fun op hop => ⟨op, hop, rfl⟩) nofun) ?_
  rintro _ ⟨op, hop, rfl⟩
  split
  next => exact .bind_ok fun _ _ => .throw id
  next i hi =>
    have hplain : b.guardedBlocks u = [] := by
      rw [guardedBlocks_eq hop, (OpKind.plain_of_fixedIndex? hi).blocks]
    split
    next => exact .throw id
    next part _ =>
      refine .bind_ok fun r _ => ?_
      refine Ends.bind replaceAllUses_quiet fun b₁ h₁ => ?_
      exact (eraseOp_quiet ((h₁.guardedBlocks u).trans hplain)).mono fun b₂ h₂ => h₁.trans h₂.1

theorem rewire_quiet {parts : List ValueId} : Ends False (b.rewire v parts) (Quiet b) := by
  refine .bind_ok fun us _ => ?_
  exact Ends.foldlM (fun _ b' => Quiet b b') us (.refl b) fun _ _ _ _ _ h =>
    rewireUser_quiet.mono fun _ => h.trans

theorem eraseUnread_quiet {path : List OpId} : ∀ {b : Body}, (∀ x ∈ path, b.guardedBlocks x = []) →
    Ends False (b.eraseUnread path) (Quiet b) := by
  induction path with
  | nil => exact fun _ => .pure (.refl _)
  | cons x path ih =>
    intro b hpath
    rw [eraseUnread]
    refine .bind_ok fun r _ => ?_
    split
    · exact .pure (.refl b)
    have hx := (eraseOp_quiet (hpath x List.mem_cons_self)).mono fun _ h => h.1
    refine Ends.bind hx fun b₁ h₁ => (ih fun x' hx' => ?_).mono fun _ => h₁.trans
    rw [h₁.guardedBlocks]
    exact hpath x' (List.mem_cons_of_mem x hx')

theorem handOver_quiet {splits : List (ValueId × SplitPort)} : ∀ {new : List ValueId} {b : Body},
    Ends False (handOver splits new b) (Quiet b) := by
  induction splits with
  | nil => exact .pure (.refl _)
  | cons e splits ih =>
    obtain ⟨old, s⟩ := e
    intro new b
    have hrest : ∀ b', Quiet b b' → Ends False (handOver splits (new.drop s.types.length) b') (Quiet b) :=
      fun _ h => ih.mono fun _ => h.trans
    rw [handOver]
    dsimp only
    split
    · refine .bind_ok fun t _ => ?_
      split
      · exact Ends.bind replaceAllUses_quiet hrest
      · exact Ends.bind rewire_quiet hrest
    · exact Ends.bind rewire_quiet hrest

/-! ## New operations -/

/-- No slot is taken away or filled anew, operations persist, and new operations guard new blocks only. What blocks
list is as it should be if it was before, and blocks are nested like a tree if they were. -/
structure Advances (b b' : Body) : Prop where
  op? : ∀ {x op}, b.op? x = some op → ∃ op', b'.op? x = some op' ∧ op.Persists op'
  block : ∀ {k}, (b.block? k).isSome → (b'.block? k).isSome
  slots : ∀ k, (b.slotsOf k).Sublist (b'.slotsOf k)
  back : ∀ {x k}, (b.op? x).isSome → x ∈ b'.slotsOf k → x ∈ b.slotsOf k
  guards : ∀ {x k}, b.op? x = none → k ∈ b'.guardedBlocks x → b.block? k = none
  slotted : b.Slotted → b'.Slotted
  blockTree : b.BlockTree → b'.BlockTree

theorem Quiet.advances (h : Quiet b b') : Advances b b' where
  op? := h.op?
  block hk := by rwa [h.block?]
  slots k := by rw [h.slotsOf]
  back _ hx := by rwa [h.slotsOf] at hx
  guards hx hk := by
    simp [Body.guardedBlocks, h.missing hx] at hk
  slotted := h.slotted
  blockTree := h.blockTree

namespace Created

variable {p : Point} {kind : OpKind} {vs : List ValueId} {tys : List Ty}

/-- Blocks besides that of the point list what they listed. -/
theorem slotsOf_other (h : Created b p kind vs tys o b') (hk : k ≠ p.block) : b'.slotsOf k = b.slotsOf k := by
  cases hblk : b.block? k with
  | some blk => exact h.slotsOf_ne hk (by rw [hblk]; rfl)
  | none =>
    have hold : b.slotsOf k = [] := by simp [Body.slotsOf, hblk]
    cases hblk' : b'.block? k with
    | none => rw [hold]; simp [Body.slotsOf, hblk']
    | some blk' =>
      rcases h.block_cases hblk' with ⟨blk, hblk₀, -⟩ | ⟨-, -, rfl⟩
      · rw [hblk] at hblk₀
        cases hblk₀
      · rw [hold, slotsOf_eq hblk']

theorem guardedBlocks_self (h : Created b p kind vs tys o b') : b'.guardedBlocks o = kind.blocks :=
  guardedBlocks_eq h.op?_self

theorem guardedBlocks_of_ne (h : Created b p kind vs tys o b') (hx : x ≠ o) :
    b'.guardedBlocks x = b.guardedBlocks x := by
  unfold Body.guardedBlocks
  rw [h.op?, if_neg hx]

/-- The blocks that a new operation guards are new. -/
theorem block?_guards (h : Created b p kind vs tys o b') (hk : k ∈ kind.blocks) : b.block? k = none := by
  rw [h.guards, List.mem_map] at hk
  obtain ⟨j, -, rfl⟩ := hk
  exact Array.getElem?_eq_none (Nat.le_add_right _ _)

theorem size_blocks_le (h : Created b p kind vs tys o b') : b.blocks.size ≤ b'.blocks.size := by
  by_contra hlt
  have hk : (b.block? ⟨b'.blocks.size⟩).isSome := by
    simp only [Body.block?, isSome_getElem?]
    omega
  obtain ⟨blk, hblk⟩ := Option.isSome_iff_exists.1 hk
  obtain ⟨blk', hblk', -⟩ := h.block?_old hblk
  exact Nat.lt_irrefl _ (lt_of_block? hblk')

theorem blockTree (h : Created b p kind vs tys o b') (hb : b.BlockTree) : b'.BlockTree := by
  have hblk : ∀ {x m k}, x ≠ o → b'.LiesIn x m → k ∈ b'.guardedBlocks x →
      m.index < k.index ∧ k.index < b.blocks.size := by
    rintro x m k hx ⟨op, hop, hm⟩ hk
    rw [h.guardedBlocks_of_ne hx] at hk
    rw [h.op?, if_neg hx] at hop
    exact hb.later ⟨op, hop, hm⟩ hk
  have hnew : ∀ {k}, k ∈ b'.guardedBlocks o → b.blocks.size ≤ k.index ∧ k.index < b'.blocks.size := by
    intro k hk
    rw [h.guardedBlocks_self] at hk
    exact ⟨Array.getElem?_eq_none_iff.1 (h.block?_guards hk), lt_of_block? (h.block?_new hk)⟩
  have hlater : ∀ {g k k'}, b'.LiesIn g k → k' ∈ b'.guardedBlocks g →
      k.index < k'.index ∧ k'.index < b'.blocks.size := by
    intro g k k' hg hk'
    by_cases hgo : g = o
    · subst hgo
      obtain ⟨op, hop, rfl⟩ := hg
      obtain rfl := Option.some.inj (h.op?_self.symm.trans hop)
      obtain ⟨blk, hblk, -⟩ := h.place
      exact ⟨Nat.lt_of_lt_of_le (lt_of_block? hblk) (hnew hk').1, (hnew hk').2⟩
    · exact (hblk hgo hg hk').imp_right fun hlt => Nat.lt_of_lt_of_le hlt h.size_blocks_le
  have hlies : ∀ {x k}, k ∈ b'.guardedBlocks x → ∃ m, b'.LiesIn x m := fun {x k} hk => by
    cases hop : b'.op? x with
    | none => simp [Body.guardedBlocks, hop] at hk
    | some op => exact ⟨_, op, hop, rfl⟩
  refine ⟨hlater, fun {g g' k} hk hk' => ?_, fun g => ?_, ?_⟩
  · obtain ⟨m, hm⟩ := hlies hk
    obtain ⟨m', hm'⟩ := hlies hk'
    by_cases hg : g = o
    · by_cases hg' : g' = o
      · exact hg.trans hg'.symm
      · have := hnew (hg ▸ hk)
        have := hblk hg' hm' hk'
        omega
    · by_cases hg' : g' = o
      · have := hnew (hg' ▸ hk')
        have := hblk hg hm hk
        omega
      · rw [h.guardedBlocks_of_ne hg] at hk
        rw [h.guardedBlocks_of_ne hg'] at hk'
        exact hb.owner hk hk'
  · by_cases hg : g = o
    · subst hg
      rw [h.guardedBlocks_self, h.guards]
      refine List.nodup_range.map fun i j hij => ?_
      injection hij
      omega
    · rw [h.guardedBlocks_of_ne hg]
      exact hb.distinct g
  · refine Subrelation.wf ?_ (measure fun k : BlockId => b'.blocks.size - k.index).wf
    rintro k' k ⟨g, hg, hk'⟩
    obtain ⟨hlt, hsize⟩ := hlater hg hk'
    show b'.blocks.size - k'.index < b'.blocks.size - k.index
    omega

theorem advances (h : Created b p kind vs tys o b') : Advances b b' where
  op? hx := ⟨_, h.op?_old hx, .refl _⟩
  block hk := by
    obtain ⟨blk, hblk⟩ := Option.isSome_iff_exists.1 hk
    obtain ⟨blk', hblk', -⟩ := h.block?_old hblk
    rw [hblk']
    rfl
  slots := h.slotsOf_sublist
  back {x k} hx hmem := by
    by_cases hk : k = p.block
    · obtain ⟨A, B, hs, -, hs'⟩ := h.slotsOf_place
      rw [hk, hs', List.mem_append, List.mem_cons] at hmem
      rw [hk, hs, List.mem_append]
      refine hmem.imp_right (Or.resolve_left · ?_)
      rintro rfl
      rw [h.fresh] at hx
      cases hx
    · rwa [h.slotsOf_other hk] at hmem
  guards {x k} hx hk := by
    by_cases hxo : x = o
    · subst hxo
      exact h.block?_guards (h.guardedBlocks_self ▸ hk)
    · rw [h.guardedBlocks_of_ne hxo] at hk
      simp [Body.guardedBlocks, hx] at hk
  slotted hb := by
    obtain ⟨A, B, hs, -, hs'⟩ := h.slotsOf_place
    exact hb.joined h.toJoined hs hs' fun m hm => h.slotsOf_other hm
  blockTree := h.blockTree

end Created

namespace Advances

theorem refl (b : Body) : Advances b b := (Quiet.refl b).advances

theorem guardedBlocks (h : Advances b b') (hx : (b.op? x).isSome) : b'.guardedBlocks x = b.guardedBlocks x := by
  obtain ⟨op, hop⟩ := Option.isSome_iff_exists.1 hx
  obtain ⟨op', hop', hp⟩ := h.op? hop
  rw [guardedBlocks_eq hop, guardedBlocks_eq hop', hp.guards]

theorem isSome (h : Advances b b') (hx : (b.op? x).isSome) : (b'.op? x).isSome := by
  obtain ⟨op, hop⟩ := Option.isSome_iff_exists.1 hx
  obtain ⟨op', hop', -⟩ := h.op? hop
  rw [hop']
  rfl

theorem trans (h : Advances b b') (h' : Advances b' b'') : Advances b b'' where
  op? hx := by
    obtain ⟨op', hop', hp⟩ := h.op? hx
    obtain ⟨op'', hop'', hp'⟩ := h'.op? hop'
    exact ⟨op'', hop'', hp.trans hp'⟩
  block hk := h'.block (h.block hk)
  slots k := (h.slots k).trans (h'.slots k)
  back hx hmem := h.back hx (h'.back (h.isSome hx) hmem)
  guards {x k} hx hk := by
    cases hx' : b'.op? x with
    | some op' => exact h.guards hx (h'.guardedBlocks (by rw [hx']; rfl) ▸ hk)
    | none =>
      have hnone := h'.guards hx' hk
      cases hblk : b.block? k with
      | none => rfl
      | some blk =>
        have := h.block (k := k) (by rw [hblk]; rfl)
        rw [hnone] at this
        cases this
  slotted hb := h'.slotted (h.slotted hb)
  blockTree hb := h'.blockTree (h.blockTree hb)

/-- Guards stand as long as they did. -/
theorem stands_guard (h : Advances b b') (hk : k ∈ b.guardedBlocks x) : b'.stands x = b.stands x := by
  cases hop : b.op? x with
  | none => simp [Body.guardedBlocks, hop] at hk
  | some op =>
    obtain ⟨op', hop', hp⟩ := h.op? hop
    rw [guardedBlocks_eq hop] at hk
    rw [stands_eq, stands_eq, hop, hop', Option.any_some, Option.any_some,
      hp.guard (List.ne_nil_of_mem hk)]

/-- What is erased stays erased. -/
theorem stands_back (h : Advances b b') (hx : (b.op? x).isSome) (hs : b'.stands x) : b.stands x := by
  obtain ⟨op, hop⟩ := Option.isSome_iff_exists.1 hx
  obtain ⟨op', hop', hp⟩ := h.op? hop
  rw [stands_eq, hop', Option.any_some, Bool.not_eq_true'] at hs
  rw [stands_eq, hop, Option.any_some, Bool.not_eq_true']
  cases he : op.erased with
  | false => rfl
  | true => rw [hp.erased he] at hs; cases hs

theorem liesIn (h : Advances b b') (hx : b.LiesIn x k) : b'.LiesIn x k := by
  obtain ⟨op, hop, rfl⟩ := hx
  obtain ⟨op', hop', hp⟩ := h.op? hop
  exact ⟨op', hop', hp.block⟩

end Advances

/-! ## Blocks below a block -/

/-- A standing operation of the one block guards the other. -/
def Opens (b : Body) (k k' : BlockId) : Prop := ∃ g ∈ b.live k, k' ∈ b.guardedBlocks g

theorem Opens.isSome (h : b.Opens k k') : (b.block? k).isSome := by
  obtain ⟨g, hg, -⟩ := h
  obtain ⟨blk, hblk⟩ := exists_block_of_mem_slotsOf (mem_live.1 hg).1
  rw [hblk]
  rfl

theorem isSome_of_mem_guardedBlocks (h : k ∈ b.guardedBlocks g) : (b.op? g).isSome := by
  cases hop : b.op? g with
  | none => simp [Body.guardedBlocks, hop] at h
  | some op => rfl

namespace Advances

theorem opens (h : Advances b b') (ho : b.Opens k k') : b'.Opens k k' := by
  obtain ⟨g, hg, hk'⟩ := ho
  obtain ⟨hs, hst⟩ := mem_live.1 hg
  refine ⟨g, mem_live.2 ⟨(h.slots k).subset hs, ?_⟩, ?_⟩
  · rwa [h.stands_guard hk']
  · rwa [h.guardedBlocks (isSome_of_mem_guardedBlocks hk')]

theorem below (h : Advances b b') (hb : ReflTransGen b.Opens k k') : ReflTransGen b'.Opens k k' :=
  hb.lift id fun _ _ => h.opens

theorem opens_back (h : Advances b b') (ho : b'.Opens k k') (hk' : (b.block? k').isSome) : b.Opens k k' := by
  obtain ⟨g, hg, hmem⟩ := ho
  obtain ⟨hs, hst⟩ := mem_live.1 hg
  -- a new operation would guard a new block
  have hold : (b.op? g).isSome := by
    cases hop : b.op? g with
    | some op => rfl
    | none =>
      rw [h.guards hop hmem] at hk'
      cases hk'
  exact ⟨g, mem_live.2 ⟨h.back hold hs, h.stands_back hold hst⟩, h.guardedBlocks hold ▸ hmem⟩

/-- No new way leads to an old block. -/
theorem below_back (h : Advances b b') (hb : ReflTransGen b'.Opens k k') (hk' : (b.block? k').isSome) :
    ReflTransGen b.Opens k k' := by
  induction hb using ReflTransGen.head_induction_on with
  | refl => exact .refl
  | head ho hrest ih =>
    refine .head (h.opens_back ho ?_) ih
    rcases ReflTransGen.cases_head ih with rfl | ⟨_, ho', -⟩
    · exact hk'
    · exact ho'.isSome

end Advances

/-! ## Blocks nested like a tree -/

section Tree

variable {k₁ k₂ : BlockId}

theorem BlockTree.index_lt (h : b.BlockTree) (hs : b.Slotted) (ho : b.Opens k k₁) : k.index < k₁.index := by
  obtain ⟨g, hg, hk⟩ := ho
  exact (h.later (hs.lies (mem_live.1 hg).1) hk).1

theorem BlockTree.index_le (h : b.BlockTree) (hs : b.Slotted) (hm : ReflTransGen b.Opens k m) : k.index ≤ m.index := by
  induction hm with
  | refl => exact Nat.le_refl _
  | tail _ ho ih => exact Nat.le_trans ih (Nat.le_of_lt (h.index_lt hs ho))

theorem BlockTree.opens_unique (h : b.BlockTree) (hs : b.Slotted) (h₁ : b.Opens k₁ m) (h₂ : b.Opens k₂ m) :
    k₁ = k₂ := by
  obtain ⟨g₁, hg₁, hm₁⟩ := h₁
  obtain ⟨g₂, hg₂, hm₂⟩ := h₂
  obtain rfl := h.owner hm₁ hm₂
  exact (hs.lies (mem_live.1 hg₁).1).unique (hs.lies (mem_live.1 hg₂).1)

/-- Nothing lies below two blocks right below the same block. -/
theorem BlockTree.apart (h : b.BlockTree) (hs : b.Slotted) (h₁ : b.Opens k k₁) (h₂ : b.Opens k k₂) (hne : k₁ ≠ k₂)
    (hm₁ : ReflTransGen b.Opens k₁ m) (hm₂ : ReflTransGen b.Opens k₂ m) : False := by
  -- of two blocks above a block, one is above the other
  have hunique : Relator.RightUnique (Function.swap b.Opens) := fun _ _ _ ha hb => h.opens_unique hs ha hb
  have hnot : ∀ {k₁ k₂}, b.Opens k k₁ → b.Opens k k₂ → k₁ ≠ k₂ → ¬ReflTransGen b.Opens k₁ k₂ := by
    intro k₁ k₂ h₁ h₂ hne hr
    rcases ReflTransGen.cases_tail hr with he | ⟨y, hy, ho⟩
    · exact hne he.symm
    · obtain rfl := h.opens_unique hs ho h₂
      have := h.index_lt hs h₁
      have := h.index_le hs hy
      omega
  rcases ReflTransGen.total_of_right_unique hunique (reflTransGen_swap.2 hm₁) (reflTransGen_swap.2 hm₂) with hr | hr
  · exact hnot h₂ h₁ hne.symm (reflTransGen_swap.1 hr)
  · exact hnot h₁ h₂ hne (reflTransGen_swap.1 hr)

end Tree

/-! ## Bodies that are formed -/

/-- Every edit leaves operations in their blocks, guards that are erased included. -/
theorem Edit.slotted (he : b.Edit b') (h : b.Slotted) : b'.Slotted := by
  cases he with
  | insertArgument he => exact ((insertArgument_ends (nofun : False → _)).of_ok he).1.quiet.slotted h
  | removeArgument he => exact ((removeArgument_ends (nofun : False → _)).of_ok he).1.quiet.slotted h
  | create hk he =>
    obtain ⟨b, hc, hs⟩ := (Build.create_any hk _ _).of_ok he
    obtain rfl := congrArg Builder.body hs
    exact hc.advances.slotted h
  | call c he =>
    rcases (Build.Call.run_ends c).of_ok he with ⟨_, _, _, _, _, hc, -⟩ | hs
    · exact hc.advances.slotted h
    · exact (show _ = _ from hs) ▸ h
  | declare => exact (quiet_modifyDecl _ _ _).slotted h
  | dropOperands he => exact (dropOperands_quiet.of_ok he).slotted h
  | replaceAllUses he => exact (replaceAllUses_quiet.of_ok he).slotted h
  | @eraseOp _ _ o he =>
    have hends : Ends False (b.eraseOp o) Slotted := by
      unfold Body.eraseOp
      refine .bind_ok fun read _ => ?_
      split
      · exact .throw id
      refine Ends.foldlM (fun _ b => b.Slotted) _ h fun _ _ _ b₁ _ hb₁ =>
        (discard_ends (nofun : False → _)).mono fun b₂ hd => ?_
      have ho := hd.outlives rfl
      refine hb₁.of_sublist (fun {x k} => ?_) fun k => by simp [slotsOf, ho.block?]
      rintro ⟨op, hop, rfl⟩
      obtain ⟨op', hop', -, -, hblk, -⟩ := ho.op?_some hop
      exact ⟨op', hop', hblk⟩
    exact hends.of_ok he
  | compact =>
    refine h.of_sublist id fun k => ?_
    rw [slotsOf_compact]
    exact List.filter_sublist

/-- A new operation may guard any blocks. -/
theorem Inserted.slotted {i : Nat} {kind : OpKind} {vs : List ValueId} {tys : List Ty} (hb : b.Slotted)
    (h : Inserted b k i kind vs tys o b') : b'.Slotted := by
  obtain ⟨blk, hblk, hi⟩ := h.place
  have hlen : (blk.slots.take i).length = i := List.length_take_of_le hi
  refine hb.joined (A := blk.slots.take i) (B := blk.slots.drop i) h.toJoined ?_ ?_ fun m hm => ?_
  · rw [slotsOf_eq hblk, List.take_append_drop]
  · have hblk' := h.block? k
    simp only [hblk, Option.map_some, if_true] at hblk'
    rw [slotsOf_eq hblk', ← insertIdx_append, List.take_append_drop, hlen]
  · simp only [Body.slotsOf, h.block?, if_neg hm, Option.map_id']

/-- Every body that is formed lists operations where they were made, whatever blocks its guards name. -/
theorem Formed.slotted (h : b.Formed) : b.Slotted := by
  induction h with
  | empty =>
    have hs : ∀ k, ({} : Body).slotsOf k = [] := fun ⟨i⟩ => by cases i <;> rfl
    exact ⟨fun {x k} hx => by simp [hs k] at hx, fun k => by simp [hs k]⟩
  | edit _ he ih => exact he.slotted ih
  | @create s _ kind vs tys o _ he ih =>
    have hends : Runs False (Build.create kind vs tys) s fun _ s' => s'.body.Slotted :=
      Ends.bind (insertOp_ends (nofun : False → _)) fun r hr => .pure (hr.slotted ih)
    exact hends.of_ok he
  | @block b _ parent ih =>
    have hs : ∀ k, (b.createBlock parent).2.slotsOf k = b.slotsOf k := fun k => by
      simp only [createBlock, slotsOf, block?, Array.getElem?_push]
      split
      next hk => simp [hk]
      next => rfl
    exact ih.of_sublist id fun k => by rw [hs k]

end Body

end Scalarize
