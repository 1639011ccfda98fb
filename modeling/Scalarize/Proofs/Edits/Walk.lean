import Scalarize.Proofs.Body.Walked
import Scalarize.Proofs.Edits.Step
import Scalarize.Proofs.InFront
import Scalarize.Proofs.Walk

/-!
# Properties kept throughout the walk

* `Body.Edited` : what edits leave of a body;
* `Events` : what is known of a property of bodies and symbols that every edit keeps; `Events.edits`;
* `Body.Tidy`, `Body.Tidy.stages` : every block is walked from its last operation to its first, whatever
  the types of operations are;
* `Stages.refine` : a property that every step keeps holds throughout the walk;
* `KeptBySteps` : such a property of bodies and symbols alone.
-/

namespace Scalarize

open Body Lower

/-! ## Edited bodies -/

/-- Operations keep their kinds, results and blocks, and values their types; what is erased stays so. -/
structure Body.Edited (b₀ b : Body) : Prop where
  coherent : b.Coherent
  op? : ∀ {x op}, b₀.op? x = some op → ∃ op', b.op? x = some op' ∧ op'.kind = op.kind ∧
    op'.results = op.results ∧ op'.block = op.block ∧ (op.erased → op'.erased)
  ty? : ∀ {v t}, b₀.ty? v = some t → b.ty? v = some t

namespace Body.Edited

variable {b₀ b b' : Body} {x : OpId} {v w : ValueId} {p : Point} {kind : OpKind} {vs : List ValueId}
  {tys : List Ty}

theorem refl (hb : b.Coherent) : Edited b b where
  coherent := hb
  op? h := ⟨_, h, rfl, rfl, rfl, id⟩
  ty? h := h

theorem outlives (h : Edited b₀ b) (hb : b'.Coherent) (hout : Outlives b b') : Edited b₀ b' where
  coherent := hb
  op? hx := by
    obtain ⟨op₁, hop₁, hk, hr, hb, he⟩ := h.op? hx
    obtain ⟨op₂, hop₂, hk', hr', hb', he'⟩ := hout.op?_some hop₁
    exact ⟨op₂, hop₂, hk'.trans hk, hr'.trans hr, hb'.trans hb, fun h => he' (he h)⟩
  ty? hv := by rw [hout.ty?, h.ty? hv]

theorem created (h : Edited b₀ b) (hc : Created b p kind vs tys x b') : Edited b₀ b' where
  coherent := h.coherent.created hc
  op? hx := by
    obtain ⟨op₁, hop₁, hrest⟩ := h.op? hx
    exact ⟨op₁, hc.op?_old hop₁, hrest⟩
  ty? hv := hc.extended.ty?_some (h.ty? hv)

theorem op?_fresh (h : Edited b₀ b) (hc : Created b p kind vs tys x b') : b₀.op? x = none := by
  cases hx : b₀.op? x with
  | none => rfl
  | some op =>
    obtain ⟨op', hop', -⟩ := h.op? hx
    rw [hc.fresh] at hop'
    cases hop'

/-- The declaration of a new operation may change. -/
theorem declared (h : Edited b₀ b) (hx : b₀.op? x = none) (f : Decl → Decl) :
    Edited b₀ (b.modifyDecl x f) where
  coherent := h.coherent.modifyDecl x f
  op? {x'} op hx' := by
    obtain ⟨op₁, hop₁, hrest⟩ := h.op? hx'
    refine ⟨op₁, ?_, hrest⟩
    have hne : x' ≠ x := by
      rintro rfl
      rw [hx] at hx'
      cases hx'
    rw [op?_modifyDecl, hop₁, Option.map_some, if_neg hne]
  ty? hv := by rw [ty?_modifyDecl, h.ty? hv]

theorem replaced (h : Edited b₀ b) (hr : Replaced b v w b') (hv : (b.value? v).isSome)
    (hw : (b.value? w).isSome) (hne : v ≠ w) : Edited b₀ b' :=
  h.outlives (h.coherent.replaced hr hv hw hne) hr.outlives

theorem dropped (h : Edited b₀ b) {f : Bool → Bool} (hf : f true = true) (hd : Dropped b x f b') :
    Edited b₀ b' :=
  h.outlives (h.coherent.dropped hf hd) (hd.outlives hf)

theorem trans (h : Edited b₀ b) (h' : Edited b b') : Edited b₀ b' where
  coherent := h'.coherent
  op? hx := by
    obtain ⟨op₁, hop₁, hk, hr, hb, he⟩ := h.op? hx
    obtain ⟨op₂, hop₂, hk', hr', hb', he'⟩ := h'.op? hop₁
    exact ⟨op₂, hop₂, hk'.trans hk, hr'.trans hr, hb'.trans hb, fun h => he' (he h)⟩
  ty? hv := h'.ty? (h.ty? hv)

theorem stands (h : Edited b₀ b) (hs : b.stands x) (hold : (b₀.op? x).isSome) : b₀.stands x := by
  obtain ⟨op₀, hop₀⟩ := Option.isSome_iff_exists.1 hold
  obtain ⟨op, hop, -, -, -, he⟩ := h.op? hop₀
  rw [stands_eq, hop] at hs
  rw [stands_eq, hop₀]
  cases he₀ : op₀.erased with
  | false => simp [he₀]
  | true => simp [he he₀] at hs

/-- An operation that is not new stands where it stood. -/
theorem mem_slotsOf (h : Edited b₀ b) (hb : b₀.Coherent) {k : BlockId} (hx : x ∈ b.slotsOf k)
    (hs : b.stands x) (hold : (b₀.op? x).isSome) : x ∈ b₀.slotsOf k := by
  obtain ⟨op₀, hop₀⟩ := Option.isSome_iff_exists.1 hold
  obtain ⟨op, hop, -, -, hblock, he⟩ := h.op? hop₀
  obtain ⟨op', hop', rfl⟩ := h.coherent.op?_of_mem_slotsOf hx
  obtain rfl := Option.some.inj (hop.symm.trans hop')
  have hs₀ := h.stands hs hold
  rw [stands_eq, hop₀] at hs₀
  rw [hblock]
  exact hb.mem_slotsOf hop₀ (by simpa using hs₀)

/-- An operation that is not new is walked only if it was walked before. -/
theorem walked (h : Edited b₀ b) (hb : b₀.Coherent) (hx : b.Walked x)
    (hold : (b₀.op? x).isSome) : b₀.Walked x := by
  induction hx with
  | entry hx hs => exact .entry (h.mem_slotsOf hb hx hs hold) (h.stands hs hold)
  | @inner g x _ hx hs ih =>
    obtain ⟨k, hk, hx⟩ := mem_inner_iff.1 hx
    have hx₀ := h.mem_slotsOf hb hx hs hold
    -- the block is guarded by the same operation as before
    obtain ⟨blk, hblk⟩ := exists_block_of_mem_slotsOf hx₀
    have hentry : k ≠ Body.entry := by
      rintro rfl
      exact h.coherent.not_mem_inner_entry hx (mem_inner_iff.2 ⟨_, hk, hx⟩)
    obtain ⟨g₀, hg₀⟩ := Option.isSome_iff_exists.1 (hb.guarded hblk hentry)
    obtain ⟨opg, hopg, hmem⟩ := hb.parent hblk hg₀
    obtain ⟨opg', hopg', hkind, -⟩ := h.op? hopg
    obtain rfl : g = g₀ := h.coherent.guard_unique hk (by rwa [guardedBlocks_eq hopg', hkind])
    refine .inner (ih (by simp [hopg])) (mem_inner_iff.2 ⟨k, ?_, hx₀⟩) (h.stands hs hold)
    rwa [guardedBlocks_eq hopg]

end Body.Edited

/-! ## Events -/

/-- A property `S` of bodies and their symbols, with the parts that were made so far, that every edit
keeps by which the operation `op`, with number `o` in `b₀`, is lowered by one layer. -/
structure Events (cx : Context) (b₀ : Body) (o : OpId) (op : Operation)
    (S : List Part → Body → Symbols → Prop) : Prop where
  create : ∀ {ps b y kind vs tys p x b'}, b₀.Edited b → S ps b y → kind.Plain →
    Created b p kind vs tys x b' → S ps b' y
  guard : ∀ {ps b y k cond p x b'}, b₀.Edited b → S ps b y →
    Created b p (.when k none) [cond] [] x b' → S ps b' y
  part : ∀ {ps ps' rest b y kind vs ty p x b' part r}, b₀.Edited b → S ps b y →
    b₀.Divides cx.options.preserveAggregate op ps' → ps' = ps ++ part :: rest → b.Copies op part kind ty → Created b p kind vs [ty] x b' →
    restrict (op.kind.decl?.getD {}).annotations part = .ok r →
    S (ps ++ [part]) (b'.modifyDecl x fun _ => ((op.kind.decl?.getD {}).forPart part r y x).1)
      ((op.kind.decl?.getD {}).forPart part r y x).2
  memory : ∀ {ps ps' rest b y m part m' p x b'}, b₀.Edited b → S ps b y → op.kind = .mem m →
    b₀.Divides cx.options.preserveAggregate op ps' → ps' = ps ++ part :: rest → m.narrow part = .ok m' →
    Created b p (.mem m') [] m'.portTypes x b' →
    S (ps ++ [part]) (m.forPart part y x b').1 (m.forPart part y x b').2
  inst : ∀ {y i entry splits p x b'}, S [] b₀ y → op.kind = .inst i →
    cx.modules.get? i.moduleName = some entry →
    List.Forall₂ (b₀.Splits (cx.options.portsMayPreserve entry)) (i.ports.zip op.results) splits →
    Created b₀ p (.inst (i.split splits (i.renamed splits y).1)) [] (splits.flatMap (·.2.types)) x b' →
    ∀ part, S [part] b' (i.renamed splits y).2
  replace : ∀ {ps b y v w b'}, b₀.Edited b → S ps b y → Replaced b v w b' → S ps b' y
  drop : ∀ {ps b y x f b'}, b₀.Edited b → S ps b y → f true = true →
    (f false = true → x ≠ o → ∀ op, b.op? x = some op → op.kind.isAccessor = true) →
    Dropped b x f b' → S ps b' y

/-- A property of bodies and their symbols is kept, and so is what edits leave of the body. -/
theorem Events.edits {cx : Context} {b₀ : Body} {o : OpId} {op : Operation}
    {S : List Part → Body → Symbols → Prop} (h : Events cx b₀ o op S) (hb : b₀.Coherent)
    (hop : b₀.op? o = some op) : Edits cx b₀ o op
      (fun ps t => b₀.Edited t.builder.body ∧ S ps t.builder.body t.symbols)
      (fun ps _ t => b₀.Edited t.builder.body ∧ S ps t.builder.body t.symbols)
      (fun _ _ => True) (fun _ _ => True) where
  sight := .blind
  coherent₀ := hb
  op? := hop
  coherent hJ := hJ.1.coherent
  coherentIn hG := hG.1.coherent
  persists hJ _ _ hx := by
    obtain ⟨op', hop', hk, hr, -⟩ := hJ.1.op? hx
    exact ⟨op', hop', hk, hr⟩
  ty? hJ hv := hJ.1.ty? hv
  create hJ hk _ hc := ⟨hJ.1.created hc, h.create hJ.1 hJ.2 hk hc⟩
  createIn hG hk _ hc := ⟨hG.1.created hc, h.create hG.1 hG.2 hk hc⟩
  enter hJ _ hc := ⟨hJ.1.created hc, h.guard hJ.1 hJ.2 hc⟩
  leave hG := hG
  part hJ hd hps hcopies _ hc hr :=
    ⟨(hJ.1.created hc).declared (hJ.1.op?_fresh hc) _, h.part hJ.1 hJ.2 hd hps hcopies hc hr⟩
  memory {_ _ _ _ m _ _ _ _} hJ hk hd hps hm hc := by
    refine ⟨?_, h.memory hJ.1 hJ.2 hk hd hps hm hc⟩
    unfold Memory.forPart
    cases m.decl.sym with
    | none => exact hJ.1.created hc
    | some base => exact (hJ.1.created hc).declared (hJ.1.op?_fresh hc) _
  inst hJ hb hk he hs hc part := ⟨hJ.1.created hc, h.inst (hb ▸ hJ.2) hk he hs (hb ▸ hc) part⟩
  replace hJ hne hv hw _ _ hr := ⟨hJ.1.replaced hr hv hw hne, h.replace hJ.1 hJ.2 hr⟩
  drop hJ hf hx _ hd := ⟨hJ.1.dropped hf hd, h.drop hJ.1 hJ.2 hf (fun _ hne => (hx hne).2) hd⟩

/-! ## The walk -/

/-- Since `b₀`, the operations `N` were made, in this order, and no guard was erased. -/
structure Body.Grown (b₀ : Body) (N : List OpId) (b : Body) : Prop where
  edited : b₀.Edited b
  nodup : N.Nodup
  sorted : N.Pairwise fun x x' => x.index < x'.index
  recent : ∀ {x}, b₀.op? x = none → (b.op? x).isSome → x ∈ N
  guards : ∀ {x op}, b.op? x = some op → op.erased → op.kind.blocks ≠ [] →
    ∃ op₀, b₀.op? x = some op₀ ∧ op₀.erased

namespace Body.Grown

variable {b₀ b b' : Body} {N : List OpId} {x : OpId} {v w : ValueId} {p : Point} {kind : OpKind}
  {vs : List ValueId} {tys : List Ty}

theorem refl (hb : b.Coherent) : Grown b [] b where
  edited := .refl hb
  nodup := .nil
  sorted := .nil
  recent hx hx' := by rw [hx] at hx'; cases hx'
  guards hx he _ := ⟨_, hx, he⟩

theorem created (h : Grown b₀ N b) (hN : ∀ x ∈ N, (b.op? x).isSome)
    (hc : Created b p kind vs tys x b') : Grown b₀ (N ++ [x]) b' where
  edited := h.edited.created hc
  nodup := by
    refine List.nodup_append.2 ⟨h.nodup, List.nodup_singleton x, fun a ha c hc' => ?_⟩
    rintro rfl
    rw [List.mem_singleton.1 hc'] at ha
    have := hN x ha
    rw [hc.fresh] at this
    cases this
  sorted := by
    refine List.pairwise_append.2 ⟨h.sorted, List.pairwise_singleton _ _, fun x' hx' y hy => ?_⟩
    rw [List.mem_singleton.1 hy, hc.id]
    exact isSome_op?.1 (hN x' hx')
  recent {x'} hx hx' := by
    rw [List.mem_append, List.mem_singleton]
    rw [hc.op?] at hx'
    split at hx'
    next he => exact .inr he
    next => exact .inl (h.recent hx hx')
  guards hx he hk := by
    rcases hc.op?_cases hx with hx | ⟨-, rfl⟩
    · exact h.guards hx he hk
    · cases he

theorem declared (h : Grown b₀ N b) (hx : b₀.op? x = none) (f : Decl → Decl) :
    Grown b₀ N (b.modifyDecl x f) where
  edited := h.edited.declared hx f
  nodup := h.nodup
  sorted := h.sorted
  recent hx' hx'' := h.recent hx' (by rwa [op?_modifyDecl, Option.isSome_map] at hx'')
  guards hx' he hk := by
    obtain ⟨kind, hop, hbare⟩ := op?_of_modifyDecl hx'
    exact h.guards hop he (by rwa [OpKind.blocks_eq_of_bare_eq hbare])

theorem replaced (h : Grown b₀ N b) (hr : Replaced b v w b') (he : b₀.Edited b') : Grown b₀ N b' where
  edited := he
  nodup := h.nodup
  sorted := h.sorted
  recent hx hx' := h.recent hx (by rwa [hr.op?, Option.isSome_map] at hx')
  guards {x op} hx hex hk := by
    rw [hr.op?] at hx
    obtain ⟨op', hop', rfl⟩ := Option.map_eq_some_iff.1 hx
    exact h.guards hop' hex hk

theorem dropped (h : Grown b₀ N b) {f : Bool → Bool} (hd : Dropped b x f b') (he : b₀.Edited b')
    (hx : f false = true → ∀ op, b.op? x = some op → op.kind.blocks = []) : Grown b₀ N b' where
  edited := he
  nodup := h.nodup
  sorted := h.sorted
  recent hx hx' := h.recent hx (by rwa [hd.op?, Option.isSome_map] at hx')
  guards {x' op} hx' hex hk := by
    rw [hd.op?] at hx'
    obtain ⟨op', hop', rfl⟩ := Option.map_eq_some_iff.1 hx'
    by_cases heq : x' = x
    · subst heq
      rw [if_pos rfl] at hex hk
      refine h.guards hop' ?_ hk
      cases he' : op'.erased with
      | true => rfl
      | false =>
        simp only [he'] at hex
        exact absurd (hx hex op' hop') hk
    · rw [if_neg heq] at hex hk
      exact h.guards hop' hex hk

theorem guardsStay (h : Grown b₀ N b) : b₀.GuardsStay b := by
  refine ⟨fun {x op} hop hk he => ?_⟩
  obtain ⟨op', hop', hkind, -, hblock, -⟩ := h.edited.op? hop
  refine ⟨op', hop', by rw [hkind], hblock, ?_⟩
  cases he' : op'.erased with
  | false => rfl
  | true =>
    obtain ⟨op₀, hop₀, he₀⟩ := h.guards hop' he' (hkind ▸ hk)
    rw [Option.some.inj (hop.symm.trans hop₀), he₀] at he
    cases he

end Body.Grown

/-- Operations are pending or done, each once, and `E` are the guards that are erased. -/
structure Body.Tidy (E : OpId → Prop) (b : Body) (P D : List OpId) : Prop where
  coherent : b.Coherent
  nodup : (P ++ D).Nodup
  known : ∀ x ∈ P ++ D, (b.op? x).isSome
  guards : ∀ {x op}, b.op? x = some op → op.kind.blocks ≠ [] → (op.erased ↔ E x)
  past : ∀ {x}, E x → (b.op? x).isSome

namespace Body.Tidy

variable {cx : Context} {E : OpId → Prop} {b₀ b : Body} {P D : List OpId} {o : OpId} {op : Operation} {k : BlockId}
  {A B : List OpId} {t : LowerState}

/-- In front of `o`, in block `k` between `A` and `B`, operations were made. -/
def Front (b₀ : Body) (o : OpId) (k : BlockId) (A B : List OpId) (_ : List Part) (t : LowerState) :
    Prop :=
  ∃ H N, InFront b₀ k A (o :: B) H N t.builder ∧ b₀.Grown N t.builder.body

/-- The last of the operations in front of `o` is a guard, and operations are made in its block. -/
def Inside (b₀ : Body) (o : OpId) (k : BlockId) (A B : List OpId) (_ : List Part) (p : Point)
    (t : LowerState) : Prop :=
  ∃ H w kt N G NG, InGuard b₀ k A (o :: B) H w kt N G NG t.builder ∧
    b₀.Grown (N ++ w :: NG) t.builder.body ∧ p = ⟨k, (A ++ (H ++ [w])).length⟩

theorem Front.fresh {ps : List Part} (h : Front b₀ o k A B ps t) {p : Point} {kind : OpKind}
    {vs : List ValueId} {tys : List Ty} {x : OpId}
    (hc : Created t.builder.body p kind vs tys x b) : b₀.op? x = none := by
  obtain ⟨H, N, -, hg⟩ := h
  exact hg.edited.op?_fresh hc

theorem Front.created {ps : List Part} (h : Front b₀ o k A B ps t) {kind : OpKind}
    {vs : List ValueId} {tys : List Ty} {x : OpId}
    (hc : Created t.builder.body t.builder.point kind vs tys x b) (ps' : List Part) (y : Symbols) :
    Front b₀ o k A B ps' ⟨t.builder.after b, y⟩ := by
  obtain ⟨H, N, hH, hg⟩ := h
  refine ⟨H ++ [x], N ++ [x], ?_, hg.created hH.known hc⟩
  have := hH.created hg.edited.coherent hc
  rw [← List.append_assoc, List.length_append] at this
  unfold Builder.after
  rw [hH.point]
  exact this

theorem Front.declared {ps : List Part} {y : Symbols} {s : Builder} (h : Front b₀ o k A B ps ⟨s, y⟩)
    {x : OpId} (hx : b₀.op? x = none) (f : Decl → Decl) (y' : Symbols) :
    Front b₀ o k A B ps ⟨⟨s.body.modifyDecl x f, s.point⟩, y'⟩ := by
  obtain ⟨H, N, hH, hg⟩ := h
  exact ⟨H, N, hH.declared f, hg.declared hx f⟩

theorem Inside.created {ps : List Part} {p : Point} (h : Inside b₀ o k A B ps p t) {kind : OpKind}
    {vs : List ValueId} {tys : List Ty} {x : OpId}
    (hc : Created t.builder.body t.builder.point kind vs tys x b) :
    Inside b₀ o k A B ps p ⟨t.builder.after b, t.symbols⟩ := by
  obtain ⟨H, w, kt, N, G, NG, hG, hg, hp⟩ := h
  refine ⟨H, w, kt, N, G ++ [x], NG ++ [x], ?_, ?_, hp⟩
  · have := hG.created hg.edited.coherent hg.nodup hc
    rw [List.length_append] at this
    unfold Builder.after
    rw [hG.point]
    exact this
  · have := hg.created hG.outer.known hc
    rwa [List.append_assoc, List.cons_append] at this

theorem edits (hb : b₀.Coherent) (hop : b₀.op? o = some op) (hblocks : op.kind.blocks = []) :
    Edits cx b₀ o op (Front b₀ o k A B) (Inside b₀ o k A B) (fun _ _ => True) (fun _ _ => True) where
  sight := .blind
  coherent₀ := hb
  op? := hop
  coherent := fun ⟨_, _, _, hg⟩ => hg.edited.coherent
  coherentIn := fun ⟨_, _, _, _, _, _, _, hg, _⟩ => hg.edited.coherent
  persists := fun ⟨_, _, _, hg⟩ _ _ hx => by
    obtain ⟨op', hop', hk, hr, -⟩ := hg.edited.op? hx
    exact ⟨op', hop', hk, hr⟩
  ty? := fun ⟨_, _, _, hg⟩ hv => hg.edited.ty? hv
  create hJ _ _ hc := hJ.created hc _ _
  createIn hG _ _ hc := hG.created hc
  enter := fun ⟨H, N, hH, hg⟩ _ hc => by
    refine ⟨H, _, _, N, [], [], InGuard.start hH hg.edited.coherent hc, hg.created hH.known hc, ?_⟩
    simp [hH.point, List.length_append, Nat.add_assoc]
  leave := fun ⟨_, _, _, _, _, _, hG, hg, hp⟩ => ⟨_, _, hp ▸ hG.outer, hg⟩
  part {_ _ _ t _ _ _ _ _ _ _} hJ _ _ _ _ hc _ := (hJ.created hc _ t.symbols).declared (hJ.fresh hc) _ _
  memory {_ _ _ t m _ _ _ _} hJ _ _ _ _ hc := by
    unfold Memory.forPart
    cases m.decl.sym with
    | none => exact hJ.created hc _ _
    | some base => exact (hJ.created hc _ t.symbols).declared (hJ.fresh hc) _ _
  inst hJ _ _ _ _ hc _ := hJ.created hc _ _
  replace := fun ⟨H, N, hH, hg⟩ hne hv hw _ _ hr =>
    ⟨H, N, hH.outlives hr.outlives, hg.replaced hr (hg.edited.replaced hr hv hw hne)⟩
  drop {_ t x _ _} := fun ⟨H, N, hH, hg⟩ hf hx _ hd => by
    refine ⟨H, N, hH.outlives (hd.outlives hf), hg.dropped hd (hg.edited.dropped hf hd) ?_⟩
    intro hf' opx hopx
    by_cases hxo : x = o
    · subst hxo
      obtain ⟨op', hop', hk, -⟩ := hg.edited.op? hop
      rw [Option.some.inj (hopx.symm.trans hop'), hk, hblocks]
    · exact OpKind.blocks_of_isAccessor ((hx hxo).2 opx hopx)

/-- What holds between two steps. -/
def stage (E : OpId → Prop) : Stage := fun b _ _ P D => b.Tidy E P D

/-- What is pending may be done, in any order. -/
theorem perm {P' D' : List OpId} (h : b.Tidy E P D) (hP : (P ++ D).Perm (P' ++ D')) :
    b.Tidy E P' D' where
  coherent := h.coherent
  nodup := hP.nodup_iff.1 h.nodup
  known x hx := h.known x (hP.mem_iff.2 hx)
  guards := h.guards
  past := h.past

/-- What a step leaves behind is tidy, with the operations that it made pending. -/
theorem stepped (h : b₀.Tidy E (P ++ [o]) D) {N : List OpId} (hg : b₀.Grown N b)
    (hfresh : ∀ x ∈ N, b₀.op? x = none) (hknown : ∀ x ∈ N, (b.op? x).isSome) :
    b.Tidy E (P ++ N) (o :: D) where
  coherent := hg.edited.coherent
  nodup := by
    have hnd := h.nodup
    have hdisjoint : ∀ x ∈ N, x ∉ P ++ [o] ++ D := fun x hx hx' => by
      have := h.known x hx'
      rw [hfresh x hx] at this
      cases this
    have := hg.nodup
    simp only [List.append_assoc, List.singleton_append] at hnd hdisjoint
    simp only [List.append_assoc]
    rw [List.nodup_append] at hnd ⊢
    refine ⟨hnd.1, List.nodup_append.2 ⟨this, hnd.2.1, fun x hx y hy hxy => ?_⟩, fun x hx y hy hxy => ?_⟩
    · exact hdisjoint x hx (List.mem_append_right _ (hxy ▸ hy))
    · rcases List.mem_append.1 hy with hy | hy
      · exact hdisjoint y hy (List.mem_append_left _ (hxy ▸ hx))
      · exact hnd.2.2 x hx y hy hxy
  known x hx := by
    by_cases hN : x ∈ N
    · exact hknown x hN
    · have hx' : x ∈ P ++ [o] ++ D := by
        simp only [List.mem_append, List.mem_cons, List.not_mem_nil, or_false] at hx ⊢
        tauto
      obtain ⟨op', hop'⟩ := Option.isSome_iff_exists.1 (h.known x hx')
      obtain ⟨op'', hop'', -⟩ := hg.edited.op? hop'
      rw [hop'']
      rfl
  guards {x opx} hx hk := by
    constructor
    · intro he
      obtain ⟨op₀, hop₀, he₀⟩ := hg.guards hx he hk
      obtain ⟨op', hop', hkind, -⟩ := hg.edited.op? hop₀
      obtain rfl := Option.some.inj (hx.symm.trans hop')
      exact (h.guards hop₀ (hkind ▸ hk)).1 he₀
    · intro he
      obtain ⟨op₀, hop₀⟩ := Option.isSome_iff_exists.1 (h.past he)
      obtain ⟨op', hop', hkind, -, -, her⟩ := hg.edited.op? hop₀
      obtain rfl := Option.some.inj (hx.symm.trans hop')
      exact her ((h.guards hop₀ (hkind ▸ hk)).2 he)
  past {x} he := by
    obtain ⟨op₀, hop₀⟩ := Option.isSome_iff_exists.1 (h.past he)
    obtain ⟨op', hop', -⟩ := hg.edited.op? hop₀
    rw [hop']
    rfl

/-- An operation, other than a guard, is lowered by one layer. -/
theorem step_runs (h : t.builder.body.Tidy E (P ++ [o]) D) (hop : t.builder.body.op? o = some op)
    (hblocks : op.kind.blocks = []) (hs : t.builder.body.slotsOf k = A ++ o :: B) (hp : t.builder.point = ⟨k, A.length⟩)
    (R : OpId → Nat) : Runs False (Lower.step cx o op.kind) t
      (Stepped False (stage E) t.builder.body R k A o B P D) := by
  have hk : (t.builder.body.block? k).isSome := by
    obtain ⟨blk, hblk⟩ := exists_block_of_mem_slotsOf (o := o) (b := t.builder.body) (k := k) (by simp [hs])
    rw [hblk]
    rfl
  have hstart : Front t.builder.body o k A B [] t :=
    ⟨[], [], InFront.start h.coherent hs hk hp, .refl h.coherent⟩
  refine ((edits h.coherent hop hblocks).step_runs hstart rfl).mono fun replaced t' hout => ?_
  cases replaced with
  | false =>
    obtain rfl := hout.same rfl
    refine ⟨[], [], R, by simpa using hs, .nil, .refl _ _ _, by simp, fun _ _ => rfl, False.elim, ?_⟩
    exact .ok ⟨.refl _, h.perm (by simp)⟩
  | true =>
    obtain ⟨ps, ⟨H, N, hH, hg⟩, -⟩ := hout.parts rfl
    refine ⟨H, N, R, hH.slots, hH.unfolds, hH.untouched, hH.fresh, fun _ _ => rfl, False.elim, ?_⟩
    have hplain : ∀ op', t'.builder.body.op? o = some op' → op'.kind.blocks = [] := fun op' hop' => by
      obtain ⟨op'', hop'', hk', -⟩ := hg.edited.op? hop
      rw [Option.some.inj (hop'.symm.trans hop''), hk', hblocks]
    refine (Body.eraseOp_ends hg.edited.coherent hplain nofun).mono fun b he' => ⟨he'.outlives, ?_⟩
    refine h.stepped (hg.dropped he'.dropped (hg.edited.dropped rfl he'.dropped) fun _ => hplain)
      hH.fresh fun x hx => ?_
    obtain ⟨opx, hopx⟩ := Option.isSome_iff_exists.1 (hH.known x hx)
    obtain ⟨op₁, hop₁, -⟩ := he'.outlives.op?_some hopx
    rw [hop₁]
    rfl

/-- What holds between two steps holds throughout the walk, whatever the types of operations are. -/
theorem stages (cx : Context) (E : OpId → Prop) : Stages False cx (stage E) where
  coherent h := h.coherent
  nodup h := h.nodup
  known h := h.known
  guards := ⟨E, fun h => h.guards⟩
  nested _ hm := hm.elim
  skip h _ _ _ := h.perm (by simp [List.append_assoc])
  pass h _ _ _ := h.perm (by simp [List.append_assoc])
  step {_ R _ _ _ _ _ _ _} h hop _ hk hs hp := h.step_runs hop hk hs hp R

/-- Operations are pending at first, each once. -/
theorem begin (hb : b.Coherent) {L : List OpId} (hnd : L.Nodup) (hL : ∀ x ∈ L, (b.op? x).isSome) :
    b.Tidy (fun x => ∃ op, b.op? x = some op ∧ op.kind.blocks ≠ [] ∧ op.erased) L [] where
  coherent := hb
  nodup := by simpa using hnd
  known x hx := hL x (by simpa using hx)
  guards hx hk := ⟨fun he => ⟨_, hx, hk, he⟩, fun ⟨_, hop, _, he⟩ => by
    rwa [Option.some.inj (hx.symm.trans hop)]⟩
  past := fun ⟨_, hop, _⟩ => by simp [hop]

/-- All operations of a body are pending at first. -/
theorem start {L : List OpId} (hb : b.Coherent) (hL : Unfolds b (b.slotsOf Body.entry) L) :
    b.Tidy (fun x => ∃ op, b.op? x = some op ∧ op.kind.blocks ≠ [] ∧ op.erased) L [] :=
  .begin hb (hb.nodup_of_unfolds_entry hL) (hb.isSome_of_unfolds hL)

end Body.Tidy

/-- What lies below an operation lies in other blocks. -/
theorem Body.Coherent.not_mem_slotsOf_inner {b : Body} {k : BlockId} {o x y : OpId} {L : List OpId} (hb : b.Coherent)
    (ho : o ∈ b.slotsOf k) (hL : Unfolds b [o] L) (hy : y ∈ L) (hx : x ∈ b.inner y) : x ∉ b.slotsOf k := by
  intro hxk
  obtain ⟨k', hk', hx'⟩ := mem_inner_iff.1 hx
  obtain rfl := hb.slotsOf_unique hx' hxk
  exact Nat.lt_irrefl _ (hL.lt_of_mem hb (by simpa using ho) hy hk')

/-- An operation in a slot is pending, and so is all that lies below it. -/
theorem Body.Coherent.exists_tidy {b : Body} {k : BlockId} {o : OpId} (hb : b.Coherent) (ho : o ∈ b.slotsOf k) :
    ∃ L E, Unfolds b (b.inner o) L ∧ b.Tidy E (o :: L) [] := by
  obtain ⟨op, hop, -⟩ := hb.op?_of_mem_slotsOf ho
  obtain ⟨L, hL⟩ := hb.exists_unfolds b.blocks.size fun x (hx : x ∈ [o]) =>
    ⟨op, List.mem_singleton.1 hx ▸ hop, Nat.le_add_left _ _⟩
  obtain ⟨Lo, rfl, hLo⟩ := hL.of_single
  refine ⟨Lo, _, hLo, .begin hb (hL.nodup hb (List.nodup_singleton o) fun x hx y hy hmem => ?_) fun x hx => ?_⟩
  · exact hb.not_mem_slotsOf_inner ho hL hy hmem (List.mem_singleton.1 hx ▸ ho)
  · rcases hL.mem_cases hx with hx | ⟨y, -, hx⟩
    · rw [List.mem_singleton.1 hx, hop]
      rfl
    · obtain ⟨-, opx, -, hopx, -⟩ := hb.op?_of_mem_inner hx
      rw [hopx]
      rfl

/-! ## Properties that every step keeps -/

/-- What the states between steps have in common holds throughout the walk. -/
theorem Stages.keeps {cx : Context} {Inv : Stage} {S : Body → Symbols → Prop} (h : Stages False cx Inv)
    (hS : ∀ {t : LowerState} {R P D o op k A B}, Inv t.builder.body t.symbols R (P ++ [o]) D →
      S t.builder.body t.symbols → t.builder.body.op? o = some op → t.builder.body.Walked o → op.kind.blocks = [] →
      t.builder.body.slotsOf k = A ++ o :: B → t.builder.point = ⟨k, A.length⟩ →
      Runs False (Lower.step cx o op.kind) t fun replaced t' =>
        Ends False (if replaced then t'.builder.body.eraseOp o else .ok t'.builder.body) fun b' => S b' t'.symbols) :
    Stages False cx fun b y R P D => Inv b y R P D ∧ S b y where
  coherent hI := h.coherent hI.1
  nodup hI := h.nodup hI.1
  known hI := h.known hI.1
  guards := by
    obtain ⟨E, hE⟩ := h.guards
    exact ⟨E, fun hI => hE hI.1⟩
  nested hI := h.nested hI.1
  skip hI hop he hL := ⟨h.skip hI.1 hop he hL, hI.2⟩
  pass hI hop hk hL := ⟨h.pass hI.1 hop hk hL, hI.2⟩
  step {t R P D o op k A B} hI hop hw hblocks hs hp := by
    refine ((h.step hI.1 hop hw hblocks hs hp).and (hS hI.1 hI.2 hop hw hblocks hs hp)).mono ?_
    rintro replaced t' ⟨⟨H, N, R', hslots, hH, hlocal, hnew, hR, hlt, hstep⟩, hend⟩
    refine ⟨H, N, R', hslots, hH, hlocal, hnew, hR, hlt, ?_⟩
    exact (hstep.and hend).mono fun b' ⟨⟨hout, hI'⟩, hS'⟩ => ⟨hout, hI', hS'⟩

/-- The operation `op`, with number `o` in `b₀`, was replaced and erased, and `b` is left: `ps` are the
parts that were made. -/
structure Replacement (cx : Context) (b₀ : Body) (o : OpId) (op : Operation) (ps : List Part) (b : Body) :
    Prop where
  edited : b₀.Edited b
  erased : ∀ {op'}, b.op? o = some op' → op'.erased
  divides : op.kind.decl?.isSome → b₀.Divides cx.options.preserveAggregate op ps

/-- Some property that every edit keeps by which the operation is lowered by one layer holds at first,
and leads to `S` once the operation is replaced and erased. -/
def Lower.LowersTo (cx : Context) (t : LowerState) (o : OpId) (op : Operation)
    (S : Body → Symbols → Prop) : Prop :=
  ∃ J G U Z, Edits cx t.builder.body o op J G U Z ∧ J [] t ∧ ∀ {ps t'}, J ps t' →
    (∀ {op'}, t'.builder.body.op? o = some op' → op'.erased) →
    (op.kind.decl?.isSome → t.builder.body.Divides cx.options.preserveAggregate op ps) →
    S t'.builder.body t'.symbols

/-- So does a property of bodies and their symbols. -/
theorem Events.lowersTo {cx : Context} {t : LowerState} {o : OpId} {op : Operation}
    {T : List Part → Body → Symbols → Prop} {S : Body → Symbols → Prop}
    (h : Events cx t.builder.body o op T) (hb : t.builder.body.Coherent)
    (hop : t.builder.body.op? o = some op) (hT : T [] t.builder.body t.symbols)
    (hend : ∀ {ps b y}, T ps b y → Replacement cx t.builder.body o op ps b → S b y) :
    LowersTo cx t o op S :=
  ⟨_, _, _, _, h.edits hb hop, ⟨.refl hb, hT⟩, fun hJ he hd => hend hJ.2 ⟨hJ.1, he, hd⟩⟩

/-- Instances that stay have ports that stay whole. -/
def Body.Whole (cx : Context) (b : Body) (op : Operation) : Prop :=
  ∀ i, op.kind = .inst i → ∃ entry splits, cx.modules.get? i.moduleName = some entry ∧
    List.Forall₂ (b.Splits (cx.options.portsMayPreserve entry)) (i.ports.zip op.results) splits ∧
    ∀ s ∈ splits, s.2.changed = false

/-- A property `S` of bodies, their symbols and the operations that are done is kept by every step that
starts with `Inv`. What lies below an erased guard is passed over. -/
structure Refines (cx : Context) (Inv : Stage) (S : Body → Symbols → List OpId → Prop) : Prop where
  skip : ∀ {b y D L}, S b y D → (∀ x ∈ L, ¬b.Walked x) → S b y (L ++ D)
  stay : ∀ {b y D o op}, S b y D → b.op? o = some op → op.kind.blocks ≠ [] ∨ b.Whole cx op →
    S b y (o :: D)
  step : ∀ {t : LowerState} {R P D o op k A B}, Inv t.builder.body t.symbols R (P ++ [o]) D →
    S t.builder.body t.symbols D → t.builder.body.op? o = some op → t.builder.body.Walked o →
    op.kind.blocks = [] → t.builder.body.slotsOf k = A ++ o :: B → t.builder.point = ⟨k, A.length⟩ →
    LowersTo cx t o op fun b y => S b y (o :: D)

/-- What every step keeps holds throughout the walk. -/
theorem Stages.refine {cx : Context} {Inv : Stage} {S : Body → Symbols → List OpId → Prop}
    (h : Stages False cx Inv) (hS : Refines cx Inv S) :
    Stages False cx fun b y R P D => Inv b y R P D ∧ S b y D where
  coherent hI := h.coherent hI.1
  nodup hI := h.nodup hI.1
  known hI := h.known hI.1
  guards := by
    obtain ⟨E, hE⟩ := h.guards
    exact ⟨E, fun hI => hE hI.1⟩
  nested hI := h.nested hI.1
  skip hI hop he hL := ⟨h.skip hI.1 hop he hL,
    hS.skip hI.2 ((h.coherent hI.1).not_walked hop he hL)⟩
  pass hI hop hk hL := ⟨h.pass hI.1 hop hk hL, hS.stay hI.2 hop (.inl hk)⟩
  step {t R P D o op k A B} hI hop hw hblocks hs hp := by
    obtain ⟨J, G, U, Z, hedits, hJ, hend⟩ := hS.step hI.1 hI.2 hop hw hblocks hs hp
    refine ((h.step hI.1 hop hw hblocks hs hp).and (hedits.step_runs hJ rfl)).mono ?_
    rintro replaced t' ⟨⟨H, N, R', hslots, hH, hlocal, hnew, hR, hlt, hstep⟩, hout⟩
    refine ⟨H, N, R', hslots, hH, hlocal, hnew, hR, hlt, ?_⟩
    have hkept : Ends False (if replaced then t'.builder.body.eraseOp o else .ok t'.builder.body)
        fun b' => S b' t'.symbols (o :: D) := by
      cases replaced with
      | false =>
        obtain rfl := hout.same rfl
        exact .ok (hS.stay hI.2 hop (.inr (hout.whole rfl)))
      | true =>
        obtain ⟨ps, hJ', hdivides⟩ := hout.parts rfl
        have hplain : ∀ op', t'.builder.body.op? o = some op' → op'.kind.blocks = [] :=
          fun op' hop' => by
            obtain ⟨op'', hop'', hk, -⟩ := hedits.persists hJ' hop
            rw [Option.some.inj (hop'.symm.trans hop''), hk, hblocks]
        refine (Body.eraseOp_ends (hedits.coherent hJ') hplain nofun).mono fun b' herase => ?_
        have hJ'' := hedits.drop hJ' rfl (fun hne => absurd rfl hne) (fun _ => herase.unread) herase.dropped
        refine hend hJ'' (fun {op'} hop' => ?_) hdivides
        dsimp only at hop'
        rw [herase.dropped.op?] at hop'
        obtain ⟨op'', -, rfl⟩ := Option.map_eq_some_iff.1 hop'
        rw [if_pos rfl]
    exact (hstep.and hkept).mono fun b' ⟨⟨houtlives, hI'⟩, hS'⟩ => ⟨houtlives, hI', hS'⟩

theorem Body.Whole.edited {cx : Context} {b b' : Body} {op op' : Operation} (h : b.Whole cx op)
    (hb : b.Edited b') (hk : op'.kind = op.kind) (hr : op'.results = op.results) : b'.Whole cx op' := by
  intro i hi
  obtain ⟨entry, splits, hentry, hsplits, hall⟩ := h i (hk ▸ hi)
  refine ⟨entry, splits, hentry, ?_, hall⟩
  rw [hr]
  exact hsplits.imp fun _ _ ⟨hv, ty, hty, hs⟩ => ⟨hv, ty, hb.ty? hty, hs⟩

/-- Edits lead from `b₀` to the body, and what is done is whole. -/
theorem Body.Tidy.refines_whole {cx : Context} {E : OpId → Prop} (b₀ : Body) :
    Refines cx (Tidy.stage E) fun b _ D => b₀.Edited b ∧
      ∀ x ∈ D, b.Walked x → ∀ op, b.op? x = some op → b.Whole cx op where
  skip hS hL := by
    refine ⟨hS.1, fun x hx hw => ?_⟩
    rcases List.mem_append.1 hx with hx | hx
    · exact absurd hw (hL x hx)
    · exact hS.2 x hx hw
  stay {b y D o op} hS hop hor := by
    refine ⟨hS.1, fun x hx hw op' hop' => ?_⟩
    rcases List.mem_cons.1 hx with rfl | hx
    · obtain rfl := Option.some.inj (hop.symm.trans hop')
      rcases hor with hk | hwhole
      · exact fun i hi => absurd (by rw [hi]; rfl) hk
      · exact hwhole
    · exact hS.2 x hx hw op' hop'
  step {t R P D o op k A B} hI hS hop _ _ _ _ := by
    obtain ⟨hedited, hwhole⟩ := hS
    have hevents : Events cx t.builder.body o op fun _ _ _ => True := by
      constructor <;> intros <;> trivial
    refine hevents.lowersTo hI.coherent hop trivial fun {ps b y} _ hr => ?_
    refine ⟨hedited.trans hr.edited, fun x hx hwx op' hop' => ?_⟩
    rcases List.mem_cons.1 hx with rfl | hx
    · have := hwx.stands
      rw [stands_eq, hop', Option.any_some, hr.erased hop'] at this
      cases this
    · -- what was done before stands where it stood
      have hold : (t.builder.body.op? x).isSome := hI.known x (List.mem_append_right _ hx)
      obtain ⟨op₁, hop₁⟩ := Option.isSome_iff_exists.1 hold
      obtain ⟨op'', hop'', hk, hres, -⟩ := hr.edited.op? hop₁
      obtain rfl := Option.some.inj (hop'.symm.trans hop'')
      exact (hwhole x hx (hr.edited.walked hI.coherent hwx hold) op₁ hop₁).edited hr.edited hk hres

/-- A property of bodies and their symbols is kept by every step, when edits led from `b₀` to the
body. -/
def KeptBySteps (cx : Context) (b₀ : Body) (S : Body → Symbols → Prop) : Prop :=
  ∀ {t : LowerState} {o op k A B}, b₀.Edited t.builder.body → S t.builder.body t.symbols →
    t.builder.body.op? o = some op → t.builder.body.Walked o → op.kind.blocks = [] →
    t.builder.body.slotsOf k = A ++ o :: B → t.builder.point = ⟨k, A.length⟩ → LowersTo cx t o op S

theorem KeptBySteps.refines {cx : Context} {b₀ : Body} {S : Body → Symbols → Prop} {Inv : Stage}
    (h : KeptBySteps cx b₀ S) (hInv : ∀ {b y R P D}, Inv b y R P D → b₀.Edited b) :
    Refines cx Inv fun b y _ => S b y where
  skip hS _ := hS
  stay hS _ _ := hS
  step hI hS hop hw hblocks hs hp := h (hInv hI) hS hop hw hblocks hs hp

end Scalarize
