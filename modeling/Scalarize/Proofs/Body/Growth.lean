import Scalarize.Lower.Producer
import Scalarize.Proofs.Shape

/-!
# Bodies that grow

* `Body.Extends` : nothing is taken back, up to declarations; `Body.Makes` : an operation as it is
  made;
* `Grows` : a property of builders that every new operation keeps, with the conditions under which
  operations are made;
* `Grew` : what a building step leaves behind;
* `createValue_runs`, `part_runs` and the like : one specification for each building step, which holds
  of every such property.
-/

namespace Scalarize

namespace Body

variable {b b' : Body} {o x : OpId} {v w : ValueId} {k : BlockId}

/-! ## Changing a declaration -/

theorem op?_modifyDecl (b : Body) (o : OpId) (f : Decl → Decl) (x : OpId) :
    (b.modifyDecl o f).op? x =
      (b.op? x).map fun op => if x = o then { op with kind := op.kind.mapDecl f } else op := by
  simp only [op?, modifyDecl, modifyKind, modifyOp, Array.getElem?_modify]
  by_cases hx : x = o
  · simp [hx]
  · have : o.index ≠ x.index := fun h => hx (by cases x; cases o; simp_all)
    simp [hx, this]

@[simp] theorem value?_modifyDecl (b : Body) (o : OpId) (f : Decl → Decl) (v : ValueId) :
    (b.modifyDecl o f).value? v = b.value? v := rfl

@[simp] theorem ty?_modifyDecl (b : Body) (o : OpId) (f : Decl → Decl) (v : ValueId) :
    (b.modifyDecl o f).ty? v = b.ty? v := rfl

@[simp] theorem origin?_modifyDecl (b : Body) (o : OpId) (f : Decl → Decl) (v : ValueId) :
    (b.modifyDecl o f).origin? v = b.origin? v := rfl

@[simp] theorem block?_modifyDecl (b : Body) (o : OpId) (f : Decl → Decl) (k : BlockId) :
    (b.modifyDecl o f).block? k = b.block? k := rfl

theorem op?_modifyDecl_some {f : Decl → Decl} {op : Operation} (h : b.op? x = some op) :
    ∃ kind, (b.modifyDecl o f).op? x = some { op with kind } ∧ kind.bare = op.kind.bare := by
  rw [op?_modifyDecl, h]
  by_cases hx : x = o
  · exact ⟨op.kind.mapDecl f, by simp [hx], OpKind.bare_mapDecl _ _⟩
  · exact ⟨op.kind, by simp [hx], rfl⟩

theorem op?_of_modifyDecl {f : Decl → Decl} {op : Operation} (h : (b.modifyDecl o f).op? x = some op) :
    ∃ kind, b.op? x = some { op with kind } ∧ kind.bare = op.kind.bare := by
  rw [op?_modifyDecl, Option.map_eq_some_iff] at h
  obtain ⟨op', hop, rfl⟩ := h
  refine ⟨op'.kind, ?_, ?_⟩
  · split <;> exact hop
  · split
    · exact (OpKind.bare_mapDecl _ _).symm
    · rfl

theorem Exact.modifyDecl (h : b.Exact) (o : OpId) (f : Decl → Decl) :
    (b.modifyDecl o f).Exact where
  uses hv u := by
    rw [h.uses hv]
    constructor
    · rintro ⟨op, hop, hi⟩
      obtain ⟨kind, hop', -⟩ := op?_modifyDecl_some hop
      exact ⟨_, hop', hi⟩
    · rintro ⟨op, hop, hi⟩
      obtain ⟨kind, hop', -⟩ := op?_of_modifyDecl hop
      exact ⟨_, hop', hi⟩
  nodup_uses := h.nodup_uses
  operand hop hv := by
    obtain ⟨kind, hop', -⟩ := op?_of_modifyDecl hop
    exact h.operand hop' hv
  result hop hv := by
    obtain ⟨kind, hop', -⟩ := op?_of_modifyDecl hop
    exact h.result hop' hv
  erased {x op} hop he := by
    obtain ⟨kind, hop', -⟩ := op?_of_modifyDecl hop
    have := h.erased hop'
    exact this he

theorem Coherent.modifyDecl (h : b.Coherent) (o : OpId) (f : Decl → Decl) :
    (b.modifyDecl o f).Coherent where
  toExact := h.toExact.modifyDecl o f
  origin hr := by
    obtain ⟨op, hop, hv⟩ := h.origin hr
    obtain ⟨kind, hop', -⟩ := op?_modifyDecl_some hop
    exact ⟨_, hop', hv⟩
  slot {x op} hop he := by
    obtain ⟨kind, hop', -⟩ := op?_of_modifyDecl hop
    obtain ⟨blk, hblk, hmem⟩ := h.slot hop' he
    exact ⟨blk, hblk, hmem⟩
  slots hk hmem := by
    obtain ⟨op, hop, hop'⟩ := h.slots hk hmem
    obtain ⟨kind, hx, -⟩ := op?_modifyDecl_some hop
    exact ⟨_, hx, hop'⟩
  nodup_slots := h.nodup_slots
  args := h.args
  nodup_args := h.nodup_args
  guards {x op k} hop hk := by
    obtain ⟨kind, hop', hb⟩ := op?_of_modifyDecl hop
    rw [← OpKind.blocks_eq_of_bare_eq hb] at hk
    obtain ⟨hlt, hpar⟩ := h.guards hop' hk
    exact ⟨hlt, hpar⟩
  nodup_guards hop := by
    obtain ⟨kind, hop', hb⟩ := op?_of_modifyDecl hop
    rw [← OpKind.blocks_eq_of_bare_eq hb]
    exact h.nodup_guards hop'
  parent hk hpar := by
    obtain ⟨op, hop, hmem⟩ := h.parent hk hpar
    obtain ⟨kind, hop', hb⟩ := op?_modifyDecl_some hop
    exact ⟨_, hop', by rw [OpKind.blocks_eq_of_bare_eq hb]; exact hmem⟩
  entry := h.entry
  guarded := h.guarded

/-! ## Growth -/

/-- Nothing of `b` is taken back in `b'`, up to declarations. -/
structure Extends (b b' : Body) : Prop where
  op? : ∀ {x op}, b.op? x = some op → ∃ op', b'.op? x = some op' ∧ op'.kind.bare = op.kind.bare ∧
    op'.operands = op.operands ∧ op'.results = op.results ∧ op'.block = op.block ∧
    op'.erased = op.erased
  ty? : ∀ {v : ValueId}, v.index < b.values.size → b'.ty? v = b.ty? v
  origin? : ∀ {v : ValueId}, v.index < b.values.size → b'.origin? v = b.origin? v
  size : b.values.size ≤ b'.values.size

namespace Extends

theorem refl (b : Body) : Extends b b :=
  ⟨fun h => ⟨_, h, rfl, rfl, rfl, rfl, rfl⟩, fun _ => rfl, fun _ => rfl, Nat.le_refl _⟩

theorem trans {b₁ b₂ b₃ : Body} (h : Extends b₁ b₂) (h' : Extends b₂ b₃) : Extends b₁ b₃ where
  op? hx := by
    obtain ⟨op₂, hop₂, h₁, h₂, h₃, h₄, h₅⟩ := h.op? hx
    obtain ⟨op₃, hop₃, h₁', h₂', h₃', h₄', h₅'⟩ := h'.op? hop₂
    exact ⟨op₃, hop₃, h₁'.trans h₁, h₂'.trans h₂, h₃'.trans h₃, h₄'.trans h₄, h₅'.trans h₅⟩
  ty? hv := (h'.ty? (Nat.lt_of_lt_of_le hv h.size)).trans (h.ty? hv)
  origin? hv := (h'.origin? (Nat.lt_of_lt_of_le hv h.size)).trans (h.origin? hv)
  size := Nat.le_trans h.size h'.size

theorem modifyDecl (b : Body) (o : OpId) (f : Decl → Decl) : Extends b (b.modifyDecl o f) where
  op? hx := by
    obtain ⟨kind, hx', hb⟩ := op?_modifyDecl_some hx
    exact ⟨_, hx', hb, rfl, rfl, rfl, rfl⟩
  ty? _ := rfl
  origin? _ := rfl
  size := Nat.le_refl _

theorem ty?_some (h : Extends b b') {t : Ty} (hv : b.ty? v = some t) : b'.ty? v = some t := by
  rw [h.ty? (isSome_ty?.1 (by rw [hv]; rfl)), hv]

theorem origin?_some (h : Extends b b') {r : Origin} (hv : b.origin? v = some r) :
    b'.origin? v = some r := by
  obtain ⟨y, hy, -⟩ := origin?_eq_some_iff.1 hv
  rw [h.origin? (lt_of_value? hy), hv]

theorem types (h : Extends b b') {vs : List ValueId} {ts : List Ty} (hv : b.Types vs ts) :
    b'.Types vs ts :=
  hv.imp fun _ _ => h.ty?_some

end Extends

theorem Created.size {p : Point} {kind : OpKind} {vs : List ValueId} {tys : List Ty}
    (h : Created b p kind vs tys o b') : b.values.size ≤ b'.values.size := by
  cases hn : b.values.size with
  | zero => exact Nat.zero_le _
  | succ n => exact h.lt_values (v := ⟨n⟩) (by rw [hn]; exact Nat.lt_succ_self n)

theorem Created.extended {p : Point} {kind : OpKind} {vs : List ValueId} {tys : List Ty}
    (h : Created b p kind vs tys o b') : Extends b b' :=
  ⟨fun hx => ⟨_, h.op?_old hx, rfl, rfl, rfl, rfl, rfl⟩, h.ty?_old, h.origin?_old, h.size⟩

/-- The results of a new operation have the types that they were made with. -/
theorem Created.types_results {p : Point} {kind : OpKind} {vs : List ValueId} {tys : List Ty}
    (h : Created b p kind vs tys o b') :
    b'.Types ((List.range tys.length).map fun j => ⟨b.values.size + j⟩) tys := by
  rw [Types, List.forall₂_iff_get]
  refine ⟨by simp, fun i h₁ h₂ => ?_⟩
  simp only [List.get_eq_getElem, List.getElem_map, List.getElem_range]
  rw [h.ty?_new, List.getElem?_eq_getElem h₂]

/-- A guard is made, with one or two empty blocks. -/
theorem when_runs {must : Prop} (s : Builder) (cond : ValueId) (withElse : Bool)
    (hm : must → (∃ blk, s.body.block? s.point.block = some blk ∧ s.point.index ≤ blk.slots.length) ∧
      cond.index < s.body.values.size) :
    Runs must (Build.when cond withElse) s fun r s' =>
      Created s.body s.point (.when r.2.1 r.2.2) [cond] [] r.1 s'.body ∧
      s'.point = ⟨s.point.block, s.point.index + 1⟩ ∧ r.2.2.isSome = withElse := by
  have hcreate : ∀ t e, Runs must (Build.create (.when t e) [cond] []) s fun o s' =>
      Inserted s.body s.point.block s.point.index (.when t e) [cond] [] o s'.body ∧
      s'.point = ⟨s.point.block, s.point.index + 1⟩ := fun t e =>
    (insertOp_ends fun hmust => ⟨(hm hmust).1, by simpa using (hm hmust).2⟩).bind fun r hr =>
      .pure ⟨hr, rfl⟩
  have hedit : ∀ {o s'}, Runs must (Build.edit fun b => return b.createBlock o) s' fun _ s'' =>
      s'' = ⟨{ s'.body with blocks := s'.body.blocks.push ⟨[], some o⟩ }, s'.point⟩ := fun {o s'} => rfl
  unfold Build.when
  refine Runs.bind (P := fun s' s'' => s' = s ∧ s'' = s) (.get ⟨rfl, rfl⟩) ?_
  rintro _ _ ⟨rfl, rfl⟩
  cases withElse with
  | false =>
    refine (hcreate _ none).bind fun o s₁ ⟨hins, hp⟩ => hedit.bind ?_
    rintro _ _ rfl
    refine .pure ⟨?_, hp, rfl⟩
    simpa using hins.guards (n := 1) rfl
  | true =>
    refine (hcreate _ (some _)).bind fun o s₁ ⟨hins, hp⟩ => hedit.bind ?_
    rintro _ _ rfl
    refine hedit.bind ?_
    rintro _ _ rfl
    refine .pure ⟨?_, hp, rfl⟩
    have hpush : ∀ (bs : Array Block) (blk : Block),
        bs ++ (List.replicate 2 blk).toArray = (bs.push blk).push blk := fun bs blk => by
      refine Array.ext' ?_
      simp [List.replicate]
    have := hins.guards (n := 2) rfl
    rwa [hpush] at this

/-- The operation stands as it was made, up to its declaration. -/
def Makes (b : Body) (o : OpId) (kind : OpKind) (vs rs : List ValueId) : Prop :=
  ∃ op, b.op? o = some op ∧ op.kind.bare = kind.bare ∧ op.operands = vs ∧ op.results = rs ∧
    op.erased = false

theorem Makes.mono {kind : OpKind} {vs rs : List ValueId} (h : b.Makes o kind vs rs)
    (hb : Extends b b') : b'.Makes o kind vs rs := by
  obtain ⟨op, hop, h₁, h₂, h₃, h₄⟩ := h
  obtain ⟨op', hop', h₁', h₂', h₃', -, h₅'⟩ := hb.op? hop
  exact ⟨op', hop', h₁'.trans h₁, h₂'.trans h₂, h₃'.trans h₃, h₅'.trans h₄⟩

theorem Makes.origin? {kind : OpKind} {vs rs : List ValueId} (h : b.Makes o kind vs rs)
    (hb : b.Coherent) {i : Nat} (hi : rs[i]? = some v) : b.origin? v = some (.result o i) := by
  obtain ⟨op, hop, -, -, rfl, -⟩ := h
  exact hb.result hop hi

/-- The value is at hand: it was so before, or an operation among those made since has made it. -/
def AtHand (S : ValueId → Prop) (N : List OpId) (b : Body) (v : ValueId) : Prop :=
  S v ∨ ∃ d ∈ N, ∃ i, b.origin? v = some (.result d i)

/-- One of the operations made the value alone. -/
def MadeIn (N : List OpId) (b : Body) (v : ValueId) : Prop := ∃ o ∈ N, ∃ kind vs, b.Makes o kind vs [v]

theorem MadeIn.mono {N N' : List OpId} (h : MadeIn N b v) (hb : Extends b b')
    (hN : ∀ d ∈ N, d ∈ N') : MadeIn N' b' v := by
  obtain ⟨o, ho, kind, vs, hmk⟩ := h
  exact ⟨o, hN o ho, kind, vs, hmk.mono hb⟩

theorem MadeIn.atHand {S : ValueId → Prop} {N : List OpId} (h : MadeIn N b v) (hb : b.Coherent) :
    AtHand S N b v := by
  obtain ⟨o, ho, kind, vs, hmk⟩ := h
  exact .inr ⟨o, ho, 0, hmk.origin? hb rfl⟩

theorem AtHand.mono {S : ValueId → Prop} {N N' : List OpId} (h : AtHand S N b v)
    (hb : Extends b b') (hN : ∀ d ∈ N, d ∈ N') : AtHand S N' b' v := by
  rcases h with h | ⟨d, hd, i, hr⟩
  · exact .inl h
  · exact .inr ⟨d, hN d hd, i, hb.origin?_some hr⟩

end Body

/-! ## Properties that growth keeps -/

/-- A property `I` of builders, with the operations that were made so far, that every new operation
keeps. Operands are among the values `S` at the start or were made since; `M` is asked of every new
operation, and `A` of every change to a declaration. -/
structure Grows (S : ValueId → Prop) (M : Body → OpKind → List ValueId → List Ty → Prop)
    (A : OpKind → List Ty → Prop) (I : List OpId → Builder → Prop) : Prop where
  coherent : ∀ {N s}, I N s → s.body.Coherent
  place : ∀ {N s}, I N s →
    ∃ blk, s.body.block? s.point.block = some blk ∧ s.point.index ≤ blk.slots.length
  make : ∀ {N s kind vs ins tys o b'}, I N s → kind.blocks = [] →
    Body.Created s.body s.point kind vs tys o b' → (∀ v ∈ vs, Body.AtHand S N s.body v) →
    s.body.Types vs ins → kind.Shaped True ins tys → M s.body kind vs tys →
    I (N ++ [o]) ⟨b', ⟨s.point.block, s.point.index + 1⟩⟩
  declare : ∀ {N s o f}, I N s → o ∈ N →
    (∀ op outs, s.body.op? o = some op → s.body.Types op.results outs → A (op.kind.mapDecl f) outs) →
    I N ⟨s.body.modifyDecl o f, s.point⟩

/-- What a building step leaves behind: the property, for more operations, in a body that extends the
former one. -/
structure Grew (I : List OpId → Builder → Prop) (N : List OpId) (s : Builder) (N' : List OpId)
    (s' : Builder) : Prop where
  holds : I N' s'
  body : s.body.Extends s'.body
  made : N <+: N'

namespace Grew

variable {I : List OpId → Builder → Prop} {N N' N'' : List OpId} {s s' s'' : Builder}

theorem refl (h : I N s) : Grew I N s N s := ⟨h, .refl _, List.prefix_refl _⟩

theorem trans (h : Grew I N s N' s') (h' : Grew I N' s' N'' s'') : Grew I N s N'' s'' :=
  ⟨h'.holds, h.body.trans h'.body, h.made.trans h'.made⟩

theorem mem (h : Grew I N s N' s') {o : OpId} (ho : o ∈ N) : o ∈ N' := h.made.subset ho

theorem madeIn (h : Grew I N s N' s') {v : ValueId} (hv : Body.MadeIn N s.body v) :
    Body.MadeIn N' s'.body v :=
  hv.mono h.body fun _ hd => h.mem hd

theorem atHand (h : Grew I N s N' s') {S : ValueId → Prop} {v : ValueId}
    (hv : Body.AtHand S N s.body v) : Body.AtHand S N' s'.body v :=
  hv.mono h.body fun _ hd => h.mem hd

end Grew

namespace Grows

variable {must : Prop} {S : ValueId → Prop} {M : Body → OpKind → List ValueId → List Ty → Prop}
  {A : OpKind → List Ty → Prop} {I : List OpId → Builder → Prop} {N : List OpId} {s : Builder}

open Body

theorem atHand_of_makes (hI : Grows S M A I) (h : I N s) {o : OpId} {kind : OpKind}
    {vs : List ValueId} {v : ValueId} (ho : o ∈ N) (hm : s.body.Makes o kind vs [v]) :
    AtHand S N s.body v :=
  .inr ⟨o, ho, 0, hm.origin? (hI.coherent h) rfl⟩

/-- An operation is made as it is asked for. -/
theorem created_runs (hI : Grows S M A I) (h : I N s) {kind : OpKind} {vs : List ValueId}
    {ins tys : List Ty} (hk : kind.blocks = []) (hv : ∀ v ∈ vs, AtHand S N s.body v)
    (hins : s.body.Types vs ins) (hs : kind.Shaped True ins tys) (hM : M s.body kind vs tys) :
    Runs must (Build.create kind vs tys) s fun o s' =>
      I (N ++ [o]) s' ∧ Created s.body s.point kind vs tys o s'.body := by
  unfold Runs
  change Ends must (s.body.insertOp s.point.block s.point.index kind vs tys >>= fun r =>
    Pure.pure (r.1, (⟨r.2, ⟨s.point.block, s.point.index + 1⟩⟩ : Builder))) _
  refine (insertOp_ends fun _ => ⟨hI.place h, hins.lt⟩).bind fun r hr => .pure ?_
  have hc := hr.created hk
  exact ⟨hI.make h hk hc hv hins hs hM, hc⟩

/-- An operation is made. -/
theorem create_runs (hI : Grows S M A I) (h : I N s) {kind : OpKind} {vs : List ValueId}
    {ins tys : List Ty} (hk : kind.blocks = []) (hv : ∀ v ∈ vs, AtHand S N s.body v)
    (hins : s.body.Types vs ins) (hs : kind.Shaped True ins tys) (hM : M s.body kind vs tys) :
    Runs must (Build.create kind vs tys) s fun o s' => Grew I N s (N ++ [o]) s' ∧
      s'.body.Makes o kind vs ((List.range tys.length).map fun j => ⟨s.body.values.size + j⟩) ∧
      s'.body.Types ((List.range tys.length).map fun j => ⟨s.body.values.size + j⟩) tys :=
  (hI.created_runs h hk hv hins hs hM).mono fun _ _ ⟨hI', hc⟩ =>
    ⟨⟨hI', hc.extended, List.prefix_append _ _⟩, ⟨_, hc.op?_self, rfl, rfl, rfl, rfl⟩, hc.types_results⟩

/-- A new operation makes one new value. -/
def NewValue (I : List OpId → Builder → Prop) (N : List OpId) (s : Builder) (kind : OpKind)
    (vs : List ValueId) (ty : Ty) (v : ValueId) (s' : Builder) : Prop :=
  ∃ o, Grew I N s (N ++ [o]) s' ∧ s'.body.Makes o kind vs [v] ∧ s'.body.ty? v = some ty ∧
    s.body.values.size ≤ v.index

theorem NewValue.madeIn {kind : OpKind} {vs : List ValueId} {ty : Ty} {v : ValueId} {s' : Builder}
    (h : NewValue I N s kind vs ty v s') :
    ∃ N', Grew I N s N' s' ∧ MadeIn N' s'.body v ∧ s'.body.ty? v = some ty := by
  obtain ⟨o, hg, hmk, hty, -⟩ := h
  exact ⟨_, hg, ⟨o, by simp, _, _, hmk⟩, hty⟩

theorem NewValue.atHand (hI : Grows S M A I) {kind : OpKind} {vs : List ValueId} {ty : Ty}
    {v : ValueId} {s' : Builder} (h : NewValue I N s kind vs ty v s') :
    ∃ o, Grew I N s (N ++ [o]) s' ∧ AtHand S (N ++ [o]) s'.body v := by
  obtain ⟨o, hg, hmk, -⟩ := h
  exact ⟨o, hg, hI.atHand_of_makes hg.holds (by simp) hmk⟩

/-- An operation with one result is made. -/
theorem createValue_runs (hI : Grows S M A I) (h : I N s) {kind : OpKind} {vs : List ValueId}
    {ins : List Ty} {ty : Ty} (hk : kind.blocks = []) (hv : ∀ v ∈ vs, AtHand S N s.body v)
    (hins : s.body.Types vs ins) (hs : kind.Shaped True ins [ty]) (hM : M s.body kind vs [ty]) :
    Runs must (Build.createValue kind vs ty) s (NewValue I N s kind vs ty) := by
  unfold Build.createValue
  refine (hI.create_runs h hk hv hins hs hM).bind fun o s' ⟨hg, hmk, hty⟩ => .read ?_
  have hmk' : s'.body.Makes o kind vs [⟨s.body.values.size⟩] := by simpa using hmk
  refine result_ends (fun op v hop hv => ⟨o, hg, ?_⟩) fun _ => ?_
  · obtain ⟨op', hop', -, -, hr, -⟩ := id hmk'
    obtain rfl : op = op' := Option.some.inj (hop.symm.trans hop')
    rw [hr] at hv
    obtain rfl : _ = v := by simpa using hv
    refine ⟨hmk', ?_, Nat.le_refl _⟩
    cases hty with
    | cons h₁ _ => simpa using h₁
  · obtain ⟨op, hop, -, -, hr, -⟩ := hmk'
    exact ⟨op, _, hop, by rw [hr]; rfl⟩

/-- The operation that makes a declaration makes one value. -/
theorem firstResult_runs {make : Build OpId} {kind : OpKind} {vs : List ValueId} {ty : Ty}
    (h : Runs must make s fun o s' => Grew I N s (N ++ [o]) s' ∧
      s'.body.Makes o kind vs [⟨s.body.values.size⟩] ∧
      s'.body.ty? ⟨s.body.values.size⟩ = some ty) :
    Runs must (Lower.firstResult make) s (NewValue I N s kind vs ty) := by
  refine h.bind fun o s' ⟨hg, hmk, hty⟩ => .read ?_
  refine result_ends (fun op v hop hv => ⟨o, hg, ?_⟩) fun _ => ?_
  · obtain ⟨op', hop', -, -, hr, -⟩ := id hmk
    obtain rfl : op = op' := Option.some.inj (hop.symm.trans hop')
    rw [hr] at hv
    obtain rfl : _ = v := by simpa using hv
    exact ⟨hmk, hty, Nat.le_refl _⟩
  · obtain ⟨op, hop, -, -, hr, -⟩ := hmk
    exact ⟨op, _, hop, by rw [hr]; rfl⟩

/-- A declaration is made, and its value is taken. -/
theorem declare_runs (hI : Grows S M A I) (h : I N s) {kind : OpKind} {vs : List ValueId}
    {ins : List Ty} {ty : Ty} (hk : kind.blocks = []) (hv : ∀ v ∈ vs, AtHand S N s.body v)
    (hins : s.body.Types vs ins) (hs : kind.Shaped True ins [ty]) (hM : M s.body kind vs [ty]) :
    Runs must (Lower.firstResult (Build.create kind vs [ty])) s (NewValue I N s kind vs ty) := by
  refine firstResult_runs ((hI.create_runs h hk hv hins hs hM).mono fun o s' ⟨hg, hmk, hty⟩ => ?_)
  refine ⟨hg, by simpa using hmk, ?_⟩
  cases hty with
  | cons h₁ _ => simpa using h₁

/-! ## Accessors -/

theorem bind_typeOf {α : Type} {v : ValueId} {f : Ty → Build α} {Q : α → Builder → Prop}
    (hm : must → (s.body.ty? v).isSome)
    (hf : ∀ t, s.body.ty? v = some t → Runs must (f t) s Q) : Runs must (Build.typeOf v >>= f) s Q :=
  .bind_read (typeOf_ends (fun _ h => h) hm) hf

/-- A fixed accessor with its input type and the type of the part that it reaches. -/
def Reaches (t : Ty) (i : Nat) (kind : OpKind) (c : Ty) : Prop :=
  t.child? i = some c ∧ (kind = .subfield i ∧ (∃ fs, t = .bundle fs) ∨
    kind = .subindex i ∧ ∃ e n, t = .vector e n)

theorem Reaches.fixedIndex? {t c : Ty} {i : Nat} {kind : OpKind} (h : Reaches t i kind c) :
    kind.fixedIndex? = some i := by
  obtain ⟨-, ⟨rfl, -⟩ | ⟨rfl, -⟩⟩ := h <;> rfl

theorem Reaches.kind_eq {t c c' : Ty} {i : Nat} {kind kind' : OpKind} (h : Reaches t i kind c)
    (h' : Reaches t i kind' c') : kind = kind' := by
  obtain ⟨-, ⟨rfl, fs, rfl⟩ | ⟨rfl, e, n, rfl⟩⟩ := h <;>
    obtain ⟨-, ⟨rfl, fs', hfs⟩ | ⟨rfl, e', n', he⟩⟩ := h' <;> first | rfl | cases hfs | cases he

theorem Reaches.blocks {t c : Ty} {i : Nat} {kind : OpKind} (h : Reaches t i kind c) :
    kind.blocks = [] := by
  obtain ⟨-, ⟨rfl, -⟩ | ⟨rfl, -⟩⟩ := h <;> rfl

theorem Reaches.shaped {t c : Ty} {i : Nat} {kind : OpKind} (h : Reaches t i kind c) :
    kind.Shaped True [t] [c] := by
  obtain ⟨hc, ⟨rfl, fs, rfl⟩ | ⟨rfl, e, n, rfl⟩⟩ := h
  · obtain ⟨f, hf, rfl⟩ := Option.map_eq_some_iff.1 hc
    exact ⟨fs, f, rfl, hf, rfl⟩
  · simp only [Ty.child?] at hc
    split at hc
    next hi =>
      obtain rfl := Option.some.inj hc
      exact ⟨_, n, rfl, hi, rfl⟩
    next => cases hc

/-- A fixed accessor is shaped only as an accessor of a part. -/
theorem Reaches.of_shaped {strict : Prop} {ins outs : List Ty} {i : Nat} {kind : OpKind}
    (hi : kind.fixedIndex? = some i) (h : kind.Shaped strict ins outs) :
    ∃ t c, ins = [t] ∧ outs = [c] ∧ Reaches t i kind c := by
  cases kind with
  | subfield j =>
    obtain rfl := Option.some.inj hi
    obtain ⟨fs, f, rfl, hf, rfl⟩ := h
    exact ⟨_, _, rfl, rfl, by simp [Ty.child?, hf], .inl ⟨rfl, fs, rfl⟩⟩
  | subindex j =>
    obtain rfl := Option.some.inj hi
    obtain ⟨e, n, rfl, hj, rfl⟩ := h
    exact ⟨_, _, rfl, rfl, by simp [Ty.child?, hj], .inr ⟨rfl, e, n, rfl⟩⟩
  | _ => cases hi

/-- A fixed accessor of `input` was made, and reaches a part of type `c`. -/
def NewPart (I : List OpId → Builder → Prop) (N : List OpId) (s : Builder) (input : ValueId) (i : Nat)
    (v : ValueId) (s' : Builder) : Prop :=
  ∃ t c kind, s.body.ty? input = some t ∧ Reaches t i kind c ∧ NewValue I N s kind [input] c v s'

/-- What is asked before an accessor is made. -/
def MakesPart (M : Body → OpKind → List ValueId → List Ty → Prop) (b : Body) (input : ValueId)
    (i : Nat) : Prop :=
  ∀ t c kind, b.ty? input = some t → Reaches t i kind c → M b kind [input] [c]

theorem subfield_runs (hI : Grows S M A I) (h : I N s) {input : ValueId} {i : Nat}
    (hv : AtHand S N s.body input) (hM : MakesPart M s.body input i)
    (hm : must → ∃ fs f, s.body.ty? input = some (.bundle fs) ∧ fs[i]? = some f) :
    Runs must (Build.subfield input i) s fun v s' =>
      (∃ fs, s.body.ty? input = some (.bundle fs)) ∧ NewPart I N s input i v s' := by
  unfold Build.subfield
  refine bind_typeOf (fun hmust => ?_) fun t ht => ?_
  · obtain ⟨fs, f, hty, -⟩ := hm hmust
    rw [hty]
    rfl
  split
  next fs =>
    split
    next f hf =>
      have hr : Reaches (.bundle fs) i (.subfield i) f.ty := ⟨by simp [Ty.child?, hf], .inl ⟨rfl, fs, rfl⟩⟩
      exact (hI.createValue_runs h rfl (by simpa using hv) (.cons ht .nil) hr.shaped (hM _ _ _ ht hr)).mono
        fun v s' hnew => ⟨⟨fs, ht⟩, _, _, _, ht, hr, hnew⟩
    next hf =>
      refine .throw fun hmust => ?_
      obtain ⟨fs', f, hty, hf'⟩ := hm hmust
      rw [ht] at hty
      cases hty
      rw [hf] at hf'
      cases hf'
  next hne =>
    refine .throw fun hmust => ?_
    obtain ⟨fs', f, hty, hf'⟩ := hm hmust
    rw [ht] at hty
    exact hne fs' (Option.some.inj hty)

theorem subindex_runs (hI : Grows S M A I) (h : I N s) {input : ValueId} {i : Nat}
    (hv : AtHand S N s.body input) (hM : MakesPart M s.body input i)
    (hm : must → ∃ e n, s.body.ty? input = some (.vector e n) ∧ i < n) :
    Runs must (Build.subindex input i) s fun v s' =>
      (∃ e n, s.body.ty? input = some (.vector e n)) ∧ NewPart I N s input i v s' := by
  unfold Build.subindex
  refine bind_typeOf (fun hmust => ?_) fun t ht => ?_
  · obtain ⟨e, n, hty, -⟩ := hm hmust
    rw [hty]
    rfl
  split
  next e n =>
    split
    next hi =>
      have hr : Reaches (.vector e n) i (.subindex i) e := ⟨by simp [Ty.child?, hi], .inr ⟨rfl, e, n, rfl⟩⟩
      exact (hI.createValue_runs h rfl (by simpa using hv) (.cons ht .nil) hr.shaped (hM _ _ _ ht hr)).mono
        fun v s' hnew => ⟨⟨e, n, ht⟩, _, _, _, ht, hr, hnew⟩
    next hi =>
      refine .throw fun hmust => ?_
      obtain ⟨e', n', hty, hi'⟩ := hm hmust
      rw [ht] at hty
      cases hty
      exact hi hi'
  next hne =>
    refine .throw fun hmust => ?_
    obtain ⟨e', n', hty, -⟩ := hm hmust
    rw [ht] at hty
    exact hne e' n' (Option.some.inj hty)

/-- A part of an aggregate. -/
theorem part_runs (hI : Grows S M A I) (h : I N s) {input : ValueId} {i : Nat}
    (hv : AtHand S N s.body input) (hM : MakesPart M s.body input i)
    (hm : must → ∃ t c, s.body.ty? input = some t ∧ t.child? i = some c) :
    Runs must (Build.part input i) s (NewPart I N s input i) := by
  unfold Build.part
  refine bind_typeOf (fun hmust => ?_) fun t ht => ?_
  · obtain ⟨t, c, hty, -⟩ := hm hmust
    rw [hty]
    rfl
  split
  next fs =>
    refine (hI.subfield_runs h hv hM fun hmust => ?_).mono fun _ _ h => h.2
    obtain ⟨t, c, hty, hc⟩ := hm hmust
    rw [ht] at hty
    cases hty
    obtain ⟨f, hf, rfl⟩ := Option.map_eq_some_iff.1 hc
    exact ⟨fs, f, ht, hf⟩
  next e n =>
    refine (hI.subindex_runs h hv hM fun hmust => ?_).mono fun _ _ h => h.2
    obtain ⟨t, c, hty, hc⟩ := hm hmust
    rw [ht] at hty
    cases hty
    refine ⟨e, n, ht, ?_⟩
    by_contra hi
    simp [Ty.child?, hi] at hc
  next h₁ h₂ =>
    refine .throw fun hmust => ?_
    obtain ⟨t', c, hty, hc⟩ := hm hmust
    rw [ht] at hty
    obtain rfl := Option.some.inj hty
    cases t with
    | ground g => cases hc
    | bundle fs => exact h₁ fs rfl
    | vector e n => exact h₂ e n rfl

theorem subaccess_runs (hI : Grows S M A I) (h : I N s) {input index : ValueId}
    (hv : AtHand S N s.body input) (hx : AtHand S N s.body index)
    (hM : ∀ e n, s.body.ty? input = some (.vector e n) → M s.body .subaccess [input, index] [e])
    (hty : (s.body.ty? index).isSome)
    (hm : must → ∃ e n, s.body.ty? input = some (.vector e n)) :
    Runs must (Build.subaccess input index) s fun v s' =>
      ∃ e n, s.body.ty? input = some (.vector e n) ∧ NewValue I N s .subaccess [input, index] e v s' := by
  unfold Build.subaccess
  refine bind_typeOf (fun hmust => ?_) fun t ht => ?_
  · obtain ⟨e, n, hty⟩ := hm hmust
    rw [hty]
    rfl
  obtain ⟨u, hu⟩ := Option.isSome_iff_exists.1 hty
  split
  next e n =>
    have hs : OpKind.subaccess.Shaped True [.vector e n, u] [e] := ⟨e, n, u, rfl, rfl⟩
    refine (hI.createValue_runs h rfl ?_ (.cons ht (.cons hu .nil)) hs (hM e n ht)).mono
      fun v s' hnew => ⟨e, n, ht, hnew⟩
    simp [hv, hx]
  next hne =>
    refine .throw fun hmust => ?_
    obtain ⟨e', n', hty⟩ := hm hmust
    rw [ht] at hty
    exact hne e' n' (Option.some.inj hty)

/-! ## Choices -/

theorem mux_runs (hI : Grows S M A I) (h : I N s) {sel high low : ValueId} {ty : Ty}
    (hv : ∀ v ∈ [sel, high, low], AtHand S N s.body v) (hsel : (s.body.ty? sel).isSome)
    (hhigh : s.body.ty? high = some ty) (hlow : (s.body.ty? low).isSome)
    (hM : M s.body .mux [sel, high, low] [ty]) :
    Runs must (Build.mux sel high low) s (NewValue I N s .mux [sel, high, low] ty) := by
  refine bind_typeOf (fun _ => by rw [hhigh]; rfl) fun t ht => ?_
  obtain rfl : ty = t := Option.some.inj (hhigh.symm.trans ht)
  obtain ⟨a, ha⟩ := Option.isSome_iff_exists.1 hsel
  obtain ⟨c, hc⟩ := Option.isSome_iff_exists.1 hlow
  have hs : OpKind.mux.Shaped True [a, ty, c] [ty] := ⟨a, ty, c, ty, rfl, rfl, .refl ty⟩
  exact hI.createValue_runs h rfl hv (.cons ha (.cons ht (.cons hc .nil))) hs hM

theorem multiMux_runs (hI : Grows S M A I) (h : I N s) {index first : ValueId} {rest : List ValueId}
    {ty : Ty} {ins : List Ty} (hv : ∀ v ∈ index :: first :: rest, AtHand S N s.body v)
    (hindex : (s.body.ty? index).isSome) (hfirst : s.body.ty? first = some ty)
    (hrest : s.body.Types rest ins) (hM : M s.body .multiMux (index :: first :: rest) [ty]) :
    Runs must (Build.multiMux index (first :: rest)) s
      (NewValue I N s .multiMux (index :: first :: rest) ty) := by
  refine bind_typeOf (fun _ => by rw [hfirst]; rfl) fun t ht => ?_
  obtain rfl : ty = t := Option.some.inj (hfirst.symm.trans ht)
  obtain ⟨a, ha⟩ := Option.isSome_iff_exists.1 hindex
  have hs : OpKind.multiMux.Shaped True (a :: ty :: ins) [ty] := ⟨a, ty, ins, ty, rfl, rfl, .refl ty⟩
  exact hI.createValue_runs h rfl hv (.cons ha (.cons ht hrest)) hs hM

/-! ## Ground values -/

theorem constant_runs (hI : Grows S M A I) (h : I N s) {ty : Ty} {value : Nat} (hty : ty.isGround)
    (hM : M s.body (.constant value) [] [ty]) :
    Runs must (Build.constant ty value) s (NewValue I N s (.constant value) [] ty) := by
  have hs : (OpKind.constant value).Shaped True [] [ty] := ⟨rfl, ty, rfl, fun _ => hty⟩
  exact hI.createValue_runs h rfl (by simp) .nil hs hM

theorem invalid_runs (hI : Grows S M A I) (h : I N s) {ty : Ty} (hM : M s.body .invalid [] [ty]) :
    Runs must (Build.invalid ty) s (NewValue I N s .invalid [] ty) := by
  have hs : OpKind.invalid.Shaped True [] [ty] := ⟨rfl, ty, rfl⟩
  exact hI.createValue_runs h rfl (by simp) .nil hs hM

theorem cast_runs (hI : Grows S M A I) (h : I N s) {kind : OpKind} {input : ValueId} {ty : Ty}
    (hkind : kind = .bitcast ∨ kind = .unrealizedCast) (hv : AtHand S N s.body input)
    (hin : (s.body.ty? input).isSome) (hM : M s.body kind [input] [ty]) :
    Runs must (Build.createValue kind [input] ty) s (NewValue I N s kind [input] ty) := by
  obtain ⟨a, ha⟩ := Option.isSome_iff_exists.1 hin
  obtain rfl | rfl := hkind
  · have hs : OpKind.bitcast.Shaped True [a] [ty] := ⟨a, ty, rfl, rfl⟩
    exact hI.createValue_runs h rfl (by simpa using hv) (.cons ha .nil) hs hM
  · have hs : OpKind.unrealizedCast.Shaped True [a] [ty] := ⟨a, ty, rfl, rfl⟩
    exact hI.createValue_runs h rfl (by simpa using hv) (.cons ha .nil) hs hM

theorem prim_runs (hI : Grows S M A I) (h : I N s) {p : Prim} {vs : List ValueId} {ins : List Ty}
    {ty : Ty} (hv : ∀ v ∈ vs, AtHand S N s.body v) (hins : s.body.Types vs ins) (hty : ty.isGround)
    (hM : M s.body (.prim p) vs [ty]) :
    Runs must (Build.prim p vs ty) s (NewValue I N s (.prim p) vs ty) := by
  have hs : (OpKind.prim p).Shaped True ins [ty] := ⟨ty, rfl, fun _ => hty⟩
  exact hI.createValue_runs h rfl hv hins hs hM

/-- The width is known, and fits in 32 bits. -/
theorem bind_knownWidth {α : Type} {v : ValueId} {f : Nat → Build α} {Q : α → Builder → Prop}
    (hm : must → ∃ t w, s.body.ty? v = some t ∧ t.width = some w ∧ w < UInt32.size)
    (hf : ∀ t w, s.body.ty? v = some t → t.width = some w → w < UInt32.size → Runs must (f w) s Q) :
    Runs must (Build.knownWidth v >>= f) s Q := by
  unfold Build.knownWidth
  rw [bind_assoc]
  refine bind_typeOf (fun hmust => ?_) fun t ht => ?_
  · obtain ⟨t, w, ht, -⟩ := hm hmust
    rw [ht]
    rfl
  split
  next hw =>
    refine .bind_throw fun hmust => ?_
    obtain ⟨t', w, ht', hw', -⟩ := hm hmust
    obtain rfl : t = t' := Option.some.inj (ht.symm.trans ht')
    rw [hw] at hw'
    cases hw'
  next w hw =>
    split
    next hlt =>
      rw [pure_bind]
      exact hf t w ht hw hlt
    next hge =>
      refine .bind_throw fun hmust => ?_
      obtain ⟨t', w', ht', hw', hlt⟩ := hm hmust
      obtain rfl : t = t' := Option.some.inj (ht.symm.trans ht')
      obtain rfl : w = w' := Option.some.inj (hw.symm.trans hw')
      exact hge hlt

end Grows

end Scalarize
