import Scalarize.Proofs.Step.Cloning

/-!
# Split producers

* `Start.rewire_ends` : once its parts are made, the readers of a producer read them;
* `Start.producer_runs` : producers are split, or stay;
* `Start.kept_runs` : what makes ground values, and what reaches one part, stays.
-/

namespace Scalarize

open Body Lower

namespace Start

variable {q : Setting} {b₀ : Body} {R₀ : OpId → Nat} {P D N : List OpId} {o : OpId} {k : BlockId}
  {A B : List OpId} {t : LowerState} {op : Operation} {r : ValueId} {ty : Ty}

/-- The readers of a producer that was split read the parts. -/
theorem rewire_ends (h : Start q b₀ R₀ P o D k A B) (hF : Front q b₀ R₀ P o D k A B N t.builder)
    (hext : Extends b₀ t.builder.body) (htr : t.builder.body.Tracked t.symbols)
    (hop : b₀.op? o = some op) (hplain : op.kind.blocks = []) (hacc : op.kind.isAccessor = false)
    (hres : op.results = [r]) (hty : b₀.ty? r = some ty) {ps : List Part} {values : List ValueId}
    (hps : Ty.PartsOf ty ps)
    (hmade : List.Forall₂ (PartMade N t.builder.body) ps values) :
    Ends q.must (t.builder.body.rewire r values) fun b =>
      Stepped q.must (Lowering.stage q) b₀ R₀ k A o B P D true ⟨⟨b, t.builder.point⟩, t.symbols⟩ := by
  obtain ⟨⟨H, hH⟩, R, hR⟩ := hF
  have hb := hR.holds.coherent
  obtain ⟨op', hop', hbare, hops', hres', -, -⟩ := hext.op? hop
  rw [hres] at hres'
  have hr : t.builder.body.origin? r = some (.result o 0) := hb.result hop' (by rw [hres']; rfl)
  have hacc' : op'.kind.isAccessor = false := by rw [OpKind.isAccessor_eq_of_bare_eq hbare, hacc]
  have hpart : ∀ w ∈ values, ∃ p ∈ ps, PartMade N t.builder.body p w := fun _ =>
    exists_of_forall₂ hmade
  have hparts : Lowering.Parts q t.builder.body (P ++ N) [o] r ty ps values :=
    { ty := hext.ty?_some hty
      partsOf := hps
      types := hmade.imp fun p w ⟨_, _, _, _, _, hty, _⟩ => hty
      ne := fun w hw he => ?ne
      stands := fun w hw {d i} hd => ?stands
      own := fun {d i op''} hd hop'' => ?own
      away := fun z hz {op''} hop'' => ?away
      ordered := fun hord => ⟨fun x hx => ?reads, fun w hw => ?made⟩ }
  refine (hR.holds.rewire_ends hparts).mono fun b ⟨hlow, hout, hread, _, _⟩ => ?_
  refine h.stepped hH hR (by rw [guardedBlocks_eq hop, hplain]) hout hlow (htr.outlives hout) ?_
  · rintro - ⟨op₁, w, x, hop₁, hw, hx⟩
    obtain ⟨op₂, hop₂, -, hres₂, -⟩ := hout.op?_some' hop₁
    rw [hop'] at hop₂
    obtain rfl := Option.some.inj hop₂
    rw [hres₂, hres', List.mem_singleton] at hw
    rw [hw] at hx
    exact hread x hx
  -- the parts were made since the operation was taken up
  case ne =>
    obtain ⟨p, -, d, hd, kind, vs, hmk, -⟩ := hpart w hw
    have horigin := hmk.origin? hb (i := 0) rfl
    rw [he, hr] at horigin
    obtain ⟨rfl, -⟩ : o = d ∧ 0 = 0 := by simpa using horigin
    exact hR.not_mem (List.mem_append_right _ hd)
  case stands =>
    obtain ⟨p, -, d', hd', kind, vs, hmk, -, hfix⟩ := hpart w hw
    have horigin := hmk.origin? hb (i := 0) rfl
    rw [hd] at horigin
    obtain ⟨rfl, -⟩ : d = d' ∧ i = 0 := by simpa using horigin
    obtain ⟨op'', hop'', hbare'', -, -, he⟩ := hmk
    exact ⟨op'', hop'', he, by rw [OpKind.fixedIndex?_eq_of_bare_eq hbare'', hfix]⟩
  case own =>
    rw [hr] at hd
    obtain ⟨rfl, -⟩ : o = d ∧ 0 = i := by simpa using hd
    rw [hop'] at hop''
    rw [← Option.some.inj hop'', OpKind.fixedIndex?_eq_none hacc']
  case away =>
    rw [List.mem_singleton.1 hz, hop'] at hop''
    rw [← Option.some.inj hop'', OpKind.fixedIndex?_eq_none hacc']
  case reads =>
    rcases List.mem_append.1 hx with hx | hx
    · exact hR.not_reads hord hr x hx
    · rw [List.mem_singleton.1 hx]
      rintro ⟨op'', hop'', hmem⟩
      rw [hop'] at hop''
      rw [← Option.some.inj hop'', hops'] at hmem
      have hr₀ : b₀.origin? r = some (.result o 0) := h.holds.coherent.result hop (by rw [hres]; rfl)
      exact h.not_reads_own hord hr₀ ⟨op, hop, hmem⟩
  case made =>
    obtain ⟨p, -, d, hd, kind, vs, hmk, -⟩ := hpart w hw
    exact .inr ⟨d, List.mem_append_right _ hd, 0, hmk.origin? hb rfl⟩

/-- What is known of the sizes of types while operations are made. -/
theorem Front.sized {s : Builder} (hF : Front q b₀ R₀ P o D k A B N s) (hm : q.must) {v : ValueId}
    {u : Ty} (hu : s.body.ty? v = some u) : u.lastId?.isSome ∧ u.depth ≤ q.depth := by
  obtain ⟨-, R, hR⟩ := hF
  exact hR.holds.sized hm hu

theorem cloning (h : Start q b₀ R₀ P o D k A B) (hop : b₀.op? o = some op) (he : op.erased = false)
    (hp : op.kind.isProducer = true) (hres : op.results = [r]) (hty : b₀.ty? r = some ty)
    {ps : List Part} {p : Part} (hps : Ty.PartsOf ty ps) (hmem : p ∈ ps) {s : Builder}
    (hg : Grew (Front q b₀ R₀ P o D k A B) [] ⟨b₀, ⟨k, A.length⟩⟩ N s) :
    Grows.Cloning q.must (b₀.Readable q P) (Allowed q (R₀ o)) (Front q b₀ R₀ P o D k A B) N s op.kind
      op.operands ty p := by
  obtain ⟨ins, outs, hins, houts, hsh⟩ := h.shaped hop he
  rw [hres] at houts
  obtain rfl := houts.unique (.cons hty .nil)
  have hready := fun hm => h.ready hm hop he (hres ▸ houts)
  have hpos : q.must → 0 < R₀ o := fun hm =>
    Nat.lt_of_lt_of_le (Ty.depth_pos hps.aggregate)
      ((suffices_iff_of_isProducer hp).1 (hready hm).2 ty (List.mem_singleton_self _))
  refine
    { holds := hg.holds
      atHand := fun v hv => .inl (h.readable hop hv)
      shaped := ⟨ins, hg.body.types hins, hsh.mono False.elim⟩
      child := hps.child_index hmem
      makesPart := fun {N' s'} v hg' => .part (fun hm {_ _} hu => hg'.holds.sized hm hu) hpos v _
      makes := fun {N' s' ws} hg' hn => ?_
      must := fun hm {v j} hv htakes => ?_ }
  · have hext := hg.body.trans hg'.body
    exact .narrowed hready hp hext (hps.child_index hmem) hn
  · obtain ⟨t, -, ht⟩ := hins.getElem? hv
    rcases (hready hm).1.operand hp hv ht with ⟨hno, -⟩ | ⟨-, halike⟩
    · rw [htakes] at hno
      cases hno
    · obtain ⟨c, hc, -⟩ := halike.child (hps.child_index hmem)
      exact ⟨t, c, hg.body.ty?_some ht, hc⟩

/-- A producer is split into one for each part, or stays. -/
theorem split_runs (h : Start q b₀ R₀ P o D k A B) {y : Symbols} (htr : b₀.Tracked y)
    (hop : b₀.op? o = some op) (he : op.erased = false) (hp : op.kind.isProducer = true)
    (hres : op.results = [r]) (hty : b₀.ty? r = some ty) {clone : Part → Build ValueId}
    (hclone : ∀ {N : List OpId} {s : Builder} {p : Part}, ty.isGround = false →
      Grows.Cloning q.must (b₀.Readable q P) (Allowed q (R₀ o)) (Front q b₀ R₀ P o D k A B) N s
        op.kind op.operands ty p →
      Runs q.must (clone p) s (Grows.Clones (Front q b₀ R₀ P o D k A B) N s op.kind op.operands p)) :
    Runs q.must (splitProducer o q.cx.options.preserveAggregate clone) ⟨⟨b₀, ⟨k, A.length⟩⟩, y⟩
      (Stepped q.must (Lowering.stage q) b₀ R₀ k A o B P D) := by
  obtain ⟨ins, outs, hins, houts, hsh⟩ := h.shaped hop he
  have houts' := houts
  rw [hres] at houts'
  obtain rfl := houts'.unique (.cons hty .nil)
  have hacc := OpKind.isAccessor_of_isProducer hp
  have hplain := OpKind.blocks_of_isProducer hp
  refine h.grows.splitProducer_runs (t := ⟨⟨b₀, ⟨k, A.length⟩⟩, y⟩) (fun kind new u hann hm => ?_)
    h.front htr hop hres hty (fun hm => ?_) ?_ ?_ ?_
  · cases kind <;> first | trivial | exact fun t ht => by rw [List.mem_singleton.1 ht]; exact hann hm
  · exact (h.ready hm hop he houts).1.annotated hp
  · rintro N s ps p hps hmem hg
    refine (hclone hps.aggregate (h.cloning hop he hp hres hty hps hmem hg)).mono ?_
    rintro w s' ⟨xs, o', ws, hg', -, hmk, hw, hn⟩
    refine ⟨_, o', op.kind.bare, ws, hg', by simp, hmk, hw, ?_, fun hd => ?_⟩
    · rw [OpKind.fixedIndex?_bare, OpKind.fixedIndex?_eq_none hacc]
    · rw [OpKind.bare, OpKind.decl?_mapDecl, Option.isSome_map, hd]
  · rintro hk
    refine h.kept rfl htr (fun {op'} hop' _ => ?_) fun hm {op' v t} hop' hv ht hg => ?_
    · rw [hop] at hop'
      obtain rfl := Option.some.inj hop'
      refine ⟨ins, [ty], hins, houts, hsh, ?_⟩
      cases hkind : op.kind <;> rw [hkind] at hp <;>
        first | exact fun t ht => by rw [List.mem_singleton.1 ht]; exact hk | cases hp
    · rw [hop] at hop'
      obtain rfl := Option.some.inj hop'
      have hground : ty.isGround := hk.resolve_right fun hkeep => by
        rw [q.splits_of_must hm] at hkeep
        cases hkeep.1
      rw [(h.ready hm hop he houts).1.isGround_operand hp hground hv ht] at hg
      cases hg
  · rintro ps values N' t' hps - hg htr' hmade
    exact h.rewire_ends hg.holds hg.body htr' hop hplain hacc hres hty hps hmade

/-- Producers are split, or stay. -/
theorem producer_runs (h : Start q b₀ R₀ P o D k A B) {y : Symbols} (htr : b₀.Tracked y)
    (hop : b₀.op? o = some op) (he : op.erased = false) (hp : op.kind.isProducer = true) :
    Runs q.must (producer o q.cx.options.preserveAggregate op.kind) ⟨⟨b₀, ⟨k, A.length⟩⟩, y⟩
      (Stepped q.must (Lowering.stage q) b₀ R₀ k A o B P D) := by
  obtain ⟨ins, outs, hins, houts, hsh⟩ := h.shaped hop he
  obtain ⟨ty, rfl⟩ : ∃ ty, outs = [ty] := by
    cases hk : op.kind <;> rw [hk] at hsh hp <;> first
      | exact hsh.2
      | (obtain ⟨_, t, -, ht⟩ := hsh; exact ⟨t, ht⟩)
      | (obtain ⟨_, t, -, ht, -⟩ := hsh; exact ⟨t, ht⟩)
      | (obtain ⟨_, _, _, t, -, ht⟩ := hsh; exact ⟨t, ht⟩)
      | (obtain ⟨_, _, _, t, -, ht, -⟩ := hsh; exact ⟨t, ht⟩)
      | cases hp
  obtain ⟨r, hty, hres⟩ := houts.singleton
  refine producer_splits (t := ⟨⟨b₀, ⟨k, A.length⟩⟩, y⟩) hop hp ⟨ins, hins, hsh.mono False.elim⟩ fun clone hclone => ?_
  exact h.split_runs htr hop he hp hres hty fun hagg hc => hclone h.grows hagg hc

/-- What makes ground values, and what reaches one part, stays. -/
theorem kept_runs (h : Start q b₀ R₀ P o D k A B) {y : Symbols} (htr : b₀.Tracked y)
    (hop : b₀.op? o = some op) (he : op.erased = false)
    (hk : (∃ n, op.kind = .constant n) ∨ (∃ p, op.kind = .prim p) ∨ op.kind.fixedIndex?.isSome) :
    Runs q.must (producer o q.cx.options.preserveAggregate op.kind) ⟨⟨b₀, ⟨k, A.length⟩⟩, y⟩
      (Stepped q.must (Lowering.stage q) b₀ R₀ k A o B P D) := by
  obtain ⟨ins, outs, hins, houts, hsh⟩ := h.shaped hop he
  have hrest : producer o q.cx.options.preserveAggregate op.kind = return false := by
    rcases hk with ⟨n, hk⟩ | ⟨p, hk⟩ | hk
    · rw [hk]
      rfl
    · rw [hk]
      rfl
    · cases hkind : op.kind <;> rw [hkind] at hk <;> first | rfl | cases hk
  rw [hrest]
  refine .pure (h.kept rfl htr (fun {op'} hop' _ => ?_) fun hm {op' v t} hop' hv ht hg => ?_)
  · rw [hop] at hop'
    obtain rfl := Option.some.inj hop'
    refine ⟨ins, outs, hins, houts, hsh, ?_⟩
    rcases hk with ⟨n, hk⟩ | ⟨p, hk⟩ | hk
    · rw [hk]
      trivial
    · rw [hk]
      trivial
    · cases hkind : op.kind <;> rw [hkind] at hk <;> trivial
  · rw [hop] at hop'
    obtain rfl := Option.some.inj hop'
    rcases hk with ⟨n, hk⟩ | ⟨p, hk⟩ | hk
    · rw [hk] at hsh
      obtain ⟨rfl, -⟩ := hsh
      rw [List.forall₂_nil_right_iff.1 hins] at hv
      cases hv
    · obtain ⟨⟨ins', hins', hck⟩, -⟩ := (h.ready hm hop he houts).1
      rw [hk] at hck
      obtain ⟨i, hi⟩ := List.mem_iff_getElem?.1 hv
      obtain ⟨t', ht', hty⟩ := hins'.getElem? hi
      rw [ht] at hty
      obtain rfl := Option.some.inj hty
      rw [hck.1 t (List.mem_of_getElem? ht')] at hg
      cases hg
    · exact hk

end Start

end Scalarize
