import Scalarize.Proofs.Region.Cast

/-!
# One layer of a cast

* `Body.Parted`, `Casting.split_ends` : a value gives way to values of its parts;
* `Casting.ground_ends` : a value gives way to one ground value;
* `Casting.bitcast_runs`, `Casting.invalid_runs`, `Casting.step_runs` : one layer, `Recast.kept` : any layer.
-/

namespace Scalarize

open Body Lower Grows

namespace Body

variable {must done : Prop} {cx : Context} {b₀ b b' : Body} {o y z : OpId} {kind : OpKind} {vs us ws : List ValueId}
  {S T c e t : Ty} {C : List Nat → ValueId → Prop} {R R' : OpId → Nat} {k : BlockId} {L B P D M N : List OpId}
  {op : Operation} {p q : List Nat} {a r u v w x : ValueId} {i m n : Nat} {f : ValueId → ValueId}
  {Q Q' : ValueId → Prop}

/-! ## An aggregate result -/

/-- What was made since `s₀`, where `M` was made, for the first parts of the node at the end of the path `q`, which `z` made
in block `k`: values that hold the bits of the parts. -/
structure Parted (must : Prop) (n : Nat) (T : Ty) (x : ValueId) (m : Nat) (Z : OpId → Prop) (V : ValueId → Prop) (b : Body)
    (z : OpId) (k : BlockId) (L B M : List OpId) (s₀ : Body) (q : List Nat) (ps : List Part) (values : List ValueId)
    (N : List OpId) (s : Builder) : Prop where
  placed : b.Prefixed z k L B (M ++ N) s
  grown : Charted.Grown V (partsAt q values) T s₀ N s.body
  steps : ∀ y ∈ N, s.body.CastStep must (· ∈ values) n False y
  length : values.length = ps.length
  made : ∀ w ∈ values, ∃ y ∈ N, ∃ kind vs, kind.fixedIndex? = none ∧ s.body.Makes y kind vs [w] ∧
    ∀ a ∈ vs, ∃ t, s.body.ty? a = some t ∧ t.isGround
  holds : ∀ {i w p n bits}, values[i]? = some w → ps[i]? = some p → p.ty.width = some n → n ≠ 0 → bits.length = m →
    s.body.Evaluates (Holding x bits) (fun y => Z y ∨ y ∈ N) w (cut bits (T.offset (q ++ [i])) n)

namespace Parted

variable {Z : OpId → Prop} {V : ValueId → Prop} {s : Builder} {s₀ : Body} {ps done rest : List Part} {part : Part}
  {values : List ValueId} {t : LowerState}

theorem start (h : b.Prefixed z k L B M s) : Parted must n T x m Z V b z k L B M s.body q [] [] [] s where
  placed := by rwa [List.append_nil]
  grown := .start _
  steps := by simp
  length := rfl
  made := by simp
  holds h := by simp at h

/-- A value is made for one more part. -/
theorem part_runs {g : Part → Build ValueId}
    (hI : Parted must n T x m Z V b z k L B M s₀ q done values N t.builder) (hps : c.PartsOf ps)
    (hl : ps = done ++ part :: rest) (hc : T.sub? q = some c) (hid : must → c.lastId?.isSome)
    (hV : ∀ {u}, V u → u.index < s₀.values.size)
    (hclone : Runs must (g part) t.builder fun w s' => ∃ K d kind vs,
      Grew (AddedSteps must (fun _ => True) n V b z k L B (M ++ N) t.builder.body) [] t.builder (K ++ [d]) s' ∧
      (∀ y ∈ K, ∃ p vs v, s'.body.Makes y (.prim p) vs [v]) ∧
      s'.body.Makes d kind vs [w] ∧ s'.body.ty? w = some part.ty ∧ kind.fixedIndex? = none ∧
      (∀ a ∈ vs, ∃ t, s'.body.ty? a = some t ∧ t.isGround) ∧
      ∀ {n bits}, part.ty.width = some n → n ≠ 0 → bits.length = m → s'.body.Evaluates (Holding x bits)
        (fun y => Z y ∨ y ∈ N ++ (K ++ [d])) w (cut bits (T.offset (q ++ [part.index])) n)) :
    Runs must (do
      let restricted ← restrict [] part
      let value ← g part
      declarePart {} part restricted value
      return value : Lower ValueId) t fun w t' => ∃ N',
        Parted must n T x m Z V b z k L B M s₀ q (done ++ [part]) (values ++ [w]) N' t'.builder := by
  have hmem : part ∈ ps := by simp [hl]
  have hchild := hps.child_index hmem
  have hindex : part.index = values.length := by
    have hp : ps[done.length]? = some part := by simp [hl]
    rw [hps.index hp, hI.length]
  refine Runs.bind_except (restrict_ends fun hm => ⟨.nil (hid hm), hchild, hps.fieldId_index hmem⟩) fun r _ => ?_
  refine Runs.bind_build hclone ?_
  rintro w s' ⟨K, d, kind, vs, hgrew, hprims, hmk, hty, hfix, hground, hbits⟩
  have hgrows := AddedSteps.grows must (fun _ => True) n V b z k L B (M ++ N) t.builder.body
  have hsb := hgrows.coherent hgrew.holds
  refine (Lower.declarePart_runs (t := ⟨s', t.symbols⟩) (hmk.origin? hsb rfl) {} part r).bind ?_
  rintro _ _ rfl
  refine .pure ⟨N ++ (K ++ [d]), ?_⟩
  let new := (Decl.forPart {} part r t.symbols d).1
  have hext : Extends s'.body (s'.body.modifyDecl d fun _ => new) := .modifyDecl _ _ _
  obtain ⟨hadded, hsteps⟩ := hgrows.declare (f := fun _ => new) hgrew.holds
    (List.mem_append_right K (List.mem_singleton_self d)) fun _ _ _ _ => trivial
  have hmk' := hmk.mono hext
  refine ⟨by simpa using hadded.placed, hI.grown.part hV hadded hmk' hc (hindex ▸ hchild) (hext.ty?_some hty),
    fun y hy => ?_, by simp [hI.length], fun w' hw' => ?_, fun {i w' p n bits} hw' hp hn hne hlen => ?_⟩
  · rcases List.mem_append.1 hy with hy | hy
    · exact (hI.steps y hy).mono hadded.ext (List.mem_append_left _)
    · rcases List.mem_append.1 hy with hyK | hyd
      · obtain ⟨p, vs', v', hprim⟩ := hprims y hyK
        exact (hsteps y hy).narrow (hprim.mono hext) (.inr ⟨p, rfl⟩)
      · rw [List.mem_singleton.1 hyd] at hy ⊢
        exact (hsteps d hy).narrow hmk' (.inl (by simp))
  · rcases List.mem_append.1 hw' with hw' | hw'
    · obtain ⟨y, hy, kind', vs', hfix', hmk₀, hground'⟩ := hI.made w' hw'
      exact ⟨y, List.mem_append_left _ hy, kind', vs', hfix', hmk₀.mono hadded.ext, fun a ha =>
        (hground' a ha).imp fun t ht => ⟨hadded.ext.ty?_some ht.1, ht.2⟩⟩
    · rw [List.mem_singleton.1 hw']
      exact ⟨d, by simp, kind, vs, hfix, hmk', fun a ha => (hground a ha).imp fun t ht => ⟨hext.ty?_some ht.1, ht.2⟩⟩
  · by_cases hi : i < values.length
    · rw [List.getElem?_append_left hi] at hw'
      rw [List.getElem?_append_left (hI.length ▸ hi)] at hp
      exact (hI.holds hw' hp hn hne hlen).mono hadded.ext fun y hy => hy.imp_right (List.mem_append_left _)
    · have hi' : i = values.length := by
        have := (List.getElem?_eq_some_iff.1 hw').1
        simp only [List.length_append, List.length_singleton] at this
        omega
      subst hi'
      obtain rfl : w = w' := by simpa using hw'
      obtain rfl : part = p := by simpa [hI.length] using hp
      rw [← hindex]
      exact (hbits hn hne hlen).mono hext fun _ => id

theorem produced (h : Parted must n T x m Z V b z k L B M s₀ q ps values N s) (hw : w ∈ values) :
    ProducedIn T N s.body w := by
  obtain ⟨y, hy, kind, vs, hfix, hmk, -⟩ := h.made w hw
  exact ⟨y, hy, kind, vs, fun _ => hfix, hmk⟩

end Parted


namespace Casting

variable {V₀ V : ValueId → Prop} {s₁ s : Builder} {ps : List Part} {values : List ValueId} {sym : Symbols}

/-- Once all parts are made, the readers of the aggregate are handed over to them. -/
theorem split_ends (h : Casting must T v x m C b₀ b R (P ++ [z]) D) (hr : b₀.Region o b (P ++ [z]) D)
    (hM : AddedSteps must (fun _ => False) n V₀ b z k L B [] b M s₁)
    (hI : Parted must n T x m (· ∈ P ++ [z] ++ D ++ M) V b z k L B M s₁.body q ps values N s)
    (hV₀ : ∀ {p u}, V₀ u → ¬C p u) (hV : ∀ {p u}, V u → ¬C p u) (hop : b.op? z = some op) (he : op.erased = false)
    (hk : op.kind = .bitcast ∨ op.kind = .invalid) (hres : op.results = [u]) (hu : C q u) (hc : T.sub? q = some c)
    (hps : c.PartsOf ps) (hR : ∀ y, (b.op? y).isSome → R' y = R y)
    (hnew : ∀ y, b.op? y = none → n ≤ R' y ∧ (must → R' y < R z)) :
    Ends must (s.body.rewire u values) fun b' =>
      Layer must (Recast must T v x m b₀) b R z k L B P D ⟨⟨b', s.point⟩, sym⟩ := by
  have hext := hM.added.ext.trans hI.grown.ext
  have hfresh : ∀ y ∈ M ++ N, b.op? y = none := hI.placed.fresh
  have hfixed : op.kind.fixedIndex? = none := by rcases hk with hk | hk <;> rw [hk] <;> rfl
  have hch := (h.chart.added hM.added hV₀).grown hI.grown hV
  rw [List.append_assoc] at hch
  refine hch.layer_ends hr hI.placed hext hop hfixed hres (.inl hu) hc hps hI.length (fun {i w} hi => ?_) hR
    (fun hm y hy => (hnew y (hfresh y hy)).2 hm) fun {b₂} hch₂ hbut =>
      ⟨fun p u => C p u ∨ partsAt q values p u, ?_⟩
  · exact ⟨.inr ⟨i, rfl, hi⟩, (hI.produced (List.mem_of_getElem? hi)).mono (.refl _) fun y => List.mem_append_right M⟩
  have hne : ∀ {y}, y ∈ P ++ D ++ (M ++ N) → y ≠ z := hr.ne_of_mem hfresh
  have hl : b₀.Relaid o b z op u k L B P D (M ++ N) s id b₂ := {
    region := hr
    placed := hI.placed
    ext := hext
    op? := hop
    stands := he
    results := hres
    ops := fun hy hop' => by
      rw [hbut.op? (by simp only [List.mem_append] at hy ⊢; tauto) (hne hy) hop', List.map_id]
    types := fun hw => ⟨hbut.ty? hw, hw⟩
    erased := hbut.erased (hI.placed.op?_old hext hop) }
  refine h.relaid hl hk hch₂ (fun y hy => ?_) hR (fun y hy => (hnew y hy).1) .inl (fun {p w} hw hwC => ?_)
    (fun {w l bits} hwu hw => ?_) (fun {p w c' n bits} hw hwC hc' hn hne' hlen => ?_) (fun {p} hp l hleaf hpre => ?_)
    (fun {p w y a} hw hwC _ _ hmk => ?_) rfl
  · rcases List.mem_append.1 hy with hy | hy
    · exact (hM.steps y hy).mono hI.grown.ext False.elim
    · refine (hI.steps y hy).mono (.refl _) fun hw => ?_
      obtain ⟨i, hi⟩ := List.mem_iff_getElem?.1 hw
      exact ⟨_, .inr ⟨i, rfl, hi⟩⟩
  · exact Nat.le_trans hM.added.ext.size (hI.grown.new (hw.resolve_left hwC)).1
  · -- nothing of the region reads the aggregate
    refine hw.carried (f := id) (Q := (· ≠ u)) (fun _ => rfl) hbut.ty? (fun {y kind vs w} hy hmk hwu => ?_) hwu
    have hyz : y ≠ z := by
      rintro rfl
      exact hwu (hl.makes.eq_of_origin? hI.placed.coherent (hmk.origin? hI.placed.coherent (i := 0) rfl))
    have hmem : y ∈ P ++ D ++ (M ++ N) := by
      simp only [List.mem_append, List.mem_singleton] at hy ⊢
      tauto
    refine ⟨fun v hv => ?_, .inl ⟨by simp only [List.mem_append, List.mem_cons] at hmem ⊢; tauto,
      hl.makes_of hmem hmk⟩⟩
    rintro rfl
    refine hch.apart (x := y) ?_ (.inl hu) (hmk.reads.2 hv)
    simp only [List.mem_append] at hmem ⊢
    tauto
  · obtain ⟨i, rfl, hi⟩ := hw.resolve_left hwC
    obtain ⟨d, hd, hchild⟩ := Ty.sub?_of_concat hc'
    obtain rfl := Option.some.inj (hc.symm.trans hd)
    obtain ⟨part, hpart, rfl⟩ := hps.getElem?_of_child hchild
    refine (hI.holds hi hpart hn hne' hlen).mono (.refl _) fun y hy => ?_
    simp only [List.mem_append] at hy ⊢
    tauto
  · -- the leaf lies in one of the parts
    obtain rfl := h.chart.unique hu hp
    obtain ⟨rest, hrest⟩ := hpre
    have hsub := (Ty.mem_leaves.1 hleaf).1
    rw [← hrest, Ty.sub?_append, hc, Option.bind_some] at hsub
    cases rest with
    | nil =>
      have hagg := hps.aggregate
      rw [Option.some.inj hsub] at hagg
      cases hagg
    | cons i rest =>
      obtain ⟨d, hd, -⟩ := Option.bind_eq_some_iff.1 hsub
      have hi : i < values.length := hI.length ▸ hps.all hd
      obtain ⟨y, hy, kind, vs, hfix, hmk⟩ := hI.produced (List.getElem_mem hi)
      exact ⟨q ++ [i], values[i], ⟨rest, by simpa using hrest⟩, .inr ⟨i, rfl, by simp⟩, y, by simp [hy], kind, vs, hfix, hmk⟩
  · obtain ⟨i, -, hi⟩ := hw.resolve_left hwC
    obtain ⟨y', -, kind, vs, -, hmk', hground⟩ := hI.made w (List.mem_of_getElem? hi)
    obtain ⟨-, -, rfl⟩ := hmk'.unique hmk hI.placed.coherent
    exact hground a (by simp)

end Casting

/-! ## A ground result -/

/-- Readers of `u` read `w`. -/
def instead (u w : ValueId) : ValueId → ValueId := fun v => if v = u then w else v

theorem instead_of_ne (h : v ≠ u) : instead u w v = v := if_neg h

/-- Since `b`, the operations `N` were made in front of `z`, which had made `u`, and `w` of the same type by one of them. Its
readers went over to `w` in `b₁`, and `z` was erased in `b₂`. -/
structure Exchanged (b₀ : Body) (o : OpId) (b : Body) (z : OpId) (op : Operation) (u : ValueId) (k : BlockId)
    (L B P D N : List OpId) (s : Builder) (w : ValueId) (b₁ b₂ : Body) : Prop where
  region : b₀.Region o b (P ++ [z]) D
  placed : b.Prefixed z k L B N s
  ext : Extends b s.body
  op? : b.op? z = some op
  stands : op.erased = false
  results : op.results = [u]
  types : ∃ t, b.ty? u = some t ∧ s.body.ty? w = some t
  made : ∃ d ∈ N, ∃ kind vs, s.body.Makes d kind vs [w]
  replaced : Replaced s.body u w b₁
  erased : Erased b₁ z b₂

namespace Exchanged

variable {s : Builder} {b₁ b₂ : Body} {V : ValueId → Prop}

theorem relaid (h : b₀.Exchanged o b z op u k L B P D N s w b₁ b₂) :
    b₀.Relaid o b z op u k L B P D N s (instead u w) b₂ where
  region := h.region
  placed := h.placed
  ext := h.ext
  op? := h.op?
  stands := h.stands
  results := h.results
  ops {y op'} hy hop' := by
    rw [h.erased.op?, h.replaced.op?_some hop', Option.map_some, if_neg (h.region.ne_of_mem h.placed.fresh hy)]
    rfl
  types {v t} hv := by
    refine ⟨by rw [h.erased.outlives.ty?, h.replaced.outlives.ty?, hv], ?_⟩
    unfold instead
    split
    next he =>
      obtain ⟨t', hu, hw⟩ := h.types
      rw [hw, ← hv, he, h.ext.ty?_some hu]
    next => exact hv
  erased := by
    rw [h.erased.op?, h.replaced.op?_some (h.placed.op?_old h.ext h.op?), Option.map_some, if_pos rfl]

theorem new (h : b₀.Exchanged o b z op u k L B P D N s w b₁ b₂) : b.values.size ≤ w.index := by
  obtain ⟨d, hd, kind, vs, hmk⟩ := h.made
  by_contra hlt
  have ho := hmk.origin? h.placed.coherent (i := 0) rfl
  rw [h.ext.origin? (Nat.not_le.1 hlt)] at ho
  obtain ⟨op', hop', -⟩ := h.region.coherent.origin ho
  rw [h.placed.fresh d hd] at hop'
  cases hop'

theorem ne (h : b₀.Exchanged o b z op u k L B P D N s w b₁ b₂) : w ≠ u := by
  rintro rfl
  obtain ⟨t, hu, -⟩ := h.types
  exact absurd (lt_of_ty? hu) (Nat.not_lt.2 h.new)

/-- All other operations make what they made. -/
theorem makes (h : b₀.Exchanged o b z op u k L B P D N s w b₁ b₂) (hy : y ∈ P ++ D ++ N) (hmk : s.body.Makes y kind vs [v]) :
    b₂.Makes y kind (vs.map (instead u w)) [instead u w v] := by
  rw [instead_of_ne]
  · exact h.relaid.makes_of hy hmk
  · rintro rfl
    exact h.relaid.ne hy (hmk.unique h.relaid.makes h.placed.coherent).1

/-- The other value is charted where the former one was. -/
theorem charted (h : b₀.Exchanged o b z op u k L B P D N s w b₁ b₂) (hch : Charted must b₀ v T C b (P ++ [z]) D)
    (hgrown : Charted.Grown V (fun p u' => C p u ∧ u' = w) T b N s.body) (hV : ∀ {p u}, V u → ¬C p u)
    (hmade : ∀ {p}, C p u → ProducedIn T N s.body w) (hground : ∀ {p}, C p u → T.isGround) :
    Charted must b₀ v T (fun p u' => C p u' ∨ C p u ∧ u' = w) b₂ (P ++ N) (z :: D) := by
  have hsb := h.placed.coherent
  have hwu := h.ne
  have hnot : ∀ {p}, ¬C p w := fun hp => absurd (hch.isSome hp) (Nat.not_lt.2 h.new)
  have hvalue : ∀ {v : ValueId} {t}, s.body.ty? v = some t → (s.body.value? v).isSome := fun hv =>
    isSome_value?.2 (lt_of_ty? hv)
  obtain ⟨t, hu, hw⟩ := h.types
  have hpl₁ := h.placed.replaced h.replaced (hvalue (h.ext.ty?_some hu)) (hvalue hw) hwu.symm
  have hch₁ := (hch.grown hgrown hV).replaced h.replaced (fun p => ⟨?_, ?_⟩) (fun {p} hp => ?_) fun y hy i ho => ?_
  · have hperm : Charted must b₀ v T (fun p u' => C p u' ∨ C p u ∧ u' = w) b₁ (P ++ N) (z :: D) := by
      refine hch₁.perm (fun y => ?_) fun y hy hyD {p w' c i y'} hw' hc hg ho => ?_
      · simp only [List.mem_append, List.mem_cons, List.not_mem_nil, or_false]
        tauto
      · -- what is newly done made no aggregate
        obtain rfl : y = z := (List.mem_cons.1 hy).resolve_right hyD
        rw [h.replaced.outlives.origin?] at ho
        obtain rfl := h.relaid.makes.eq_of_origin? hsb ho
        have hg' := Ty.isGround_of_sub? hc hg
        rw [hground (hw'.resolve_right fun hp => hwu hp.2.symm)] at hg'
        cases hg'
    exact hperm.erased hpl₁.coherent h.erased fun hu' _ hread => hperm.apart (by simp) hu' hread
  · rintro (hp | ⟨-, he⟩)
    · exact .inr ⟨hp, rfl⟩
    · exact absurd he.symm hwu
  · rintro (hp | ⟨hp, -⟩)
    · exact absurd hp hnot
    · exact .inl hp
  · refine (hmade (hp.resolve_right fun hp => hwu hp.2.symm)).mono (.refl _) fun y hy => ?_
    simp only [List.mem_append] at hy ⊢
    tauto
  · obtain ⟨d, hd, kind, vs, hmk⟩ := h.made
    obtain ⟨rfl, -⟩ : d = y ∧ 0 = i := by simpa using (hmk.origin? hsb (i := 0) rfl).symm.trans ho
    exact h.relaid.not_new (y := d) (by simp [hy]) hd

/-- What is made of the bits of other values is made of them still, if `z` was a cast and the other value holds the same. -/
theorem evaluates (h : b₀.Exchanged o b z op u k L B P D N s w b₁ b₂) (hz : s.body.Makes z .bitcast [a] [u])
    (ha : s.body.ty? a = some S) (hau : a ≠ u) (hxu : x ≠ u) (hd : Derives N s.body a w id) {bits l : List Bool} (hvu : v ≠ u)
    (hv : s.body.Evaluates (Holding x bits) (· ∈ P ++ [z] ++ D ++ N) v l) :
    b₂.Evaluates (Holding x bits) (· ∈ P ++ N ++ z :: D) v l := by
  have hgiven : ∀ {v₁ v₂ l l'}, v₁ ≠ u → Holding v₁ l v₂ l' → instead u w v₂ = v₂ := fun hne hg =>
    instead_of_ne (hg.1 ▸ hne)
  have hty : ∀ {v t}, s.body.ty? v = some t → b₂.ty? (instead u w v) = some t := fun hv =>
    (h.relaid.types (h.relaid.types hv).2).1
  -- the other value holds the bits of the operand still
  have hw : ∀ {bits}, S.width = some bits.length → b₂.Evaluates (Holding a bits) (· ∈ N) w bits := fun {bits} hlen => by
    have hw : b₂.Evaluates (Holding a bits) (· ∈ N) (instead u w w) bits :=
      (hd.evaluates ha hlen).carried (Q := fun _ => True) (hgiven hau) hty
        (fun hy hmk _ => ⟨fun _ _ => trivial, .inl ⟨hy, h.makes (List.mem_append_right _ hy) hmk⟩⟩) trivial
    rwa [instead_of_ne h.ne] at hw
  have hv' : b₂.Evaluates (Holding x bits) (· ∈ P ++ N ++ z :: D) (instead u w v) l := by
    refine hv.carried (Q := fun _ => True) (hgiven hxu) hty (fun {y kind vs v'} hy hmk _ => ⟨fun _ _ => trivial, ?_⟩) trivial
    by_cases hyz : y = z
    · subst hyz
      obtain rfl := hz.eq_of_origin? h.placed.coherent (hmk.origin? h.placed.coherent (i := 0) rfl)
      obtain ⟨-, hbare, rfl⟩ := hmk.unique hz h.placed.coherent
      refine .inr ⟨a, hbare, rfl, fun {t bits'} ht hlen hab => ?_⟩
      obtain rfl := Option.some.inj (ha.symm.trans ht)
      rw [show instead v' w v' = w from if_pos rfl]
      refine (hw hlen).computed (fun y hy => by simp only [List.mem_append] at hy ⊢; tauto) fun hg => ?_
      obtain ⟨rfl, rfl⟩ := hg
      rwa [instead_of_ne hau] at hab
    · have hmem : y ∈ P ++ D ++ N := by
        simp only [List.mem_append, List.mem_singleton] at hy ⊢
        tauto
      exact .inl ⟨by simp only [List.mem_append, List.mem_cons] at hmem ⊢; tauto, h.makes hmem hmk⟩
  rwa [instead_of_ne hvu] at hv'

end Exchanged

namespace Casting

variable {s : Builder} {sym : Symbols}

/-- A cast of an aggregate to a ground value makes the root, if it is charted at all. -/
theorem root_of_ground (h : Casting must T v x m C b₀ b R (P ++ [z]) D) (hz : b.Makes z .bitcast [a] [u])
    (ha : b.ty? a = some S) (hS : S.isGround = false) (hu : b.ty? u = some t) (ht : t.isGround) (hp : C p u) :
    p = [] ∧ T.isGround := by
  have hroot : p = [] := by
    by_contra hne
    obtain ⟨t', ht', hg⟩ := h.unpacked hp hne (by simp) hz
    rw [Option.some.inj (ha.symm.trans ht'), hg] at hS
    cases hS
  obtain rfl := hroot
  obtain rfl := Option.some.inj (h.chart.sub? hp hu)
  exact ⟨rfl, ht⟩

/-- A value gives way to one that was made with the same bits. -/
theorem ground_ends (h : Casting must T v x m C b₀ b R (P ++ [z]) D) (hr : b₀.Region o b (P ++ [z]) D)
    (hA : AddedSteps must (fun _ => False) n (· = a) b z k L B [] b N s) (hop : b.op? z = some op) (he : op.erased = false)
    (hk : op.kind = .bitcast) (hops : op.operands = [a]) (hres : op.results = [u]) (ha : b.ty? a = some S)
    (hS : S.isGround = false) (hu : b.ty? u = some t) (ht : t.isGround)
    (hw : MadeLast N s.body w) (hwty : s.body.ty? w = some t) (hd : Derives N s.body a w id)
    (hR : ∀ y, (b.op? y).isSome → R' y = R y) (hnew : ∀ y, b.op? y = none → n ≤ R' y ∧ (must → R' y < R z)) :
    Ends must (s.body.replaceAllUses u w) fun b' =>
      Layer must (Recast must T v x m b₀) b R z k L B P D ⟨⟨b', s.point⟩, sym⟩ := by
  have hpl : b.Prefixed z k L B N s := by simpa using hA.added.placed
  have hext := hA.added.ext
  have hz : b.Makes z .bitcast [a] [u] := ⟨op, hop, by rw [hk], hops, hres, he⟩
  have hzs := hz.mono hext
  have hus := hext.ty?_some hu
  obtain ⟨K, d, kind, vs, rfl, hmk⟩ := id hw
  have hworig := hmk.origin? hpl.coherent (i := 0) rfl
  have hwnew : b.values.size ≤ w.index := hA.added.new (by simp) hworig
  have hwu : w ≠ u := by
    rintro rfl
    exact absurd (lt_of_ty? hu) (Nat.not_lt.2 hwnew)
  have hau : a ≠ u := by
    rintro rfl
    rw [Option.some.inj (ha.symm.trans hu), ht] at hS
    cases hS
  have hxu : x ≠ u := h.ne_of_makes (by simp) hz
  have hroot : ∀ {p}, C p u → p = [] ∧ T.isGround := h.root_of_ground hz ha hS hu ht
  have hvalue : ∀ {v : ValueId} {t}, s.body.ty? v = some t → (s.body.value? v).isSome := fun hv =>
    isSome_value?.2 (lt_of_ty? hv)
  refine (hpl.coherent.toExact.replaceAllUses_ends hwu.symm fun _ => ⟨hvalue hus, hvalue hwty⟩).mono fun b₁ hrep => ?_
  refine ⟨K ++ [d], R', hpl.replaced hrep (hvalue hus) (hvalue hwty) hwu.symm, hR,
    fun hm => ⟨fun y hy => (hnew y (hpl.fresh y hy)).2 hm, ?_⟩, fun b₂ her => ?_⟩
  · rintro ⟨op', v', y, hop', hv', hy⟩
    obtain rfl := Option.some.inj ((hrep.op?_some (hpl.op?_old hext hop)).symm.trans hop')
    obtain rfl : v' = u := by simpa [hres] using hv'
    rcases hrep.reads_iff.1 hy with ⟨-, hne⟩ | ⟨he, -⟩
    · exact hne rfl
    · exact hwu he.symm
  have hx : b₀.Exchanged o b z op u k L B P D (K ++ [d]) s w b₁ b₂ :=
    ⟨hr, hpl, hext, hop, he, hres, ⟨t, hu, hwty⟩, ⟨d, by simp, kind, vs, hmk⟩, hrep, her⟩
  -- the value that is made is charted where the result was
  have hgrown : Charted.Grown (· = a) (fun p u' => C p u ∧ u' = w) T b (K ++ [d]) s.body := by
    refine ⟨hext, hA.added.fresh, hA.added.reads, fun hp hq => h.chart.unique hp.1 hq.1, ?_⟩
    rintro p _ ⟨hp, rfl⟩
    exact ⟨hwnew, ⟨t, h.chart.sub? hp hu, hwty⟩, hA.added.last rfl hworig⟩
  have hch₂ := hx.charted h.chart hgrown
    (fun {p u'} hu' hp => h.chart.apart (x := z) (by simp) hp (hu' ▸ hz.reads.2 (by simp)))
    (fun hp => ⟨d, by simp, kind, vs, fun hg => absurd (hroot hp).2 (by simp [hg]), hmk⟩) fun hp => (hroot hp).2
  refine ⟨_, h.relaid hx.relaid (.inl hk) hch₂ (fun y hy => (hA.steps y hy).mono (.refl _) False.elim) hR
    (fun y hy => (hnew y hy).1) .inl (fun {p w'} hw' hwC => ?_) (hx.evaluates hzs (hext.ty?_some ha) hau hxu hd)
    (fun {p w' c n' bits} hw' hwC hc hn hne hlen => ?_) (fun {p} hp l _ hpre => ?_)
    (fun {p w' y a'} hw' hwC hne _ _ => absurd (hroot (hw'.resolve_left hwC).1).1 hne) (instead_of_ne hxu)⟩
  · rw [(hw'.resolve_left hwC).2]
    exact hwnew
  · obtain ⟨hp, rfl⟩ := hw'.resolve_left hwC
    obtain ⟨S', hS', hlen', hab⟩ := h.operand_holds hr.coherent (by simp) hz hp hc hn hne hlen
    exact hd.apply (hext.ty?_some hS') hlen' (fun y hy => List.mem_append_right _ hy)
      (hab.mono hext fun y hy => List.mem_append_left _ hy)
  · exact ⟨p, w, hpre, .inr ⟨hp, rfl⟩, d, by simp, kind, vs, fun hg => absurd (hroot hp).2 (by simp [hg]), hmk⟩

end Casting

/-! ## A cast -/

/-- In block `k`, between `L` and `B`, the operation `z` is to cast `a` of type `S` to `u` of type `c`, which both take `j`
bits. -/
structure Recastable (must : Prop) (C : List Nat → ValueId → Prop) (b : Body) (rank : Nat) (z : OpId) (op : Operation)
    (a u : ValueId) (S c : Ty) (j : Nat) : Prop where
  op? : b.op? z = some op
  kind : op.kind = .bitcast
  operands : op.operands = [a]
  results : op.results = [u]
  stands : op.erased = false
  operand : b.ty? a = some S
  result : b.ty? u = some c
  width_operand : S.width = some j
  width_result : c.width = some j
  lt : j < UInt32.size
  ids_operand : S.lastId?.isSome
  ids_result : c.lastId?.isSome
  depth : must → S.depth + c.depth ≤ rank
  charted : c.isGround = false → ∃ p, C p u

/-- The operand of a cast was made the unsigned value `flat`, or it is that value itself. -/
structure Flattened (must : Prop) (n : Nat) (b : Body) (z : OpId) (k : BlockId) (L B : List OpId) (a : ValueId) (S : Ty)
    (j : Nat) (N : List OpId) (s : Builder) (flat : ValueId) (e : Ty) : Prop where
  steps : AddedSteps must (fun _ => False) n (· = a) b z k L B [] b N s
  ty? : s.body.ty? flat = some e
  ground : e.isGround
  width : e.width = some j
  derives : Derives N s.body a flat id
  aggregate : S.isGround = false → MadeLast N s.body flat ∧ e = .uint j
  leaf : S.isGround → MadeLast N s.body flat ∨ flat = a

namespace Recastable

variable {rank j : Nat} {t : LowerState}

theorem makes (h : b.Recastable must C rank z op a u S c j) : b.Makes z .bitcast [a] [u] :=
  ⟨op, h.op?, by rw [h.kind], h.operands, h.results, h.stands⟩

theorem flatten_runs (h : t.builder.body.Recastable must C rank z op a u S c j) (hb : t.builder.body.Coherent)
    (hs : t.builder.body.slotsOf k = L ++ z :: B) (hp : t.builder.point = ⟨k, L.length⟩) :
    Runs must (flatten a) t.builder fun flat s => ∃ N e,
      t.builder.body.Flattened must (rank - 1) z k L B a S j N s flat e := by
  have hgrows := AddedSteps.grows must (fun _ => False) (rank - 1) (· = a) t.builder.body z k L B [] t.builder.body
  refine (hgrows.flatten_runs (Castable.strings h.ids_operand fun hm => ?_) (.start (.start hb hs hp)) (.inl rfl) h.operand
    (fun i _ => Castable.part _ _ i) fun _ => ⟨h.ids_operand, j, h.width_operand, h.lt⟩).mono ?_
  · have := h.depth hm
    omega
  rintro flat s ⟨N, e, hg, -, hty, hground, hbits, hagg, hleaf⟩
  obtain ⟨he, hd⟩ := hbits j h.width_operand
  refine ⟨N, e, hg.holds, hty, hground, he, hd, fun hS => ?_, fun hS => (hleaf hS).imp_right fun hf => hf.1⟩
  obtain ⟨hmade, n, -, rfl⟩ := hagg hS
  exact ⟨hmade, congrArg Ty.uint (Option.some.inj he)⟩

end Recastable

namespace Casting

variable {t : LowerState} {rank j : Nat} {s s' : Builder} {flat : ValueId} {e : Ty} {part : Part} {bits : List Bool}

/-- The operand of a cast is not in the chart, nor is what it is made. -/
theorem not_flat (h : Casting must T v x m C b₀ b R (P ++ [z]) D) (hz : b.Recastable must C rank z op a u S c j)
    (hf : b.Flattened must n z k L B a S j N s flat e) : (∀ {p}, ¬C p a) ∧ ∀ {p}, ¬C p flat := by
  have ha : ∀ {p}, ¬C p a := fun hp => h.chart.apart (x := z) (by simp) hp (hz.makes.reads.2 (by simp))
  refine ⟨ha, fun {p} hp => ?_⟩
  have hmade : MadeLast N s.body flat := by
    cases hg : S.isGround with
    | false => exact (hf.aggregate hg).1
    | true => exact (hf.leaf hg).resolve_right fun he => ha (he ▸ hp)
  obtain ⟨y, hy, kind, vs, hmk⟩ := hmade.madeIn
  have hge := hf.steps.added.new hy (hmk.origin? hf.steps.added.placed.coherent (i := 0) rfl)
  exact absurd (h.chart.isSome hp) (Nat.not_lt.2 hge)

/-- Where a cast is in the chart, what it is cut into holds the bits of the parts. -/
theorem slice_holds (h : Casting must T v x m C b₀ b R (P ++ [z]) D) (hb : b.Coherent)
    (hz : b.Recastable must C rank z op a u S c j) (hf : b.Flattened must n z k L B a S j N s flat e) (hu : C q u)
    (hext : Extends s.body s'.body) (hpart : c.child? part.index = some part.ty)
    (hslice : part.ty.width = some i → Derives M s'.body flat w fun bits => cut bits (c.bitsBefore part.index) i)
    (hi : part.ty.width = some i) (hne : i ≠ 0) (hlen : bits.length = m) :
    s'.body.Evaluates (Holding x bits) (fun y => y ∈ P ++ [z] ++ D ++ N ∨ y ∈ M) w
      (cut bits (T.offset (q ++ [part.index])) i) := by
  have hsub := h.chart.sub? hu hz.result
  have hbefore := hf.steps.added.ext
  have hle := Ty.bitsBefore_add_le hpart hi hz.width_result
  obtain ⟨S', hS', hlen', ha⟩ := h.operand_holds hb (by simp) hz.makes hu hsub hz.width_result (by omega) hlen
  obtain rfl := Option.some.inj (hz.operand.symm.trans hS')
  have hj : (cut bits (T.offset q) j).length = j := (Option.some.inj (hz.width_operand.symm.trans hlen')).symm
  have hflat := hf.derives.apply (Z := (· ∈ P ++ [z] ++ D ++ N)) (hbefore.ty?_some hz.operand) hlen'
    (fun y hy => List.mem_append_right _ hy) (ha.mono hbefore fun y hy => List.mem_append_left _ hy)
  rw [id_eq] at hflat
  have hw := (hslice hi).apply (Z := fun y => y ∈ P ++ [z] ++ D ++ N ∨ y ∈ M) (hext.ty?_some hf.ty?) (by rw [hj, hf.width])
    (fun y => .inr) (hflat.mono hext fun y => .inl)
  rwa [cut_cut hle, ← Ty.offset_concat hsub] at hw

/-- A part is cut out of the flat value. -/
theorem slice_runs (h : Casting must T v x m C b₀ b R (P ++ [z]) D) (hb : b.Coherent)
    (hz : b.Recastable must C rank z op a u S c j) (hf : b.Flattened must (rank - 1) z k L B a S j N s flat e) (hu : C q u)
    {ps done : List Part} {values : List ValueId} (hps : c.PartsOf ps) (hchild : c.child? part.index = some part.ty)
    (hI : Parted must (rank - 1) T x m (· ∈ P ++ [z] ++ D ++ N) (· = flat) b z k L B N s.body q done values M t.builder) :
    Runs must (slice flat ps part) t.builder fun w s' => ∃ K d kind vs,
      Grew (AddedSteps must (fun _ => True) (rank - 1) (· = flat) b z k L B (N ++ M) t.builder.body) [] t.builder
        (K ++ [d]) s' ∧
      (∀ y ∈ K, ∃ p vs v, s'.body.Makes y (.prim p) vs [v]) ∧
      s'.body.Makes d kind vs [w] ∧ s'.body.ty? w = some part.ty ∧ kind.fixedIndex? = none ∧
      (∀ a ∈ vs, ∃ t, s'.body.ty? a = some t ∧ t.isGround) ∧ ∀ {n bits}, part.ty.width = some n → n ≠ 0 →
        bits.length = m → s'.body.Evaluates (Holding x bits)
          (fun y => y ∈ P ++ [z] ++ D ++ N ∨ y ∈ M ++ (K ++ [d])) w (cut bits (T.offset (q ++ [part.index])) n) := by
  have hdepth := Ty.depth_lt_of_child? hchild
  have hext := hI.grown.ext
  have hflat := hext.ty?_some hf.ty?
  have hids := Ty.isSome_lastId?_child hz.ids_result hchild
  have hgrows := AddedSteps.grows must (fun _ => True) (rank - 1) (· = flat) b z k L B (N ++ M) t.builder.body
  refine (hgrows.slice_runs (.start hI.placed) (.inl rfl) hflat hf.ground hps hchild (fun h0 => ?_) (fun hle hlt => ?_)
    (fun hv hw hpw => ?_) fun _ => ⟨j, hz.width_result, hz.lt⟩).mono ?_
  · refine Castable.invalid h0 hids (fun hm => ?_) fun _ _ => trivial
    have := hz.depth hm
    omega
  · refine Castable.prim rfl fun hb' => ?_
    exact ⟨hle, flat, e, j, rfl, hb'.ty?_some hflat, hf.width, hlt j hz.width_result⟩
  · refine Castable.cast hv rfl hpw hw rfl hids (fun hm => ?_) fun _ _ => trivial
    have := hz.depth hm
    rw [Ty.depth_of_isGround (t := .uint _) rfl]
    omega
  · rintro w s' ⟨K, d, kind, vs, hg, hprims, hmk, hty, hfix, hground, hcut⟩
    refine ⟨K, d, kind, vs, hg, fun y hy => (hprims y hy).resolve_left List.not_mem_nil, hmk, hty, hfix, hground,
      fun {n bits} hw hne hlen => ?_⟩
    refine (h.slice_holds hb hz hf hu (hext.trans hg.body) hchild (fun hw => ?_) hw hne hlen).mono (.refl _)
      fun y => Or.imp_right (List.mem_append_right M)
    exact hcut j n hz.width_result hf.width hw hne

/-- An aggregate result is cut out of the flat value, part by part. -/
theorem slices_runs (h : Casting must T v x m C b₀ b R (P ++ [z]) D) (hr : b₀.Region o b (P ++ [z]) D)
    (hz : b.Recastable must C (R z) z op a u S c j)
    (hf : b.Flattened must (R z - 1) z k L B a S j N t.builder flat e) {ps : List Part} (hps : c.PartsOf ps)
    (hR : ∀ y, (b.op? y).isSome → R' y = R y) (hnew : ∀ y, b.op? y = none → R z - 1 ≤ R' y ∧ (must → R' y < R z)) :
    Runs must (splitProducer z false (slice flat ps)) t fun replaced t' =>
      if replaced then Layer must (Recast must T v x m b₀) b R z k L B P D t'
      else t'.builder.body = b ∧ Recast must T v x m b₀ b R P (z :: D) := by
  obtain ⟨q, hq⟩ := hz.charted hps.aggregate
  have hsub := h.chart.sub? hq hz.result
  have hext := hf.steps.added.ext
  have hpl := hf.steps.added.placed
  obtain ⟨ha, hflat⟩ := h.not_flat hz hf
  refine splitProducer_parts (hpl.op?_old hext hz.op?) hz.results (hext.ty?_some hz.result) (fun _ => hz.ids_result)
    (fun hkept => ?_) (J := fun done values t' => ∃ M, Parted must (R z - 1) T x m (· ∈ P ++ [z] ++ D ++ N) (· = flat) b z k
      L B N t.builder.body q done values M t'.builder) ⟨[], .start hpl⟩ ?_ ?_
  · rw [hps.aggregate] at hkept
    simp at hkept
  · rintro ps' done p rest values t' hps' hl ⟨M, hI⟩
    rw [hz.kind]
    exact hI.part_runs hps' hl hsub (fun _ => hz.ids_result) (fun hV => hV ▸ lt_of_ty? hf.ty?)
      (h.slice_runs hr.coherent hz hf hq hps (hps'.child_index (by simp [hl])) hI)
  · rintro ps' values t' hps' - ⟨M, hI⟩
    exact h.split_ends hr hf.steps hI (fun hw => hw ▸ ha) (fun hw => hw ▸ hflat) hz.op? hz.stands (.inl hz.kind) hz.results hq
      hsub hps' hR hnew

/-- An aggregate is made the ground result. -/
theorem whole_runs (h : Casting must T v x m C b₀ b R (P ++ [z]) D) (hr : b₀.Region o b (P ++ [z]) D)
    (hz : b.Recastable must C (R z) z op a u S c j)
    (hf : b.Flattened must (R z - 1) z k L B a S j N t.builder flat e) (hS : S.isGround = false) (hc : c.isGround)
    (hR : ∀ y, (b.op? y).isSome → R' y = R y) (hnew : ∀ y, b.op? y = none → R z - 1 ≤ R' y ∧ (must → R' y < R z)) :
    Runs must (do
      let replacement ← match c with
        | .ground (.sint _) => Build.asSInt flat
        | ty => castTo ty flat
      Lower.change (·.replaceAllUses u replacement)
      return true : Lower Bool) t fun replaced t' =>
      if replaced then Layer must (Recast must T v x m b₀) b R z k L B P D t'
      else t'.builder.body = b ∧ Recast must T v x m b₀ b R P (z :: D) := by
  have hgrows := AddedSteps.grows must (fun _ => False) (R z - 1) (· = a) b z k L B [] b
  have hext := hf.steps.added.ext
  obtain ⟨hmade, rfl⟩ := hf.aggregate hS
  -- whatever the ground value is, it is read in the same way
  have hend : ∀ {K s w}, Grew (AddedSteps must (fun _ => False) (R z - 1) (· = a) b z k L B [] b) N t.builder K s →
      MadeLast K s.body w → s.body.ty? w = some c → Derives K s.body flat w id →
      Runs must (do Lower.change (·.replaceAllUses u w); return true) ⟨s, t.symbols⟩ fun replaced t' =>
        if replaced then Layer must (Recast must T v x m b₀) b R z k L B P D t'
        else t'.builder.body = b ∧ Recast must T v x m b₀ b R P (z :: D) := by
    intro K s w hg hw hwty hd
    have ha := (hext.trans hg.body).ty?_some hz.operand
    refine Runs.bind_change (h.ground_ends hr hg.holds hz.op? hz.stands hz.kind hz.operands hz.results hz.operand hS hz.result
      hc hw hwty ⟨by simp [ha], fun {t' bits} ht hlen => ?_⟩ hR hnew) fun b hb => .pure hb
    have hlen' : (Ty.uint j).width = some bits.length := by
      obtain rfl := Option.some.inj (ha.symm.trans ht)
      rw [hf.width, ← hz.width_operand, hlen]
    exact hd.apply (Z := (· ∈ K)) (hg.body.ty?_some hf.ty?) hlen' (fun _ => id)
      ((hf.derives.mono hg.body fun _ => hg.mem).evaluates ht hlen)
  split
  next w =>
    refine Runs.bind_build (P := fun w' s => ∃ K,
      Grew (AddedSteps must (fun _ => False) (R z - 1) (· = a) b z k L B [] b) N t.builder K s ∧ MadeLast K s.body w' ∧
      s.body.ty? w' = some (.ground (.sint w)) ∧ Derives K s.body flat w' id) ?_
      fun w' s ⟨K, hg, hw, hwty, hd⟩ => hend hg hw hwty hd
    unfold Build.asSInt
    refine bind_knownWidth (fun _ => ⟨_, j, hf.ty?, rfl, hz.lt⟩) fun t' n ht hn _ => ?_
    obtain rfl := Option.some.inj (hf.ty?.symm.trans ht)
    obtain rfl : j = n := Option.some.inj hn
    obtain rfl : w = some j := hz.width_result
    have hat : ∀ v ∈ [flat], AtHand (· = a) N t.builder.body v := by
      simpa using hmade.madeIn.atHand hf.steps.added.placed.coherent
    refine (hgrows.prim_runs hf.steps hat (.cons hf.ty? .nil) rfl (Castable.prim (p := .asSInt) rfl fun _ => trivial)).mono ?_
    rintro w' s ⟨y, hg, hmk, hty, -⟩
    exact ⟨_, hg, ⟨_, _, _, _, rfl, hmk⟩, hty, .unary (by simp) hmk (hg.body.ty?_some hf.ty?) rfl⟩
  next =>
    have hM : Castable must (fun _ => False) (R z - 1) t.builder.body .bitcast [flat] [c] := by
      refine Castable.cast hf.ty? rfl hz.width_result hz.lt rfl hz.ids_result (fun _ => ?_) fun hg => ?_
      · rw [Ty.depth_of_isGround hc, Ty.depth_of_isGround (t := .uint j) rfl]
        exact Nat.zero_le _
      · rw [hc] at hg
        cases hg
    exact Runs.bind_build (hgrows.castTo_runs hf.steps hmade hf.ty? hM) fun w s ⟨K, hg, hw, hwty, hd⟩ => hend hg hw hwty hd

/-- A cast with an aggregate on either side gives way, others are passed. -/
theorem bitcast_runs (h : Casting must T v x m C b₀ t.builder.body R (P ++ [z]) D)
    (hr : b₀.Region o t.builder.body (P ++ [z]) D) (hz : t.builder.body.Recastable must C (R z) z op a u S c j)
    (hs : t.builder.body.slotsOf k = L ++ z :: B) (hp : t.builder.point = ⟨k, L.length⟩) :
    Runs must (Lower.bitcast z) t fun replaced t' =>
      if replaced then Layer must (Recast must T v x m b₀) t.builder.body R z k L B P D t'
      else t'.builder.body = t.builder.body ∧ Recast must T v x m b₀ t.builder.body R P (z :: D) := by
  have hb := hr.coherent
  unfold Lower.bitcast
  refine bind_operand hz.op? (v := a) (by rw [hz.operands]; rfl) ?_
  refine bind_result hz.op? (v := u) (by rw [hz.results]; rfl) ?_
  refine bind_typeOf hz.operand (bind_typeOf hz.result ?_)
  split
  next hground =>
    rw [Bool.and_eq_true] at hground
    exact .pure ⟨rfl, C, h.pass hb (.cast hz.makes hz.operand hz.result hz.width_operand hz.width_result hz.lt hz.ids_operand
      hz.ids_result hz.depth hz.charted fun _ => hground)⟩
  next hground =>
    have hpos : must → 0 < R z := fun hm => by
      have hle := hz.depth hm
      rw [Bool.and_eq_true, not_and_or, Bool.not_eq_true, Bool.not_eq_true] at hground
      have := hground.imp Ty.depth_pos Ty.depth_pos
      omega
    let R' : OpId → Nat := fun y => if (t.builder.body.op? y).isSome then R y else R z - 1
    have hR : ∀ y, (t.builder.body.op? y).isSome → R' y = R y := fun y hy => if_pos hy
    have hnew : ∀ y, t.builder.body.op? y = none → R z - 1 ≤ R' y ∧ (must → R' y < R z) := fun y hy => by
      have hy' : R' y = R z - 1 := if_neg (by simp [hy])
      exact ⟨Nat.le_of_eq hy'.symm, fun hm => by have := hpos hm; omega⟩
    refine Runs.bind_build (hz.flatten_runs hb hs hp) ?_
    rintro flat s ⟨N, e, hf⟩
    refine Runs.bind_except (Ty.peel_ends fun _ => hz.ids_result) fun r hr' => ?_
    cases r with
    | some ps => exact h.slices_runs (t := ⟨s, t.symbols⟩) hr hz hf hr'.1 hR hnew
    | none =>
      have hc : c.isGround := by simpa using hr'
      refine h.whole_runs (t := ⟨s, t.symbols⟩) hr hz hf ?_ hc hR hnew
      simpa [hc] using hground

/-! ## One layer -/

/-- A value of width zero gives way to values of its parts, which are of width zero, too. -/
theorem invalid_runs (h : Casting must T v x m C b₀ t.builder.body R (P ++ [z]) D)
    (hr : b₀.Region o t.builder.body (P ++ [z]) D) (hz : t.builder.body.Makes z .invalid [] [u])
    (hu : t.builder.body.ty? u = some c) (hc : c.width = some 0) (hidc : c.lastId?.isSome) (hn : must → c.depth ≤ R z)
    (hQ : c.isGround = false → ∃ p, C p u)
    (hs : t.builder.body.slotsOf k = L ++ z :: B) (hp : t.builder.point = ⟨k, L.length⟩) :
    Runs must (splitProducer z false fun part => Build.invalid part.ty) t fun replaced t' =>
      if replaced then Layer must (Recast must T v x m b₀) t.builder.body R z k L B P D t'
      else t'.builder.body = t.builder.body ∧ Recast must T v x m b₀ t.builder.body R P (z :: D) := by
  obtain ⟨op, hop, hbare, -, hres, he⟩ := id hz
  have hk : op.kind = .invalid := (OpKind.eq_of_bare_eq hbare.symm rfl).symm
  have hpl : t.builder.body.Prefixed z k L B [] t.builder := .start hr.coherent hs hp
  obtain ⟨q, hq⟩ : ∃ q, c.isGround = false → C q u := by
    cases hg : c.isGround with
    | false => exact (hQ hg).imp fun q hq _ => hq
    | true => exact ⟨[], nofun⟩
  let R' : OpId → Nat := fun y => if (t.builder.body.op? y).isSome then R y else R z - 1
  refine splitProducer_parts hop hres hu (fun _ => hidc) (fun hground => ?_) (J := fun done values t' => ∃ N,
    Parted must (R z - 1) T x m (· ∈ P ++ [z] ++ D ++ []) (fun _ => False) t.builder.body z k L B [] t.builder.body q done
      values N t'.builder) ⟨[], .start hpl⟩ ?_ ?_
  · have hground : c.isGround := by simpa using hground
    exact ⟨rfl, C, h.pass hr.coherent (.invalid hz hu hc hidc hn hQ fun _ => hground)⟩
  · rintro ps done p rest values t' hps hl ⟨N, hI⟩
    have hchild := hps.child_index (p := p) (by simp [hl])
    have hdepth := Ty.depth_lt_of_child? hchild
    have hwidth : p.ty.width = some 0 := by
      obtain ⟨w, hw, hle⟩ := Ty.width_child hc hchild
      rwa [Nat.le_zero.1 hle] at hw
    rw [hk]
    have hgrows := AddedSteps.grows must (fun _ => True) (R z - 1) (fun _ => False) t.builder.body z k L B ([] ++ N) t'.builder.body
    have hids := Ty.isSome_lastId?_child hidc hchild
    refine hI.part_runs (g := fun part => Build.invalid part.ty) hps hl (h.chart.sub? (hq hps.aggregate) hu) (fun _ => hidc)
      False.elim ?_
    refine (hgrows.invalid_runs (.start hI.placed) (Castable.invalid hwidth hids (fun hm => ?_) fun _ _ => trivial)).mono ?_
    · have := hn hm
      omega
    · rintro w s' ⟨d, hg, hmk, hty, -⟩
      refine ⟨[], d, _, _, hg, by simp, hmk, hty, rfl, by simp, fun {n bits} hw hne => ?_⟩
      rw [hwidth] at hw
      exact absurd (Option.some.inj hw).symm hne
  · rintro ps values t' hps - ⟨N, hI⟩
    have hpos := Ty.depth_pos hps.aggregate
    refine h.split_ends hr (.start hpl) hI False.elim False.elim hop he (.inr hk) hres (hq hps.aggregate)
      (h.chart.sub? (hq hps.aggregate) hu) hps (show ∀ y, _ → R' y = R y from fun y hy => if_pos hy) fun y hy => ?_
    have hy' : R' y = R z - 1 := if_neg (by simp [hy])
    exact ⟨Nat.le_of_eq hy'.symm, fun hm => by have := hn hm; omega⟩

/-- Casts of aggregates, and aggregates of width zero, give way; everything else is passed. -/
theorem step_runs (h : Casting must T v x m C b₀ t.builder.body R (P ++ [z]) D)
    (hkeep : cx.options.preserveAggregate = false) (hr : b₀.Region o t.builder.body (P ++ [z]) D)
    (hop : t.builder.body.op? z = some op) (hs : t.builder.body.slotsOf k = L ++ z :: B)
    (hp : t.builder.point = ⟨k, L.length⟩) :
    Runs must (Lower.step cx z op.kind) t fun replaced t' =>
      if replaced then Layer must (Recast must T v x m b₀) t.builder.body R z k L B P D t'
      else t'.builder.body = t.builder.body ∧ Recast must T v x m b₀ t.builder.body R P (z :: D) := by
  have hb := hr.coherent
  have hkind : ∀ {kind vs us}, t.builder.body.Makes z kind vs us → op.kind.bare = kind.bare := by
    rintro kind vs us ⟨op', hop', hbare, -⟩
    rwa [Option.some.inj (hop.symm.trans hop')]
  have heq : ∀ {kind vs us}, kind.decl? = none → t.builder.body.Makes z kind vs us → op.kind = kind := fun hd hz =>
    (OpKind.eq_of_bare_eq (hkind hz).symm hd).symm
  cases h.pending z (by simp) with
  | erased hdone => cases hdone
  | accessor hk hz =>
    have hfix := (OpKind.fixedIndex?_eq_of_bare_eq (hkind hz)).trans hk
    have hpass : Recast must T v x m b₀ t.builder.body R P (z :: D) := ⟨C, h.pass hb (.accessor hk hz)⟩
    cases hk' : op.kind <;> rw [hk'] at hfix <;> cases hfix
    all_goals exact Runs.pure (a := false) ⟨rfl, hpass⟩
  | constant hz hw hg =>
    rw [heq rfl hz]
    exact Runs.pure (a := false) ⟨rfl, C, h.pass hb (.constant hz hw hg)⟩
  | prim hz hw hg hin =>
    rw [heq rfl hz]
    exact Runs.pure (a := false) ⟨rfl, C, h.pass hb (.prim hz hw hg hin)⟩
  | cast hz ha hu hS hc hj hidS hidc hn hQ =>
    obtain ⟨op', hop', -, hops, hres, he⟩ := id hz
    obtain rfl := Option.some.inj (hop.symm.trans hop')
    rw [heq rfl hz]
    exact h.bitcast_runs hr ⟨hop, heq rfl hz, hops, hres, he, ha, hu, hS, hc, hj, hidS, hidc, hn, hQ⟩ hs hp
  | invalid hz hu hc hidc hn hQ =>
    rw [heq rfl hz]
    unfold Lower.step
    rw [hkeep]
    exact h.invalid_runs hr hz hu hc hidc hn hQ hs hp

end Casting

/-- Every layer keeps this. -/
theorem Recast.kept (hkeep : cx.options.preserveAggregate = false) : KeptByLayers must cx b₀ o (Recast must T v x m b₀) where
  nested _ {b R P D z z'} h hz hz' := by
    obtain ⟨op, hop, k, hk, -⟩ := mem_inner.1 hz'
    obtain ⟨C, h⟩ := h
    rw [(h.pending z hz).plain hop] at hk
    cases hk
  settle {b R P D z op} _ h hop hpass := by
    obtain ⟨C, h⟩ := h
    have hz := h.pending z (by simp)
    rcases hpass with he | hk
    · rw [(hz.pending hop).1] at he
      cases he
    · exact absurd (hz.plain hop) hk
  step hr h hop _ _ hs hp := h.elim fun _ h => h.step_runs hkeep hr hop hs hp

end Body

end Scalarize
