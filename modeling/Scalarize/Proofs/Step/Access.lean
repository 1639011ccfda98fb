import Scalarize.Proofs.Step.Producer

/-!
# Reads at computed positions

* `Body.constant?_ends`, `Body.vectorOf_ends` : what a read looks at first;
* `Chosen` : what makes the value that is read instead; `Grows.read_runs` : it is made;
* `Start.subaccess_runs` : the read gives way.
-/

namespace Scalarize

open Body Lower

namespace Body

variable {must : Prop} {b : Body} {v : ValueId}

theorem constant?_ends (h : b.Coherent) (hm : must → (b.value? v).isSome) :
    Ends must (b.constant? v) fun r => ∀ n, b.Literal v n ↔ r = some n := by
  refine Ends.bind (P := fun d? => (d? = none ∧ b.origin? v = some .argument) ∨
    ∃ d i, d? = some d ∧ b.origin? v = some (.result d i)) (definer_ends (fun ha => .inl ⟨rfl, ha⟩)
      (fun d i hr => .inr ⟨d, i, rfl, hr⟩) hm) ?_
  rintro _ (⟨rfl, ha⟩ | ⟨d, i, rfl, hr⟩)
  · refine .pure fun n => ⟨?_, fun h => by cases h⟩
    rintro ⟨d, i, op, hr, -⟩
    rw [ha] at hr
    cases hr
  · obtain ⟨op, hop, -⟩ := h.origin hr
    refine (kindOf_ends (Q := fun k => k = op.kind) (fun op' hop' => ?_) fun _ => by rw [hop]; rfl).bind ?_
    · rw [hop] at hop'
      rw [Option.some.inj hop']
    rintro _ rfl
    have hlit : ∀ n, b.Literal v n ↔ op.kind = .constant n := by
      intro n
      constructor
      · rintro ⟨d', i', op', hr', hop', hk⟩
        rw [hr] at hr'
        obtain ⟨rfl, -⟩ : d = d' ∧ i = i' := by simpa using hr'
        rw [hop] at hop'
        rw [Option.some.inj hop', hk]
      · exact fun hk => ⟨d, i, op, hr, hop, hk⟩
    split
    next value hk =>
      refine .pure fun n => (hlit n).trans ?_
      rw [hk, OpKind.constant.injEq, Option.some.injEq]
    next hne =>
      refine .pure fun n => (hlit n).trans ⟨fun hk => absurd hk (hne n), fun h => by cases h⟩

theorem vectorOf_ends (hm : must → ∃ e n, b.ty? v = some (.vector e n)) :
    Ends must (b.vectorOf v) fun r => b.ty? v = some (.vector r.1 r.2) := by
  refine (typeOf_ends (fun _ h => h) fun hmust => ?_).bind fun t ht => ?_
  · obtain ⟨e, n, hty⟩ := hm hmust
    rw [hty]
    rfl
  split
  next e n => exact .pure ht
  next hne =>
    refine .throw fun hmust => ?_
    obtain ⟨e, n, hty⟩ := hm hmust
    rw [ht] at hty
    exact hne e n (Option.some.inj hty)

end Body

/-- The operation that makes what is read from a vector of length `n` at the position `index` of `b₀`. -/
inductive Chosen (b₀ b : Body) (input index : ValueId) (n : Nat) : OpKind → List ValueId → Prop
  | invalid (hn : n = 0) : Chosen b₀ b input index n .invalid []
  | literal {l : Nat} (hn : n ≠ 0) (hl : b₀.Literal index l) :
      Chosen b₀ b input index n (.subindex (l % UInt64.size)) [input]
  | choice {parts : List ValueId} (hn : n ≠ 0) (hl : ∀ l, ¬b₀.Literal index l)
      (hparts : List.Forall₂ (fun i w => b.PartOf input i w) (List.range n).reverse parts) :
      Chosen b₀ b input index n .multiMux (index :: parts)

theorem types_of_parts {b : Body} {input : ValueId} {e : Ty} {n : Nat}
    (hin : b.ty? input = some (.vector e n)) {is : List Nat} (hlt : ∀ i ∈ is, i < n)
    {ws : List ValueId} (h : List.Forall₂ (fun i w => b.PartOf input i w) is ws) :
    b.Types ws (ws.map fun _ => e) := by
  induction h with
  | nil => exact .nil
  | @cons i w is ws hp _ ih =>
    have hc : (Ty.vector e n).child? i = some e := by
      rw [Ty.child?, if_pos (hlt i List.mem_cons_self)]
    exact .cons (hp.ty? hin hc) (ih fun i hi => hlt i (List.mem_cons_of_mem _ hi))

namespace Grows

variable {must : Prop} {S : ValueId → Prop} {M : Body → OpKind → List ValueId → List Ty → Prop}
  {A : OpKind → List Ty → Prop} {I : List OpId → Builder → Prop} {N : List OpId} {t : LowerState}

/-- A read at a computed position is replaced. -/
theorem read_runs (hI : Grows S M A I) (h : I N t.builder) {o : OpId} {op : Operation}
    {input index r : ValueId} {e x : Ty} {n : Nat} (hop : t.builder.body.op? o = some op)
    (hops : op.operands = [input, index]) (hres : op.results = [r])
    (hin : t.builder.body.ty? input = some (.vector e n)) (hx : t.builder.body.ty? index = some x)
    (hv : AtHand S N t.builder.body input) (hv' : AtHand S N t.builder.body index)
    (hinv : n = 0 → M t.builder.body .invalid [] [e])
    (hpart : ∀ {N' s'} i, Grew I N t.builder N' s' → MakesPart M s'.body input i)
    (hmux : ∀ {N' s' parts}, Grew I N t.builder N' s' → n ≠ 0 →
      (∀ l, ¬t.builder.body.Literal index l) →
      List.Forall₂ (fun i w => s'.body.PartOf input i w) (List.range n).reverse parts →
      M s'.body .multiMux (index :: parts) [e])
    (hm : must → ∀ {l}, t.builder.body.Literal index l → n = 0 ∨ l % UInt64.size < n)
    {Q : Bool → LowerState → Prop}
    (hQ : ∀ {N' s' w}, Grew I N t.builder N' s' → (∃ o' ∈ N', ∃ kind vs, s'.body.Makes o' kind vs [w] ∧
      s'.body.ty? w = some e ∧ Chosen t.builder.body s'.body input index n kind vs) →
      Ends must (s'.body.replaceAllUses r w) fun b => Q true ⟨⟨b, s'.point⟩, t.symbols⟩) :
    Runs must (Lower.subaccess o) t Q := by
  have hb := hI.coherent h
  unfold Lower.subaccess
  refine Body.bind_operand hop (v := input) (by rw [hops]; rfl) ?_
  refine Body.bind_operand hop (v := index) (by rw [hops]; rfl) ?_
  refine Body.bind_result hop (v := r) (by rw [hres]; rfl) ?_
  refine Runs.bind_body (P := fun en => en = (e, n)) ((vectorOf_ends fun _ => ⟨e, n, hin⟩).mono
    fun en hen => ?_) ?_
  · rw [hin] at hen
    obtain ⟨h₁, h₂⟩ : e = en.1 ∧ n = en.2 := by simpa using hen
    rw [h₁, h₂]
  rintro _ rfl
  dsimp only
  -- whatever makes the value, the readers are handed over in the same way
  have hend : ∀ {N' s' w}, Grew I N t.builder N' s' → (∃ o' ∈ N', ∃ kind vs,
      s'.body.Makes o' kind vs [w] ∧ s'.body.ty? w = some e ∧
      Chosen t.builder.body s'.body input index n kind vs) →
      Runs must (do Lower.change (·.replaceAllUses r w); return true) ⟨s', t.symbols⟩ Q :=
    fun hg hmade => Runs.bind_change (hQ hg hmade) fun b hb' => .pure hb'
  split
  next hn =>
    refine Runs.bind_build (hI.invalid_runs h (hinv hn)) ?_
    rintro w s' ⟨o', hg, hmk, hty, -⟩
    exact hend hg ⟨o', by simp, _, _, hmk, hty, .invalid hn⟩
  next hn =>
    have hval : (t.builder.body.value? index).isSome := by
      rw [isSome_value?, ← isSome_ty?, hx]
      rfl
    refine Runs.bind_body (constant?_ends hb fun _ => hval) fun l? hl => ?_
    cases l? with
    | some l =>
      have hlit : t.builder.body.Literal index l := (hl l).2 rfl
      refine Runs.bind_build (hI.subindex_runs h hv (hpart _ (.refl h)) fun hmust => ?_) ?_
      · rcases hm hmust hlit with h0 | hlt
        · exact absurd h0 hn
        · exact ⟨e, n, hin, hlt⟩
      rintro w s' ⟨-, u, c, kind, hu, hr, o', hg, hmk, hty, -⟩
      rw [hin] at hu
      obtain rfl := Option.some.inj hu
      obtain ⟨hc, ⟨-, fs, hfs⟩ | ⟨rfl, -⟩⟩ := hr
      · cases hfs
      obtain rfl : e = c := by
        simp only [Ty.child?] at hc
        split at hc
        · exact Option.some.inj hc
        · cases hc
      exact hend hg ⟨o', by simp, _, _, hmk, hty, .literal hn hlit⟩
    | none =>
      have hnot : ∀ l, ¬t.builder.body.Literal index l := fun l hl' => by cases (hl l).1 hl'
      refine Runs.bind (Runs.mapM (fun done ws (t' : LowerState) => t'.symbols = t.symbols ∧
        ∃ N', Grew I N t.builder N' t'.builder ∧ (∀ w ∈ ws, AtHand S N' t'.builder.body w) ∧
          List.Forall₂ (fun i w => t'.builder.body.PartOf input i w) done ws) _
        ⟨rfl, N, .refl h, by simp, .nil⟩ ?_) ?_
      · rintro done i rest ws t' hl ⟨hy, N', hg, hws, hparts⟩
        have hi : i < n := by
          have : i ∈ (List.range n).reverse := by
            rw [hl]
            exact List.mem_append_right _ List.mem_cons_self
          simpa using this
        refine Runs.build ((hI.subindex_runs hg.holds (hg.atHand hv) (hpart i hg)
          fun _ => ⟨e, n, hg.body.ty?_some hin, hi⟩).mono ?_)
        rintro w s' ⟨-, hnew⟩
        obtain ⟨N'', hg', hw, hp⟩ := hnew.partOf
        refine ⟨hy, _, hg.trans hg', fun u hu => ?_, ?_⟩
        · rcases List.mem_append.1 hu with hu | hu
          · exact hg'.atHand (hws u hu)
          · rw [List.mem_singleton.1 hu]
            exact hw.atHand (hI.coherent hg'.holds)
        · exact List.rel_append (hparts.imp fun _ _ hp => hp.mono hg'.body) (.cons hp .nil)
      · rintro ws t' ⟨hy, N', hg, hws, hparts⟩
        have hlen := hparts.length_eq
        obtain ⟨w₁, ws', rfl⟩ : ∃ w₁ ws', ws = w₁ :: ws' := by
          cases ws with
          | nil => exact absurd (by simpa using hlen) hn
          | cons w₁ ws' => exact ⟨w₁, ws', rfl⟩
        have hin' := hg.body.ty?_some hin
        have hlt : ∀ i ∈ (List.range n).reverse, i < n := fun i hi => by simpa using hi
        have htypes := types_of_parts hin' hlt hparts
        obtain ⟨hty, hrest⟩ : t'.builder.body.ty? w₁ = some e ∧
            t'.builder.body.Types ws' (ws'.map fun _ => e) := by
          cases htypes with | cons h₁ h₂ => exact ⟨h₁, h₂⟩
        refine Runs.bind_build (hI.multiMux_runs hg.holds (fun u hu => ?_)
          (by rw [hg.body.ty?_some hx]; rfl) hty hrest (hmux hg hn hnot hparts)) ?_
        · rcases List.mem_cons.1 hu with rfl | hu
          · exact hg.atHand hv'
          · exact hws u hu
        rintro w s' ⟨o', hg', hmk, hty', -⟩
        rw [hy]
        refine hend (hg.trans hg') ⟨o', by simp, _, _, hmk, hty', .choice hn hnot ?_⟩
        exact hparts.imp fun _ _ hp => hp.mono hg'.body

end Grows

namespace Start

variable {q : Setting} {b₀ : Body} {R₀ : OpId → Nat} {P D N : List OpId} {o : OpId} {k : BlockId}
  {A B : List OpId} {op : Operation} {r w : ValueId} {ty u : Ty} {s : Builder} {y : Symbols}

/-- The readers of an operation read what was made since it was taken up. -/
theorem replaceAllUses_ends (h : Start q b₀ R₀ P o D k A B) (hF : Front q b₀ R₀ P o D k A B N s)
    (hext : Extends b₀ s.body) (htr : s.body.Tracked y) (hop : b₀.op? o = some op)
    (hplain : op.kind.blocks = []) (hres : op.results = [r]) (hty : b₀.ty? r = some ty)
    (hw : MadeIn N s.body w) (hwty : s.body.ty? w = some u) (hag : ty.Agree u) :
    Ends q.must (s.body.replaceAllUses r w) fun b =>
      Stepped q.must (Lowering.stage q) b₀ R₀ k A o B P D true ⟨⟨b, s.point⟩, y⟩ := by
  obtain ⟨⟨H, hH⟩, R, hR⟩ := hF
  obtain ⟨op', hop', -, -, hres', -, -⟩ := hext.op? hop
  rw [hres] at hres'
  have hr : s.body.origin? r = some (.result o 0) :=
    hR.holds.coherent.result hop' (by rw [hres']; rfl)
  refine (hR.replaceAllUses_ends hr (hext.ty?_some hty) hw hwty hag).mono fun b ⟨hR', hrep, hne⟩ => ?_
  refine h.stepped hH hR (by rw [guardedBlocks_eq hop, hplain]) hrep.outlives hR'.holds
    (htr.outlives hrep.outlives) ?_
  rintro - ⟨op₁, v, x, hop₁, hv, hx⟩
  obtain ⟨op₂, hop₂, -, hres₂, -⟩ := hrep.outlives.op?_some' hop₁
  rw [hop'] at hop₂
  obtain rfl := Option.some.inj hop₂
  rw [hres₂, hres', List.mem_singleton] at hv
  subst hv
  rcases hrep.reads_iff.1 hx with ⟨-, hne'⟩ | ⟨he, -⟩
  · exact hne' rfl
  · exact hne he

/-- Computed reads give way to choices among the elements. -/
theorem subaccess_runs (h : Start q b₀ R₀ P o D k A B) (htr : b₀.Tracked y)
    (hop : b₀.op? o = some op) (he : op.erased = false) (hk : op.kind = .subaccess) :
    Runs q.must (Lower.subaccess o) ⟨⟨b₀, ⟨k, A.length⟩⟩, y⟩
      (Stepped q.must (Lowering.stage q) b₀ R₀ k A o B P D) := by
  obtain ⟨ins, outs, hins, houts, hsh⟩ := h.shaped hop he
  have hready := fun hm => h.ready hm hop he houts
  rw [hk] at hsh hready
  obtain ⟨e, n, x, rfl, rfl⟩ := hsh
  obtain ⟨input, index, hin, hx, hops⟩ := hins.pair
  obtain ⟨r, hty, hres⟩ := houts.singleton
  rw [hops] at hready
  have hb₀ := h.holds.coherent
  have hvin : b₀.Readable q P input := h.readable hop (by simp [hops])
  have hvx : b₀.Readable q P index := h.readable hop (by simp [hops])
  have hrank : q.must → e.depth < R₀ o := fun hm => (hready hm).2 e (List.mem_singleton_self _)
  have hsized : ∀ t ∈ [e], q.must → t.lastId?.isSome ∧ t.depth ≤ q.depth := fun t ht hm =>
    (hready hm).1.sized t ht
  refine h.grows.read_runs (t := ⟨⟨b₀, ⟨k, A.length⟩⟩, y⟩) h.front hop hops hres hin hx (.inl hvin)
    (.inl hvx) (fun hn => ?_) (fun {N' s'} i hg => ?_) (fun {N' s' parts} hg hn hnot hparts => ?_)
    (fun hm {l} hl => ?_) fun {N' s' w} hg ⟨o', ho', kind, vs, hmk, hwty, hc⟩ => ?_
  · intro hm
    exact ⟨⟨⟨[], .nil, rfl, e, rfl⟩, fun t ht => hsized t ht hm, (by rintro _ _ _ _ _ ⟨⟩)⟩,
      e.depth, hrank hm, fun t ht => Nat.le_of_eq (by rw [List.mem_singleton.1 ht])⟩
  · exact .part (fun hm {_ _} hu => hg.holds.sized hm hu)
      (fun hm => Nat.lt_of_le_of_lt (Nat.zero_le _) (hrank hm)) input i
  · intro hm
    have hb := h.grows.coherent hg.holds
    obtain ⟨⟨ins', hins', hck⟩, -, -⟩ := (hready hm).1
    obtain ⟨e', n', x', hin', -, hground⟩ := hck
    obtain rfl : x = x' := by
      rw [hin'] at hins'
      cases hins' with | cons _ h₂ => cases h₂ with | cons h₂ _ => simpa using hx.symm.trans h₂
    have hlt : ∀ i ∈ (List.range n).reverse, i < n := fun i hi => by simpa using hi
    have htypes := types_of_parts (hg.body.ty?_some hin) hlt hparts
    refine ⟨⟨?_, fun t ht => hsized t ht hm, (by rintro _ _ _ _ _ ⟨⟩)⟩,
      e.depth, hrank hm, fun t ht => Nat.le_of_eq (by rw [List.mem_singleton.1 ht])⟩
    · obtain ⟨w₁, ws', rfl⟩ : ∃ w₁ ws', parts = w₁ :: ws' := by
        cases parts with
        | nil => exact absurd (by simpa using hparts.length_eq) hn
        | cons w₁ ws' => exact ⟨w₁, ws', rfl⟩
      exact ⟨x :: e :: ws'.map fun _ => e, .cons (hg.body.ty?_some hx) htypes, x,
        ws'.map fun _ => e, e, rfl, rfl, hground, by simp⟩
  · have hn := Ty.length_lt (h.holds.sized hm hin).1
    refine ((hready hm).1.literal rfl rfl hin hl).imp_right fun hlt => ?_
    rw [Nat.mod_eq_of_lt (Nat.lt_trans hlt hn)]
    exact hlt
  · exact h.replaceAllUses_ends hg.holds hg.body (htr.persists hg.body.persists) hop (by rw [hk]; rfl)
      hres hty ⟨o', ho', kind, vs, hmk⟩ hwty (.refl e)

end Start

end Scalarize
