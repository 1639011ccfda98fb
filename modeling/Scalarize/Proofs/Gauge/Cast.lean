import Scalarize.Proofs.Gauge.Split

/-!
# Casts within a gauge

* `Extent.flattened` : what an aggregate becomes when its leaves are strung together;
* `Site.flatten_runs`, `Site.clones_slice` : stringing leaves together, and cutting a part out again;
* `Site.bitcast_runs` : a cast gives way to a bounded number of operations of lower rank.
-/

namespace Scalarize

open Body Lower

/-- An aggregate whose leaves are strung together. If there is one leaf only, it is an accessor still, and
every cast on the way may have been one. -/
def Extent.flattened (p : Extent) : Extent := ⟨p.accesses, p.depth - 1, p.chain + 2 ^ (p.depth - 1)⟩

namespace Extent

variable {p r : Extent}

theorem two_pow_pred (h : 0 < p.depth) : 2 ^ (p.depth - 1) + 2 ^ (p.depth - 1) = 2 ^ p.depth := by
  obtain ⟨d, hd⟩ : ∃ d, p.depth = d + 1 := ⟨p.depth - 1, by omega⟩
  rw [hd, Nat.add_sub_cancel, Nat.pow_succ]
  omega

theorem part_casts (p : Extent) : p.part.Casts p.flattened := by
  refine ⟨Nat.le_refl _, Nat.le_refl _, ?_⟩
  show p.chain + 1 + 2 ^ (p.depth - 1) ≤ p.chain + 2 ^ (p.depth - 1) + 1
  omega

theorem Casts.flattened (h : p.Casts r) (hp : 0 < p.depth) : p.flattened.Casts r := by
  refine ⟨h.accesses, Nat.le_trans (Nat.sub_le _ _) h.depth, ?_⟩
  have := h.chain
  have := two_pow_pred hp
  show p.chain + 2 ^ (p.depth - 1) + 2 ^ (p.depth - 1) ≤ r.chain + 1
  omega

/-- A value that nothing stands behind may be cast to any. -/
theorem flat_casts {p : Extent} (h : p ≤ flat 0) (d : Nat) : p.Casts (flat d) := by
  obtain ⟨ha, hd, hc⟩ := h
  have hd : p.depth = 0 := Nat.le_zero.1 hd
  have hc : p.chain = 0 := Nat.le_zero.1 hc
  exact ⟨ha, hd.symm ▸ Nat.zero_le _, by rw [hc, hd]; exact Nat.le_refl _⟩

end Extent

/-- Ground values of a flattened extent are within the limits. -/
theorem Limits.Holds.flattened {L : Limits} {t : Ty} {p : Extent} (h : L.Holds t p) (hp : 0 < p.depth) (g : Ground) :
    L.Holds (.ground g) p.flattened where
  type := Nat.zero_le _
  breadth := Nat.zero_le _
  accesses := h.accesses
  depth := Nat.le_trans (Nat.sub_le _ _) h.depth
  chain := by
    have := h.chain
    have := Extent.two_pow_pred hp
    show p.chain + 2 ^ (p.depth - 1) + 2 ^ (p.depth - 1) ≤ L.chain
    omega

namespace Builder.Site

variable {cx : Context} {L : Limits} {n c d : Nat} {G G₀ : Gauge} {s s₀ : Builder} {t : LowerState} {o : OpId}

/-! ## Stringing leaves together -/

/-- A value, if there is one, is within an extent. -/
def Strung (p : Extent) (G : Gauge) (s : Builder) (flat : Option ValueId) : Prop :=
  ∀ v, flat = some v → (s.body.ty? v).isSome ∧ G.extent v ≤ p

theorem Strung.lays {p : Extent} {flat : Option ValueId} {G' : Gauge} {s' : Builder} (h : Strung p G s flat)
    (hl : s.Lays cx L n c G G' s') : Strung p G' s' flat := by
  intro v hv
  obtain ⟨hsome, hle⟩ := h v hv
  obtain ⟨t, ht⟩ := Option.isSome_iff_exists.1 hsome
  rw [hl.laid.ty? ht, hl.extent ht]
  exact ⟨rfl, hle⟩

theorem strung_of_supplies {p q : Extent} {ty : Ty} {v : ValueId} {G' : Gauge} {s' : Builder}
    (h : s.Supplies cx L n c G q ty v G' s') (hq : q ≤ p) : Strung p G' s' (some v) := by
  intro w hw
  obtain rfl := Option.some.inj hw
  rw [h.type]
  exact ⟨rfl, Extent.le_trans h.extent_le hq⟩

/-- One more part is put above those that are strung together. -/
theorem appendPart_runs (h : s.Site cx L n G) {input : ValueId} {ty : Ty} {flat : Option ValueId}
    (hin : s.body.ty? input = some ty) (hpos : 0 < (G.extent input).depth)
    (hn : 2 * (G.extent input).depth ≤ n + 1) (hflat : Strung (G.extent input).flattened G s flat) (part : Part) :
    Runs False (appendPart input flat part) s fun r s' => ∃ G', s.Lays cx L n 3 G G' s' ∧
      Strung (G.extent input).flattened G' s' r := by
  have hvalue := h.gauged.value hin
  refine .bind_exceptBuild (P := fun _ => True) (.intro (fun _ _ => trivial) nofun) fun width _ => ?_
  split
  · exact .pure ⟨G, (Lays.refl h.gauged).mono (Nat.le_refl _) (Nat.zero_le _), hflat⟩
  refine (h.part_runs input part.index).bind ?_
  rintro v s₁ ⟨G₁, t₁, c₁, ht₁, hc₁, hg₁⟩
  have hs₁ := h.lays hg₁.toLays
  have hdepth : (G₁.extent v).depth ≤ (G.extent input).depth - 1 := hg₁.extent_le.2.1
  refine (hs₁.castTo_runs ((Extent.part_casts _).mono hg₁.extent_le) (hvalue.flattened hpos _) ?_).bind ?_
  · show _ + ((G.extent input).depth - 1) + 1 ≤ n
    omega
  rintro leaf s₂ ⟨G₂, hg₂⟩
  have hleaf := hg₂.after hg₁.toLays
  split
  next => exact .pure ⟨G₂, hleaf.toLays.mono (Nat.le_refl _) (by decide), strung_of_supplies hleaf (Extent.le_refl _)⟩
  next low =>
    refine (Build.cat_any leaf low).bind ?_
    rintro w s₃ ⟨p, width', hm⟩
    obtain ⟨G₃, hg₃⟩ := (hs₁.lays hg₂.toLays).madeGround hm fun _ _ => trivial
    have hboth := hg₃.after hleaf.toLays
    exact .pure ⟨G₃, hboth.toLays, strung_of_supplies hboth (Extent.flat_le (Nat.zero_le _))⟩

/-- A value as one unsigned value. -/
theorem flatten_runs (h : s.Site cx L n G) {input : ValueId} {ty : Ty} (hin : s.body.ty? input = some ty)
    (hn : 2 * (G.extent input).depth ≤ n + 1) :
    Runs False (flatten input) s fun v s' => ∃ G', s.Lays cx L n (L.breadth * 3 + 1) G G' s' ∧
      (s'.body.ty? v).isSome ∧ (ty.isGround = false → G'.extent v ≤ (G.extent input).flattened) := by
  refine Build.typeOf_any fun t' ht' => ?_
  obtain rfl := Option.some.inj (hin.symm.trans ht')
  refine .bind_exceptBuild (Ty.peel_ends nofun) fun parts? hparts => ?_
  have hvalue := h.gauged.value hin
  split
  next parts =>
    have hps : Ty.PartsOf ty parts := hparts.1
    have hpos := Nat.lt_of_lt_of_le (Ty.depth_pos hps.aggregate) hvalue.type
    have hlen := Nat.le_trans hps.length_le hvalue.breadth
    refine (Runs.foldlM (fun done (flat : Option ValueId) s' => ∃ G',
      s.Lays cx L n (done.length * 3) G G' s' ∧ Strung (G.extent input).flattened G' s' flat) parts
      ⟨G, .refl h.gauged, fun v hv => by cases hv⟩ ?_).bind ?_
    · rintro done p rest flat s' _ ⟨G', hl, hflat⟩
      have hext := hl.extent hin
      refine ((h.lays hl).appendPart_runs (hl.laid.ty? hin) (hext ▸ hpos) (hext ▸ hn) (hext ▸ hflat) p).mono ?_
      rintro r s'' ⟨G'', hl', hr⟩
      refine ⟨G'', ?_, hext ▸ hr⟩
      rw [List.length_append, Nat.add_mul]
      exact hl.trans hl'
    rintro flat s' ⟨G', hl, hflat⟩
    have hcount : parts.length * 3 + 1 ≤ L.breadth * 3 + 1 := Nat.succ_le_succ (Nat.mul_le_mul_right 3 hlen)
    split
    next v =>
      exact .pure ⟨G', hl.mono (Nat.le_refl _) (Nat.le_of_succ_le hcount), (hflat v rfl).1, fun _ => (hflat v rfl).2⟩
    next =>
      refine (Build.createValue_any rfl [] (.uint 0)).mono fun v s'' hm => ?_
      obtain ⟨G'', hg⟩ := (h.lays hl).madeGround hm fun _ _ => trivial
      have hboth := hg.after hl
      refine ⟨G'', hboth.toLays.mono (Nat.le_refl _) hcount, by rw [hboth.type]; rfl, fun _ => ?_⟩
      exact Extent.le_trans hboth.extent_le (Extent.flat_le (Nat.zero_le _))
  next =>
    have hground : ty.isGround = true := hparts.resolve_right (by simp)
    have hno : ∀ {P : Prop}, ty.isGround = false → P := fun hf => by rw [hground] at hf; cases hf
    split
    · exact .pure ⟨G, (Lays.refl h.gauged).mono (Nat.le_refl _) (Nat.zero_le _), by rw [hin]; rfl, hno⟩
    · refine Build.knownWidth_any fun w => Build.prim_any.mono fun v s' hm => ?_
      obtain ⟨G', hg⟩ := h.madeGround hm fun _ _ => trivial
      exact ⟨G', hg.toLays.mono (Nat.le_refl _) (Nat.le_add_left _ _), by rw [hg.type]; rfl, hno⟩

/-! ## Cutting parts out -/

theorem clones_slice {flat : ValueId} {parts : List Part} {part : Part} (hty : L.Holds part.ty (.flat (d - 1)))
    (hn : d - 1 + 1 ≤ n) : Clones cx L n 2 G s₀ d (slice flat parts part) := by
  intro m G' s hl hs
  refine .bind_exceptBuild (P := fun _ => True) (.intro (fun _ _ => trivial) nofun) fun width _ => ?_
  have hone {v : ValueId} {ty : Ty} {q : Extent} {G'' : Gauge} {s' : Builder} (hq : q ≤ .flat (d - 1))
      (hg : s.Supplies cx L n 1 G' q ty v G'' s') :
      ∃ ty G'', s.Supplies cx L n 2 G' (.flat (d - 1)) ty v G'' s' :=
    ⟨ty, G'', (hg.le hq).mono (Nat.le_refl _) (by decide)⟩
  split
  · refine (Build.createValue_any rfl [] part.ty).mono fun v s' hm => ?_
    obtain ⟨G'', hg⟩ := hs.made hm hty fun r hr => by
      rw [List.mem_singleton.1 hr]
      exact hn
    exact hone (Extent.le_refl _) hg
  dsimp only
  split
  · exact .bind_throw id
  refine (Build.bits_any flat _ _).bind ?_
  rintro v s₁ ⟨p, w, hm⟩
  obtain ⟨G₁, hg₁⟩ := hs.madeGround hm fun _ _ => trivial
  split
  · exact .pure (hone (Extent.flat_le (Nat.zero_le _)) hg₁)
  · refine (Build.createValue_any rfl [v] part.ty).mono fun u s₂ hm₂ => ?_
    obtain ⟨G₂, hg₂⟩ := (hs.lays hg₁.toLays).made hm₂ hty fun w hw r hr => by
      obtain rfl := Option.some.inj hw
      rw [List.mem_singleton.1 hr]
      have hz : (G₁.extent v).depth ≤ 0 := hg₁.extent_le.2.1
      refine ⟨Extent.flat_casts hg₁.extent_le _, ?_⟩
      show (G₁.extent v).depth + (d - 1) + 1 ≤ n
      omega
    exact ⟨part.ty, G₂, hg₂.after hg₁.toLays⟩

/-! ## Casts -/

/-- A cast gives way within the gauge. -/
theorem bitcast_runs (h : t.builder.Site cx L n G) {op : Operation} (hop : t.builder.body.op? o = some op)
    (hk : op.kind = .bitcast) (hfits : op.InGauge cx L G.extent t.builder.body.ty? (n + 1)) :
    Runs False (Lower.bitcast o) t fun _ t' =>
      ∃ G', t.builder.body.Laid cx L n (L.breadth * 3 + 1 + L.breadth * 2 + 1) G G' t'.builder.body := by
  have hstay : ∃ G', t.builder.body.Laid cx L n (L.breadth * 3 + 1 + L.breadth * 2 + 1) G G' t.builder.body :=
    ⟨G, (Laid.refl h.gauged).mono (Nat.le_refl _) (Nat.zero_le _)⟩
  refine Runs.bind_body (P := fun v => op.operands[0]? = some v) (operand_ends (fun op' v hop' hv => by
    rw [Option.some.inj (hop.symm.trans hop')]; exact hv) nofun) fun input hinput => ?_
  refine Runs.bind_body (P := fun r => op.results[0]? = some r) (result_ends (fun op' r hop' hr => by
    rw [Option.some.inj (hop.symm.trans hop')]; exact hr) nofun) fun r hr => ?_
  refine Runs.bind_body (P := fun ty => t.builder.body.ty? input = some ty) (typeOf_ends (fun _ h => h) nofun)
    fun inputTy hin => ?_
  refine Runs.bind_body (P := fun ty => t.builder.body.ty? r = some ty) (typeOf_ends (fun _ h => h) nofun)
    fun resultTy hres => ?_
  have hcast : (G.extent input).Casts (G.extent r) ∧ (G.extent input).depth + (G.extent r).depth + 1 ≤ n + 1 := by
    unfold Operation.InGauge at hfits
    rw [hk] at hfits
    exact hfits (G.extent input) (by rw [List.getElem?_map, hinput]; rfl) _
      (List.mem_map_of_mem (List.mem_of_getElem? hr))
  obtain ⟨hcast, hrank⟩ := hcast
  have hle := hcast.depth
  split
  · exact .pure hstay
  next hground =>
    refine Runs.bind_build (h.flatten_runs hin (by omega)) ?_
    rintro flat s₁ ⟨G₁, hl₁, hflat, hext⟩
    have hs₁ := h.lays hl₁
    refine Runs.bind_except (Ty.peel_ends nofun) fun parts? hparts => ?_
    split
    next parts =>
      obtain ⟨op₁, hop₁, -, -, hres₁, -⟩ := hl₁.body.op? hop
      refine (splitProducer_runs (t := ⟨s₁, t.symbols⟩) (c := 2) hs₁ hop₁
        fun {r' ty' parts' part} hr' hty' hps' hp' => ?_).mono ?_
      · obtain rfl : r = r' := Option.some.inj (hr.symm.trans (hres₁ ▸ hr'))
        obtain ⟨hpart, hn⟩ := hs₁.of_parts hty' hps' hp' (by rw [hl₁.extent hres]; omega)
        exact clones_slice hpart hn
      · rintro _ t' ⟨G', hl'⟩
        exact ⟨G', (hl₁.laid.trans hl').mono (Nat.le_refl _) (Nat.le_succ _)⟩
    next =>
      have hrground : resultTy.isGround = true := hparts.resolve_right (by simp)
      have hagg : inputTy.isGround = false := by
        rw [hrground, Bool.and_true] at hground
        exact Bool.eq_false_iff.2 hground
      have hpos := Nat.lt_of_lt_of_le (Ty.depth_pos hagg) (h.gauged.value hin).type
      split
      · refine Runs.bind_build (P := fun v s' => ∃ g, s₁.Made (.prim .asSInt) [flat] (.ground g) v s')
          (Build.knownWidth_any fun w => Build.prim_any.mono fun _ _ hm => ⟨_, hm⟩) ?_
        rintro v s₂ ⟨g, hm⟩
        obtain ⟨G₂, hg⟩ := hs₁.madeGround hm fun _ _ => trivial
        have hboth := hg.after hl₁
        refine giveWay_runs (hboth.toLays.mono (Nat.le_refl _) (by omega)) hres ?_
        exact Extent.le_trans hboth.extent_le (Extent.flat_le (Nat.zero_le _))
      · have hresult := hs₁.gauged.value (hl₁.laid.ty? hres)
        rw [hl₁.extent hres] at hresult
        refine Runs.bind_build (hs₁.castTo_runs ((hcast.flattened hpos).mono (hext hagg)) hresult ?_) ?_
        · have : (G₁.extent flat).depth ≤ (G.extent input).depth - 1 := (hext hagg).2.1
          omega
        rintro v s₂ ⟨G₂, hg⟩
        have hboth := hg.after hl₁
        exact giveWay_runs (hboth.toLays.mono (Nat.le_refl _) (by omega)) hres hboth.extent_le

end Builder.Site

end Scalarize
