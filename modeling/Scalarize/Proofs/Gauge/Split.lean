import Scalarize.Proofs.Gauge.Build

/-!
# Splitting within a gauge

* `Gauged.replaceAllUses_ends`, `Gauged.rewire_ends` : readers are handed over within a gauge;
* `Site.splitProducer_runs` : splitting an operation makes a bounded number of operations of lower rank, if
  what is made for one part does;
* `Gauged.producer_runs` : this holds of declarations, choices and casts that are settled later.
-/

namespace Scalarize

open Body Lower

namespace Body.Gauged

variable {cx : Context} {L : Limits} {G : Gauge} {b : Body} {x : OpId} {v w : ValueId}

/-! ## Readers -/

theorem replaceAllUses_ends (h : b.Gauged cx L G) (hle : G.extent w ≤ G.extent v) :
    Ends False (b.replaceAllUses v w) fun b' => b'.Gauged cx L G ∧ Outlives b b' := by
  refine (replaceAllUses_any h.coherent.toExact).mono fun b' hb' => ?_
  rcases hb' with rfl | ⟨hne, hv, hw, hr⟩
  · exact ⟨h, .refl _⟩
  · exact ⟨h.replaced hr hne hv hw hle, hr.outlives⟩

theorem eraseOp_ends (h : b.Gauged cx L G) (hx : ∀ op, b.op? x = some op → op.kind.blocks = []) :
    Ends False (b.eraseOp x) fun b' => b'.Gauged cx L G ∧ Outlives b b' :=
  (Body.eraseOp_ends h.coherent hx nofun).mono fun _ he => ⟨h.dropped rfl he.dropped, he.outlives⟩

/-- A reader of a value gives way to a part with one layer less. -/
theorem rewireUser_ends (h : b.Gauged cx L G) {parts : List ValueId} {d : Nat} {op : Operation}
    (hd : d ≤ (G.extent v).depth - 1) (hparts : ∀ w ∈ parts, G.extent w ≤ .flat d) (hop : b.op? x = some op)
    (hread : op.kind.fixedIndex?.isSome → ∀ r ∈ op.results, (G.extent v).Reads (G.extent r)) :
    Ends False (rewireUser v parts b x) fun b' => b'.Gauged cx L G ∧ Outlives b b' := by
  refine Ends.bind (P := fun kind => kind = op.kind)
    (kindOf_ends (fun op' hop' => by rw [Option.some.inj (hop.symm.trans hop')]) nofun) ?_
  rintro _ rfl
  split
  next => exact Ends.bind (P := fun _ => True) (.intro (fun _ _ => trivial) nofun) fun _ _ => .throw id
  next i hi =>
    split
    next => exact .throw id
    next part hpart =>
      refine Ends.bind (P := fun r => r ∈ op.results) (result_ends (fun op' r hop' hr => ?_) nofun)
        fun r hr => ?_
      · obtain rfl := Option.some.inj (hop.symm.trans hop')
        exact List.mem_of_getElem? hr
      have hreads := hread (by rw [hi]; rfl) r hr
      have hle := Extent.le_trans (hparts part (List.mem_of_getElem? hpart)) (hreads.flat_le hd)
      refine Ends.bind (h.replaceAllUses_ends hle) fun b₁ ⟨h₁, hout₁⟩ => ?_
      refine (h₁.eraseOp_ends fun op₁ hop₁ => ?_).mono fun b₂ ⟨h₂, hout₂⟩ => ⟨h₂, hout₁.trans hout₂⟩
      obtain ⟨op', hop', hk, -⟩ := hout₁.op?_some' hop₁
      obtain rfl := Option.some.inj (hop.symm.trans hop')
      rw [hk]
      exact OpKind.blocks_of_isAccessor (OpKind.isAccessor_of_fixedIndex? hi)

/-- The readers of a value give way to parts with one layer less. -/
theorem rewire_ends (h : b.Gauged cx L G) {parts : List ValueId} {d : Nat} (hd : d ≤ (G.extent v).depth - 1)
    (hparts : ∀ w ∈ parts, G.extent w ≤ .flat d) :
    Ends False (b.rewire v parts) fun b' => b'.Gauged cx L G ∧ Outlives b b' := by
  refine Ends.bind (h.coherent.users_ends (nofun : False → _)) fun us ⟨_, hus⟩ => ?_
  refine Ends.foldlM (fun _ b' => b'.Gauged cx L G ∧ Outlives b b') us ⟨h, .refl b⟩
    fun done u rest b' hl ⟨h', hout⟩ => ?_
  obtain ⟨op, hop, hmem⟩ := (hus u).1 (hl ▸ List.mem_append_right _ List.mem_cons_self)
  obtain ⟨op', hop', hk, hres, -⟩ := hout.op?_some hop
  refine (h'.rewireUser_ends hd hparts hop' fun hfix r hr => ?_).mono fun _ hb => ⟨hb.1, hout.trans hb.2⟩
  obtain ⟨i, hi⟩ := Option.isSome_iff_exists.1 hfix
  exact (h.fits hop).reads (hk ▸ hi) (List.mem_map_of_mem hmem) (List.mem_map_of_mem (hres ▸ hr))

end Body.Gauged

namespace Builder.Lays

variable {cx : Context} {L : Limits} {n c : Nat} {G G' : Gauge} {s s' : Builder}

/-- A declaration may change. -/
theorem declared (h : s.Lays cx L n c G G' s') (o : OpId) (f : Decl → Decl) :
    s.Lays cx L n c G G' ⟨s'.body.modifyDecl o f, s'.point⟩ := by
  have hsize : (s'.body.modifyDecl o f).ops.size = s'.body.ops.size := Array.size_modify ..
  refine ⟨⟨h.laid.gauged.declared o f, h.laid.extent, h.laid.rank, fun hle hlt => ?_, ?_, ?_, h.laid.values,
    h.laid.blocks, h.laid.ty?, fun {x op k} hop hk hlt => ?_⟩, h.body.trans (.modifyDecl _ o f), h.block⟩
  · exact h.laid.new hle (hsize ▸ hlt)
  · exact hsize.symm ▸ h.laid.count
  · exact hsize.symm ▸ h.laid.ops
  · obtain ⟨kind, hop', hb⟩ := op?_of_modifyDecl hop
    rw [← OpKind.blocks_eq_of_bare_eq hb] at hk
    exact h.laid.guard hop' hk hlt

end Builder.Lays

namespace Builder.Site

variable {cx : Context} {L : Limits} {n c : Nat} {G G' : Gauge} {t : LowerState} {o : OpId}

/-! ## Producers -/

theorem declarePart_runs {s : Builder} (h : s.Lays cx L n c G G' t.builder) (decl : Decl) (part : Part)
    (r : Restricted) (value : ValueId) :
    Runs False (declarePart decl part r value) t fun _ t' => s.Lays cx L n c G G' t'.builder ∧
      ∀ v, t'.builder.body.ty? v = t.builder.body.ty? v := by
  refine Runs.bind_body (P := fun _ => True) (.intro (fun _ _ => trivial) nofun) fun o? _ => ?_
  have hchange : ∀ (o : OpId) (y : Symbols) (new : Decl),
      Runs False (change fun b => return b.modifyDecl o fun _ => new) ⟨t.builder, y⟩ fun _ t' =>
        s.Lays cx L n c G G' t'.builder ∧ ∀ v, t'.builder.body.ty? v = t.builder.body.ty? v :=
    fun o y new => Runs.change (.pure ⟨h.declared o _, fun _ => rfl⟩)
  cases o? with
  | none => exact .pure ⟨h, fun _ => rfl⟩
  | some o =>
    dsimp only
    split
    · exact .bind_mint (hchange o _ _)
    · split
      · exact .bind_mint (hchange o _ _)
      · exact hchange o t.symbols _

/-- A value gives way to one that was made for it. -/
theorem giveWay_runs {s₀ s : Builder} (h : s₀.Lays cx L n c G G' s) {r w : ValueId} {ty : Ty}
    (hr : s₀.body.ty? r = some ty) (hle : G'.extent w ≤ G.extent r) {y : Symbols} :
    Runs False (do change (·.replaceAllUses r w); return true) ⟨s, y⟩ fun _ t' =>
      ∃ G', s₀.body.Laid cx L n c G G' t'.builder.body := by
  rw [← h.extent hr] at hle
  exact Runs.bind_change (h.laid.gauged.replaceAllUses_ends hle) fun b ⟨hb, hout⟩ =>
    .pure ⟨G', h.laid.trans (.of_outlives hb hout)⟩

/-- What is made for one part of a value with `d` layers: no more than `c` operations, and a value with one
layer less. -/
def Clones (cx : Context) (L : Limits) (n c : Nat) (G : Gauge) (s₀ : Builder) (d : Nat) (make : Build ValueId) :
    Prop :=
  ∀ {m G' s}, s₀.Lays cx L n m G G' s → s.Site cx L n G' →
    Runs False make s fun v s' => ∃ ty G'', s.Supplies cx L n c G' (.flat (d - 1)) ty v G'' s'

/-- An operation is split within the gauge, if what is made for each part is. -/
theorem splitProducer_runs (h : t.builder.Site cx L n G) {op : Operation} (hop : t.builder.body.op? o = some op)
    {keep : Bool} {clone : Part → Build ValueId}
    (hclone : ∀ {r ty parts part}, op.results[0]? = some r → t.builder.body.ty? r = some ty →
      Ty.PartsOf ty parts → part ∈ parts → Clones cx L n c G t.builder (G.extent r).depth (clone part)) :
    Runs False (splitProducer o keep clone) t fun _ t' =>
      ∃ G', t.builder.body.Laid cx L n (L.breadth * c) G G' t'.builder.body := by
  have hstay : ∃ G', t.builder.body.Laid cx L n (L.breadth * c) G G' t.builder.body :=
    ⟨G, (Laid.refl h.gauged).mono (Nat.le_refl _) (Nat.zero_le _)⟩
  refine Runs.bind_body (P := fun r => op.results[0]? = some r) (result_ends (fun op' r hop' hr => ?_) nofun)
    fun r hr => Runs.bind_any fun ty hty => ?_
  · rw [Option.some.inj (hop.symm.trans hop')]
    exact hr
  have hty : t.builder.body.ty? r = some ty :=
    (typeOf_ends (Q := fun ty => t.builder.body.ty? r = some ty) (fun _ h => h)
      (nofun : False → _)).of_ok hty
  refine Runs.bind_except (Ty.peel_ends nofun) fun ps? hps => ?_
  cases ps? with
  | none => exact .pure hstay
  | some parts =>
    have hps := hps.1
    refine Body.bind_kindOf hop ?_
    refine Runs.bind (Runs.mapM (fun done values (t' : LowerState) => ∃ G',
      t.builder.Lays cx L n (done.length * c) G G' t'.builder ∧ ∀ v ∈ values,
        (t'.builder.body.ty? v).isSome ∧ G'.extent v ≤ .flat ((G.extent r).depth - 1)) parts
      ⟨G, (Lays.refl h.gauged).mono (Nat.le_refl _) (Nat.zero_le _), by simp⟩ ?_)
      fun values t' ⟨G', hl', hvalues⟩ => ?_
    · rintro done part rest values t' hl ⟨G', hl', hvalues⟩
      have hpart : part ∈ parts := hl ▸ List.mem_append_right _ List.mem_cons_self
      refine Runs.bind_except (P := fun _ => True) (.intro (fun _ _ => trivial) nofun) fun r' _ => ?_
      refine Runs.bind_build (hclone hr hty hps hpart hl' (h.lays hl')) fun v s' ⟨ty', G'', hg⟩ => ?_
      have hboth := hl'.trans hg.toLays
      refine (declarePart_runs (t := ⟨s', t'.symbols⟩) hboth _ part r' v).bind
        fun _ t'' ⟨hl'', hty''⟩ => .pure ⟨G'', ?_, fun w hw => ?_⟩
      · rw [List.length_append, Nat.add_mul]
        exact hl''.mono (Nat.le_refl _) (by simp)
      · rw [hty'']
        rcases List.mem_append.1 hw with hw | hw
        · obtain ⟨hsome, hle⟩ := hvalues w hw
          obtain ⟨tw, htw⟩ := Option.isSome_iff_exists.1 hsome
          rw [hg.laid.ty? htw, hg.toLays.extent htw]
          exact ⟨rfl, hle⟩
        · obtain rfl := List.mem_singleton.1 hw
          rw [hg.type]
          exact ⟨rfl, hg.extent_le⟩
    have hd : (G.extent r).depth - 1 ≤ (G'.extent r).depth - 1 :=
      Nat.le_of_eq (by rw [hl'.extent hty])
    refine Runs.bind_change (hl'.laid.gauged.rewire_ends hd fun w hw => (hvalues w hw).2)
      fun b ⟨hb, hout⟩ => .pure ⟨G', ?_⟩
    have hlen := Nat.le_trans hps.length_le (h.gauged.value hty).breadth
    exact (hl'.laid.trans (.of_outlives hb hout)).mono (Nat.le_refl _)
      (Nat.mul_le_mul_right c hlen)

/-! ### What is made for a part -/

variable {d : Nat} {s₀ s : Builder} {v : ValueId} {ty : Ty}

/-- A value with few layers is within the limits where nothing stands behind it. -/
theorem holds_flat (h : s.Site cx L n G) (hv : s.body.ty? v = some ty) (hd : (G.extent v).depth ≤ d)
    (hL : d ≤ L.depth) : L.Holds ty (.flat d) :=
  .flat (Nat.le_trans (h.gauged.value hv).type hd) (h.gauged.value hv).breadth hL

/-- Kinds of operations that ask nothing of their operands are made for a part. -/
theorem clones_create {make : Build ValueId} {kind : OpKind} {vs : List ValueId}
    (hmake : ∀ s, Runs False make s (s.Made kind vs ty)) (hty : L.Holds ty (.flat (d - 1)))
    (hk : ∀ ws, kind.InGauge cx L ws [(.flat (d - 1), some ty)] n) : Clones cx L n 1 G s₀ d make := by
  intro m G' s _ hs
  refine (hmake s).mono fun v s' hm => ?_
  obtain ⟨G'', hg⟩ := hs.made hm hty (hk _)
  exact ⟨ty, G'', hg⟩

/-- A part of a value is taken. -/
theorem partOf_runs (h : s.Site cx L n G) {c : Nat} {G₀ : Gauge} (hl : s₀.Lays cx L n c G₀ G s)
    {input : ValueId} (hin : (s₀.body.ty? input).isSome) (hd : (G₀.extent input).depth ≤ d) (i : Nat) :
    Runs False (Build.part input i) s fun v s' => ∃ G' ty, s.Lays cx L n 1 G G' s' ∧
      s'.Site cx L n G' ∧ s'.body.ty? v = some ty ∧ (G'.extent v).depth ≤ d - 1 := by
  refine (h.part_runs input i).mono ?_
  rintro v s' ⟨G', t, c', ht, hc, hg⟩
  obtain ⟨t₀, ht₀⟩ := Option.isSome_iff_exists.1 hin
  have hle := hg.extent_le.2.1
  rw [hl.extent ht₀] at hle
  refine ⟨G', c', hg.toLays, h.lays hg.toLays, hg.type, Nat.le_trans hle ?_⟩
  show (G₀.extent input).depth - 1 ≤ d - 1
  omega

/-- The same part of several values is taken. -/
theorem partsOf_runs (h : s.Site cx L n G) {c : Nat} {G₀ : Gauge} (hl : s₀.Lays cx L n c G₀ G s)
    {inputs : List ValueId} (hin : ∀ v ∈ inputs, (s₀.body.ty? v).isSome ∧ (G₀.extent v).depth ≤ d) (i : Nat) :
    Runs False (inputs.mapM (Build.part · i)) s fun vs s' => ∃ G', s.Lays cx L n inputs.length G G' s' ∧
      s'.Site cx L n G' ∧ vs.length = inputs.length ∧
      ∀ v ∈ vs, (s'.body.ty? v).isSome ∧ (G'.extent v).depth ≤ d - 1 := by
  refine Runs.mapM (fun done vs s' => ∃ G', s.Lays cx L n done.length G G' s' ∧ s'.Site cx L n G' ∧
    vs.length = done.length ∧ ∀ v ∈ vs, (s'.body.ty? v).isSome ∧ (G'.extent v).depth ≤ d - 1) inputs
    ⟨G, .refl h.gauged, h, rfl, by simp⟩ ?_
  rintro done v rest vs s' hinputs ⟨G', hl', hs', hlen, hvs⟩
  have hv := hin v (hinputs ▸ List.mem_append_right _ List.mem_cons_self)
  refine (hs'.partOf_runs (hl.trans hl') hv.1 hv.2 i).mono ?_
  rintro w s'' ⟨G'', ty, hl'', hs'', hw, hd⟩
  refine ⟨G'', by simpa using hl'.trans hl'', hs'', by simp [hlen], fun u hu => ?_⟩
  rcases List.mem_append.1 hu with hu | hu
  · obtain ⟨hsome, hle⟩ := hvs u hu
    obtain ⟨tu, htu⟩ := Option.isSome_iff_exists.1 hsome
    rw [hl''.laid.ty? htu, hl''.extent htu]
    exact ⟨rfl, hle⟩
  · obtain rfl := List.mem_singleton.1 hu
    rw [hw]
    exact ⟨rfl, hd⟩

/-- The same, with the part of a value as one of the operands. -/
theorem clones_of_part {input : ValueId} {i : Nat} {make : ValueId → Build ValueId} {kind : OpKind}
    {vs : ValueId → List ValueId} (hin : (s₀.body.ty? input).isSome)
    (hmake : ∀ v s, Runs False (make v) s (s.Made kind (vs v) ty)) (hty : L.Holds ty (.flat (d - 1)))
    (hk : ∀ ws, kind.InGauge cx L ws [(.flat (d - 1), some ty)] n) :
    Clones cx L n 2 G s₀ d (Build.part input i >>= make) := by
  intro m G' s hl hs
  refine (hs.partOf_runs hl hin (Nat.le_refl _) i).bind ?_
  rintro v s₁ ⟨G₁, c', hl₁, hs₁, -, -⟩
  refine (hmake v s₁).mono fun w s₂ hm => ?_
  obtain ⟨G₂, hg⟩ := hs₁.made hm hty (hk _)
  exact ⟨ty, G₂, hg.after hl₁⟩

/-- A name for the part of a value. -/
theorem clones_node {input : ValueId} (hin : (s₀.body.ty? input).isSome) (hle : (G.extent input).depth ≤ d)
    (hL : d - 1 ≤ L.depth) (hn : d - 1 + 1 ≤ n) (i : Nat) :
    Clones cx L n 2 G s₀ d (do firstResult (Build.node (← Build.part input i) {})) := by
  intro m G' s hl hs
  refine (hs.partOf_runs hl hin hle i).bind ?_
  rintro v s₁ ⟨G₁, c', hl₁, hs₁, hv, hd⟩
  have hmade : Runs False (firstResult (Build.node v {})) s₁ (s₁.Made (.node {}) [v] c') := by
    refine Build.result_any (Build.typeOf_any fun t ht => ?_)
    obtain rfl := Option.some.inj (hv.symm.trans ht)
    exact Build.create_any rfl _ _
  refine hmade.mono fun w s₂ hm => ?_
  obtain ⟨G₂, hg⟩ := hs₁.made hm (hs₁.holds_flat hv hd hL) (by simpa [OpKind.InGauge, Extent.flat] using ⟨hn, hd⟩)
  exact ⟨c', G₂, hg.after hl₁⟩

/-- A choice between the parts of two values. -/
theorem clones_mux {sel high low : ValueId} (hhigh : (s₀.body.ty? high).isSome) (hlow : (s₀.body.ty? low).isSome)
    (hhd : (G.extent high).depth ≤ d) (hld : (G.extent low).depth ≤ d) (hL : d - 1 ≤ L.depth)
    (hn : d - 1 + 1 ≤ n) (i : Nat) : Clones cx L n 3 G s₀ d (do
      let high ← Build.part high i
      let low ← Build.part low i
      Build.mux sel high low) := by
  intro m G' s hl hs
  refine (hs.partOf_runs hl hhigh hhd i).bind ?_
  rintro v s₁ ⟨G₁, c', hl₁, hs₁, hv, hdv⟩
  refine (hs₁.partOf_runs (hl.trans hl₁) hlow hld i).bind ?_
  rintro w s₂ ⟨G₂, c'', hl₂, hs₂, -, hdw⟩
  refine (Build.mux_any sel v w).mono ?_
  rintro u s₃ ⟨ty, hty, hm⟩
  rw [← hl₂.extent hv] at hdv
  obtain ⟨G₃, hg⟩ := hs₂.made hm (hs₂.holds_flat hty hdv hL) (by
    simpa [OpKind.InGauge, Extent.flat] using ⟨hn, hdv, hdw⟩)
  exact ⟨ty, G₃, (hg.after hl₂).after hl₁⟩

/-- A choice among the parts of several values. -/
theorem clones_multiMux {index : ValueId} {inputs : List ValueId}
    (hin : ∀ v ∈ inputs, (s₀.body.ty? v).isSome ∧ (G.extent v).depth ≤ d) (hlen : inputs.length ≤ L.breadth)
    (hL : d - 1 ≤ L.depth) (hn : d - 1 + 1 ≤ n) (i : Nat) : Clones cx L n (L.breadth + 1) G s₀ d (do
      Build.multiMux index (← inputs.mapM (Build.part · i))) := by
  intro m G' s hl hs
  refine (hs.partsOf_runs hl hin i).bind ?_
  rintro vs s₁ ⟨G₁, hl₁, hs₁, hvs, hparts⟩
  refine (Build.multiMux_any index vs).mono ?_
  rintro u s₂ ⟨first, ty, hfirst, hty, hm⟩
  have hd := (hparts first (List.mem_of_getElem? hfirst)).2
  obtain ⟨G₂, hg⟩ := hs₁.made hm (hs₁.holds_flat hty hd hL) (by
    refine ⟨by simpa [hvs] using hlen, fun r hr => ?_⟩
    obtain rfl := List.mem_singleton.1 hr
    refine ⟨hn, fun w hw => ?_⟩
    obtain ⟨v, hv, rfl⟩ := List.mem_map.1 hw
    exact (hparts v hv).2)
  exact ⟨ty, G₂, (hg.after hl₁).mono (Nat.le_refl _) (Nat.add_le_add_right hlen 1)⟩

/-! ### Producers -/

/-- What holds of a result with parts that is lowered at rank `n`. -/
theorem of_parts (h : s.Site cx L n G) {r : ValueId} {parts : List Part} {part : Part} (hty : s.body.ty? r = some ty)
    (hps : Ty.PartsOf ty parts) (hp : part ∈ parts) (hn : (G.extent r).depth + 1 ≤ n + 1) :
    L.Holds part.ty (.flat ((G.extent r).depth - 1)) ∧ (G.extent r).depth - 1 + 1 ≤ n := by
  have hlt := hps.depth_lt hp
  have hr := h.gauged.value hty
  have hle := hr.type
  have hL := hr.depth
  refine ⟨.flat (by omega) (Nat.le_trans (Ty.breadth_le_of_child? (hps.child_index hp)) hr.breadth) (by omega), ?_⟩
  omega

/-- Declarations, choices and casts that are settled later are split within the gauge. -/
theorem producer_runs (h : t.builder.Site cx L n G) {op : Operation} (hop : t.builder.body.op? o = some op)
    (hfits : op.InGauge cx L G.extent t.builder.body.ty? (n + 1)) (keep : Bool) :
    Runs False (producer o keep op.kind) t fun _ t' =>
      ∃ G', t.builder.body.Laid cx L n (L.breadth * (L.breadth + 3)) G G' t'.builder.body := by
  have hoperand {Q : Bool → LowerState → Prop} (i : Nat) {f : ValueId → Lower Bool}
      (hf : ∀ v, op.operands[i]? = some v → (t.builder.body.ty? v).isSome → Runs False (f v) t Q) :
      Runs False (Lower.body (·.operand o i) >>= f) t Q := by
    refine Runs.bind_body (P := fun v => op.operands[i]? = some v) (operand_ends (fun op' v hop' hv => ?_) nofun)
      fun v hv => hf v hv (isSome_ty?.2 (h.gauged.coherent.operand hop (List.mem_of_getElem? hv)))
    rw [Option.some.inj (hop.symm.trans hop')]
    exact hv
  have hsplit {c : Nat} (hc : c ≤ L.breadth + 3) {clone : Part → Build ValueId}
      (hclone : ∀ {r ty parts part}, (G.extent r, t.builder.body.ty? r) ∈
          op.results.map (fun r => (G.extent r, t.builder.body.ty? r)) → t.builder.body.ty? r = some ty →
        Ty.PartsOf ty parts → part ∈ parts →
        Clones cx L n c G t.builder (G.extent r).depth (clone part)) :
      Runs False (splitProducer o keep clone) t fun _ t' =>
        ∃ G', t.builder.body.Laid cx L n (L.breadth * (L.breadth + 3)) G G' t'.builder.body :=
    (h.splitProducer_runs hop fun hr => hclone (List.mem_map_of_mem (List.mem_of_getElem? hr))).mono
      fun _ _ ⟨G', hl⟩ => ⟨G', hl.mono (Nat.le_refl _) (Nat.mul_le_mul_left _ hc)⟩
  have hextent {i : Nat} {v : ValueId} (hv : op.operands[i]? = some v) :
      (op.operands.map G.extent)[i]? = some (G.extent v) := by rw [List.getElem?_map, hv]; rfl
  have hmake (kind : OpKind) (hk : kind.blocks = []) (vs : List ValueId) (ty : Ty) (s : Builder) :
      Runs False (Build.createValue kind vs ty) s (s.Made kind vs ty) := Build.createValue_any hk vs ty
  unfold Operation.InGauge at hfits
  cases hk : op.kind with
  | wire =>
    rw [hk] at hfits
    refine hsplit (Nat.le_add_left 1 _) fun hr hty hps hp => ?_
    obtain ⟨hpart, hn⟩ := h.of_parts hty hps hp (hfits _ hr)
    exact clones_create (hmake (.wire {}) rfl [] _) hpart fun _ r hr' => by
      rw [List.mem_singleton.1 hr']
      exact hn
  | reg =>
    rw [hk] at hfits
    refine hoperand 0 fun clock _ _ => hsplit (Nat.le_add_left 1 _) fun hr hty hps hp => ?_
    obtain ⟨hpart, hn⟩ := h.of_parts hty hps hp (hfits _ hr)
    exact clones_create (hmake (.reg {}) rfl [clock] _) hpart fun _ r hr' => by
      rw [List.mem_singleton.1 hr']
      exact hn
  | regReset =>
    rw [hk] at hfits
    refine hoperand 0 fun clock _ _ => hoperand 1 fun reset _ _ => hoperand 2 fun init _ hinit =>
      hsplit (Nat.le_add_left 2 _) fun hr hty hps hp => ?_
    obtain ⟨hpart, hn⟩ := h.of_parts hty hps hp (hfits _ hr)
    exact clones_of_part hinit (fun v => hmake (.regReset {}) rfl [clock, reset, v] _) hpart fun _ r hr' => by
      rw [List.mem_singleton.1 hr']
      exact hn
  | node =>
    rw [hk] at hfits
    refine hoperand 0 fun input hv hin => hsplit (Nat.le_add_left 2 _) fun hr hty hps hp => ?_
    obtain ⟨hpart, hn⟩ := h.of_parts hty hps hp (hfits _ hr).1
    exact clones_node hin ((hfits _ hr).2 _ (hextent hv)) hpart.depth hn _
  | invalid =>
    rw [hk] at hfits
    refine hsplit (Nat.le_add_left 1 _) fun hr hty hps hp => ?_
    obtain ⟨hpart, hn⟩ := h.of_parts hty hps hp (hfits _ hr)
    exact clones_create (hmake .invalid rfl [] _) hpart fun _ r hr' => by
      rw [List.mem_singleton.1 hr']
      exact hn
  | mux =>
    rw [hk] at hfits
    refine hoperand 0 fun sel _ _ => hoperand 1 fun high hh hhigh => hoperand 2 fun low hl hlow =>
      hsplit (Nat.le_add_left 3 _) fun hr hty hps hp => ?_
    obtain ⟨hpart, hn⟩ := h.of_parts hty hps hp (hfits _ hr).1
    have hinput {i : Nat} {v : ValueId} (hv : op.operands[i + 1]? = some v) :=
      (hfits _ hr).2 (G.extent v) (List.mem_of_getElem? (i := i) (by rw [List.getElem?_tail]; exact hextent hv))
    apply clones_mux hhigh hlow (hinput hh) (hinput hl) hpart.depth hn
  | multiMux =>
    rw [hk] at hfits
    refine Body.bind_op hop ?_
    split
    next => exact .throw id
    next index inputs hl =>
      rw [hl] at hfits
      refine hsplit (Nat.add_le_add_left (show 1 ≤ 3 by decide) _) fun hr hty hps hp => ?_
      obtain ⟨hpart, hn⟩ := h.of_parts hty hps hp (hfits.2 _ hr).1
      refine clones_multiMux (fun v hv => ⟨?_, (hfits.2 _ hr).2 _ (List.mem_map_of_mem hv)⟩) ?_ hpart.depth hn _
      · exact isSome_ty?.2 (h.gauged.coherent.operand hop (hl ▸ List.mem_cons_of_mem _ hv))
      · simpa using hfits.1
  | unrealizedCast =>
    rw [hk] at hfits
    refine hoperand 0 fun input _ hin => hsplit (Nat.le_add_left 2 _) fun hr hty hps hp => ?_
    obtain ⟨hpart, hn⟩ := h.of_parts hty hps hp (hfits _ hr)
    exact clones_of_part hin (fun v => hmake .unrealizedCast rfl [v] _) hpart fun _ r hr' => by
      rw [List.mem_singleton.1 hr']
      exact hn
  | _ => exact .pure ⟨G, (Laid.refl h.gauged).mono (Nat.le_refl _) (Nat.zero_le _)⟩

end Builder.Site

end Scalarize
