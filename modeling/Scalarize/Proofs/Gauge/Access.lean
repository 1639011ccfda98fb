import Scalarize.Proofs.Gauge.Split
import Scalarize.Proofs.Step.Write

/-!
# Computed accesses within a gauge

* `Site.subaccess_runs` : a read at a computed position gives way within the gauge;
* `Extent.Before` : room for one computed access less; `Site.reaccess_runs`, `Site.retrace_runs` : the path
  of a write is traced anew from one element, with this room;
* `Site.guardedWrite_runs`, `Site.writePath_runs` : a write is expanded to connections of lower rank, because
  one computed access less stands behind their destinations;
* `Site.connection_runs` : a connection gives way within the gauge.
-/

namespace Scalarize

open Body Lower

/-! ## Accessors -/

namespace Extent

variable {w r p q : Extent}

theorem Reads.part_le (h : w.Reads r) : w.part ≤ r := by
  have := h.depth
  refine ⟨h.accesses, ?_, h.chain⟩
  show w.depth - 1 ≤ r.depth
  omega

/-- One computed access fewer stands behind `w` than behind `r`. -/
structure Before (w r : Extent) : Prop where
  accesses : w.accesses + 1 ≤ r.accesses
  depth : w.depth ≤ r.depth
  chain : w.chain ≤ r.chain

/-- The most that has one computed access fewer. -/
def before (r : Extent) : Extent := { r with accesses := r.accesses - 1 }

theorem before_le (r : Extent) : r.before ≤ r := ⟨Nat.sub_le _ _, Nat.le_refl _, Nat.le_refl _⟩

theorem Before.of_le (h : w ≤ r.before) (hr : 0 < r.accesses) : w.Before r := by
  obtain ⟨ha, hd, hc⟩ := h
  refine ⟨?_, hd, hc⟩
  have : w.accesses ≤ r.accesses - 1 := ha
  omega

theorem Before.reads (h : w.Before r) (hr : r.Reads q) : w.Reads q.before := by
  have := h.accesses
  have := h.depth
  have := h.chain
  have := hr.accesses
  have := hr.depth
  have := hr.chain
  refine ⟨?_, ?_, ?_⟩
  · show w.accesses ≤ q.accesses - 1
    omega
  · show w.depth ≤ q.depth + 1
    omega
  · show w.chain + 1 ≤ q.chain
    omega

end Extent

namespace Limits

variable {L : Limits} {t t' c : Ty} {w r p : Extent}

/-- What an accessor reaches is within the limits with what it reads. -/
theorem Holds.reads (h : L.Holds t w) (hd : c.depth < t.depth) (hb : c.breadth ≤ t.breadth) (hr : w.Reads r)
    (hle : r ≤ p) (hp : L.Holds t' p) : L.Holds c r where
  type := by
    have := h.type
    have := hr.depth
    omega
  breadth := Nat.le_trans hb h.breadth
  accesses := Nat.le_trans hle.1 hp.accesses
  depth := Nat.le_trans hle.2.1 hp.depth
  chain := Nat.le_trans (Nat.add_le_add hle.2.2 (Nat.pow_le_pow_right Nat.two_pos hle.2.1)) hp.chain

theorem connectRank_comm (L : Limits) (d s : Extent) : L.connectRank d s = L.connectRank s d := by
  unfold connectRank
  rw [Nat.add_comm d.accesses, Nat.max_comm]

end Limits

/-- An accessor reads what bounds its result. -/
theorem OpKind.InGauge.reads_of_isAccessor {cx : Context} {L : Limits} {kind : OpKind} {ws : List Extent}
    {rs : List (Extent × Option Ty)} {n : Nat} (h : kind.InGauge cx L ws rs n) (hk : kind.isAccessor = true)
    {w : Extent} {r : Extent × Option Ty} (hw : ws[0]? = some w) (hr : r ∈ rs) : w.Reads r.1 := by
  cases kind with
  | subfield | subindex => exact h w (List.mem_of_getElem? hw) r hr
  | subaccess => exact ((h w hw).2 r hr).1
  | _ => cases hk

/-- A path stays one while operations are added. -/
theorem Body.Extends.leads {b b' : Body} (h : Extends b b') {path : List OpId} {v w : ValueId}
    (hp : b.Leads v path w) : b'.Leads v path w := by
  induction hp with
  | nil => exact .nil
  | cons hv hop hacc hu _ ih =>
    obtain ⟨op', hop', hbare, hops, -⟩ := h.op? hop
    exact .cons (h.origin?_some hv) hop' ((OpKind.isAccessor_eq_of_bare_eq hbare).trans hacc) (hops ▸ hu) ih

namespace Body.Gauged

variable {cx : Context} {L : Limits} {G : Gauge} {b : Body} {x : OpId} {op : Operation} {v u w : ValueId}

theorem reads (h : b.Gauged cx L G) (hop : b.op? x = some op) (hk : op.kind.isAccessor = true)
    (hu : op.operands[0]? = some u) (hv : v ∈ op.results) : (G.extent u).Reads (G.extent v) :=
  (h.fits hop).reads_of_isAccessor hk (by rw [List.getElem?_map, hu]; rfl)
    (List.mem_map_of_mem (f := fun r => (G.extent r, b.ty? r)) hv)

theorem subaccess (h : b.Gauged cx L G) (hop : b.op? x = some op) (hk : op.kind = .subaccess)
    (hu : op.operands[0]? = some u) (hv : v ∈ op.results) :
    (G.extent u).accesses + 1 ≤ (G.extent v).accesses := by
  have hfits := h.fits hop
  unfold Operation.InGauge at hfits
  rw [hk] at hfits
  exact ((hfits _ (by rw [List.getElem?_map, hu]; rfl)).2 _
    (List.mem_map_of_mem (f := fun r => (G.extent r, b.ty? r)) hv)).2

/-- Values at the far end of a path are within the extents of those at its near end. -/
theorem leads (h : b.Gauged cx L G) {path : List OpId} (hp : b.Leads v path w) :
    (G.extent w).accesses ≤ (G.extent v).accesses ∧ (G.extent w).chain + path.length ≤ (G.extent v).chain := by
  induction hp with
  | nil => exact ⟨Nat.le_refl _, Nat.le_refl _⟩
  | cons hv hop hacc hu _ ih =>
    obtain ⟨op', hop', hres⟩ := h.coherent.origin hv
    obtain rfl := Option.some.inj (hop.symm.trans hop')
    have hreads := h.reads hop hacc hu (List.mem_of_getElem? hres)
    have := hreads.chain
    rw [List.length_cons]
    exact ⟨Nat.le_trans ih.1 hreads.accesses, by omega⟩

/-- Accessors that nothing reads any more are erased. -/
theorem eraseUnread_ends {path : List OpId} : ∀ {b : Body}, b.Gauged cx L G →
    (∀ x ∈ path, ∀ op, b.op? x = some op → op.kind.isAccessor = true) →
    Ends False (b.eraseUnread path) fun b' => b'.Gauged cx L G ∧ Outlives b b' := by
  induction path with
  | nil => exact fun h _ => .pure ⟨h, .refl _⟩
  | cons x path ih =>
    intro b h hpath
    rw [eraseUnread]
    refine Ends.bind (P := fun _ => True) (.intro (fun _ _ => trivial) False.elim) fun r _ => ?_
    split
    · exact .pure ⟨h, .refl _⟩
    have hx := hpath x List.mem_cons_self
    refine Ends.bind (h.eraseOp_ends fun op hop => OpKind.blocks_of_isAccessor (hx op hop)) ?_
    rintro b₁ ⟨h₁, hout⟩
    refine (ih h₁ fun y hy op₁ hop₁ => ?_).mono fun b₂ h₂ => ⟨h₂.1, hout.trans h₂.2⟩
    obtain ⟨op', hop', hk, -⟩ := hout.op?_some' hop₁
    exact hk ▸ hpath y (List.mem_cons_of_mem _ hy) op' hop'

end Body.Gauged

namespace Builder.Site

variable {cx : Context} {L : Limits} {n m c : Nat} {G G' : Gauge} {s s' : Builder} {t : LowerState} {o x : OpId}
  {op : Operation} {v u w : ValueId} {ty : Ty}

/-! ## Reads -/

/-- Elements of a vector are taken. -/
theorem elements_runs (h : t.builder.Site cx L n G) {input : ValueId} (hin : t.builder.body.ty? input = some ty)
    (is : List Nat) :
    Runs False (is.mapM fun i => (Build.subindex input i : Lower ValueId)) t fun vs t' => ∃ G',
      t.builder.Lays cx L n is.length G G' t'.builder ∧ vs.length = is.length ∧
      ∀ v ∈ vs, (t'.builder.body.ty? v).isSome ∧ (G'.extent v).depth ≤ (G.extent input).depth - 1 := by
  refine Runs.mapM (fun done vs (t' : LowerState) => ∃ G', t.builder.Lays cx L n done.length G G' t'.builder ∧
    vs.length = done.length ∧ ∀ v ∈ vs, (t'.builder.body.ty? v).isSome ∧
      (G'.extent v).depth ≤ (G.extent input).depth - 1) is ⟨G, .refl h.gauged, rfl, by simp⟩ ?_
  rintro done i rest vs t' - ⟨G', hl, hlen, hvs⟩
  refine Runs.build ((Build.subindex_any input i).mono fun w s' hm => ?_)
  obtain ⟨G'', _, c, _, _, hg⟩ := (h.lays hl).madePart hm
  refine ⟨G'', by simpa using hl.trans hg.toLays, by simp [hlen], fun u hu => ?_⟩
  rcases List.mem_append.1 hu with hu | hu
  · obtain ⟨hsome, hle⟩ := hvs u hu
    obtain ⟨tu, htu⟩ := Option.isSome_iff_exists.1 hsome
    rw [hg.laid.ty? htu, hg.toLays.extent htu]
    exact ⟨rfl, hle⟩
  · obtain rfl := List.mem_singleton.1 hu
    rw [hg.type]
    refine ⟨rfl, ?_⟩
    rw [← hl.extent hin]
    exact hg.extent_le.2.1

theorem vectorOf_ends {b : Body} :
    Ends False (b.vectorOf v) fun en => b.ty? v = some (.vector en.1 en.2) := by
  refine Ends.bind (P := fun ty => b.ty? v = some ty) (typeOf_ends (fun _ h => h) nofun) fun ty hty => ?_
  split
  · exact .pure hty
  · exact .throw id

/-- A read at a computed position gives way to a choice among the elements, within the gauge. -/
theorem subaccess_runs (h : t.builder.Site cx L n G) (hop : t.builder.body.op? o = some op)
    (hk : op.kind = .subaccess) (hfits : op.InGauge cx L G.extent t.builder.body.ty? (n + 1)) :
    Runs False (Lower.subaccess o) t fun _ t' =>
      ∃ G', t.builder.body.Laid cx L n (L.breadth + 1) G G' t'.builder.body := by
  have hoperand (i : Nat) : Ends False (t.builder.body.operand o i) fun v => op.operands[i]? = some v :=
    operand_ends (fun op' v hop' hv => by rwa [Option.some.inj (hop.symm.trans hop')]) nofun
  refine Runs.bind_body (hoperand 0) fun input hinput => Runs.bind_body (hoperand 1) fun index _ => ?_
  refine Runs.bind_body (P := fun r => op.results[0]? = some r) (result_ends (fun op' r hop' hr => by
    rwa [Option.some.inj (hop.symm.trans hop')]) nofun) fun r hr => ?_
  refine Runs.bind_body vectorOf_ends fun en hin => ?_
  obtain ⟨e, k⟩ := en
  have hty : (t.builder.body.ty? r).isSome :=
    isSome_ty?.2 (h.gauged.lt_of_mem_results hop (List.mem_of_getElem? hr))
  obtain ⟨tr, htr⟩ := Option.isSome_iff_exists.1 hty
  have hreads := h.gauged.reads hop (by rw [hk]; rfl) hinput (List.mem_of_getElem? hr)
  have hvalue := h.gauged.value hin
  have hrank : (G.extent input).depth + 1 ≤ n + 1 := by
    unfold Operation.InGauge at hfits
    rw [hk] at hfits
    exact (hfits (G.extent input) (by rw [List.getElem?_map, hinput]; rfl)).1
  have hpos : e.depth + 1 ≤ (G.extent input).depth := hvalue.type
  dsimp only
  split
  · have hflat : L.Holds e (.flat ((G.extent input).depth - 1)) := by
      refine .flat (by omega) (Nat.le_trans (Nat.le_max_right _ _) hvalue.breadth) ?_
      have := hvalue.depth
      omega
    refine Runs.bind_build (Build.createValue_any rfl [] e) fun w s₁ hm => ?_
    obtain ⟨G₁, hg⟩ := h.made hm hflat fun r' hr' => by
      rw [List.mem_singleton.1 hr']
      show (G.extent input).depth - 1 + 1 ≤ n
      omega
    exact giveWay_runs (hg.toLays.mono (Nat.le_refl _) (Nat.le_add_left 1 _)) htr
      (Extent.le_trans hg.extent_le (hreads.flat_le (Nat.le_refl _)))
  refine Runs.bind_any fun literal _ => ?_
  cases literal with
  | some literal =>
    refine Runs.bind_build (Build.subindex_any input _) fun w s₁ hm => ?_
    obtain ⟨G₁, _, c, _, _, hg⟩ := h.madePart hm
    exact giveWay_runs (hg.toLays.mono (Nat.le_refl _) (Nat.le_add_left 1 _)) htr
      (Extent.le_trans hg.extent_le hreads.part_le)
  | none =>
    have hlen : k ≤ L.breadth := Nat.le_trans (Nat.le_max_left _ _) hvalue.breadth
    refine (h.elements_runs hin (List.range k).reverse).bind ?_
    rintro inputs t₁ ⟨G₁, hl₁, hcount, hparts⟩
    rw [List.length_reverse, List.length_range] at hl₁ hcount
    refine Runs.bind_build (Build.multiMux_any index inputs) ?_
    rintro w s₂ ⟨first, tf, hfirst, htf, hm⟩
    have hs₁ := h.lays hl₁
    have hd := hparts first (List.mem_of_getElem? hfirst)
    have hL : (G.extent input).depth - 1 ≤ L.depth := by
      have := hvalue.depth
      omega
    obtain ⟨G₂, hg⟩ := hs₁.made hm (hs₁.holds_flat htf hd.2 hL) (by
      refine ⟨by simpa [hcount] using hlen, fun r' hr' => ?_⟩
      obtain rfl := List.mem_singleton.1 hr'
      refine ⟨by show (G.extent input).depth - 1 + 1 ≤ n; omega, fun w hw => ?_⟩
      obtain ⟨v, hv, rfl⟩ := List.mem_map.1 hw
      exact (hparts v hv).2)
    exact giveWay_runs ((hg.after hl₁).toLays.mono (Nat.le_refl _) (Nat.add_le_add_right hlen 1)) htr
      (Extent.le_trans hg.extent_le (hreads.flat_le (Nat.le_refl _)))

/-! ## Writes -/

/-- A part was made, within an extent that is bounded by what an accessor reaches. -/
theorem madePart_reads (h : s.Site cx L n G) {input : ValueId} {i : Nat} (hm : s.MadePart input i v s') {r p : Extent}
    {t' : Ty} (hr : (G.extent input).Reads r) (hle : r ≤ p) (hp : L.Holds t' p) :
    ∃ G' c, s.Supplies cx L n 1 G r c v G' s' := by
  obtain ⟨kind, t, c, hk, ht, hc, hm⟩ := hm
  obtain ⟨G', hg⟩ := h.made hm ((h.gauged.value ht).reads (Ty.depth_lt_of_child? hc) (Ty.breadth_le_of_child? hc)
    hr hle hp) (.accessor hk hr)
  exact ⟨G', c, hg⟩

/-- An accessor is made anew on another value, behind which one computed access fewer stands. -/
theorem reaccess_runs (h : t.builder.Site cx L n G) (hop : t.builder.body.op? x = some op)
    (hacc : op.kind.isAccessor = true) (hu : op.operands[0]? = some u) (hv : v ∈ op.results) (hn : L.depth + 1 ≤ n)
    (hle : (G.extent w).Before (G.extent u)) :
    Runs False (reaccess x w) t fun r t' => ∃ G', t.builder.Lays cx L n 1 G G' t'.builder ∧
      (t'.builder.body.ty? r).isSome ∧ (G'.extent r).Before (G'.extent v) := by
  have hreads := h.gauged.reads hop hacc hu hv
  obtain ⟨tv, htv⟩ := Option.isSome_iff_exists.1 (isSome_ty?.2 (h.gauged.lt_of_mem_results hop hv))
  have hpos : 0 < (G.extent v).accesses := by
    have := hle.accesses
    have := hreads.accesses
    omega
  have hafter {r : ValueId} {s' : Builder} {c : Ty} {G' : Gauge}
      (hg : t.builder.Supplies cx L n 1 G (G.extent v).before c r G' s') :
      ∃ G', t.builder.Lays cx L n 1 G G' s' ∧ (s'.body.ty? r).isSome ∧ (G'.extent r).Before (G'.extent v) := by
    refine ⟨G', hg.toLays, by rw [hg.type]; rfl, ?_⟩
    rw [hg.toLays.extent htv]
    exact .of_le hg.extent_le hpos
  have hfixed {i : Nat} {r : ValueId} {s' : Builder} (hm : t.builder.MadePart w i r s') :
      ∃ G', t.builder.Lays cx L n 1 G G' s' ∧ (s'.body.ty? r).isSome ∧ (G'.extent r).Before (G'.extent v) := by
    obtain ⟨G', c, hg⟩ := h.madePart_reads hm (hle.reads hreads) (Extent.before_le _) (h.gauged.value htv)
    exact hafter hg
  refine Body.bind_kindOf hop ?_
  split
  · exact Runs.build ((Build.subfield_any w _).mono fun _ _ => hfixed)
  · exact Runs.build ((Build.subindex_any w _).mono fun _ _ => hfixed)
  next hk =>
    refine Runs.bind_any fun index _ => Runs.build ((Build.subaccess_any w index).mono ?_)
    rintro r s' ⟨e, k, hty, hm⟩
    have hw := h.gauged.value hty
    have hplus := h.gauged.subaccess hop hk hu hv
    obtain ⟨G', hg⟩ := h.made hm (hw.reads (Nat.lt_succ_self _) (Nat.le_max_right _ _) (hle.reads hreads)
      (Extent.before_le _) (h.gauged.value htv)) (by
        intro w' hw'
        obtain rfl := Option.some.inj hw'
        refine ⟨Nat.le_trans (Nat.succ_le_succ hw.depth) hn, fun r' hr' => ?_⟩
        obtain rfl := List.mem_singleton.1 hr'
        refine ⟨hle.reads hreads, ?_⟩
        have := hle.accesses
        show (G.extent w).accesses + 1 ≤ (G.extent v).accesses - 1
        omega)
    exact hafter hg
  · exact .throw id

/-- The accessors of a path are made anew, the last one first, on a value behind which one computed access
fewer stands. -/
theorem retrace_runs (h : t.builder.Site cx L n G) {path : List OpId} (hp : t.builder.body.Leads v path u)
    (hw : (t.builder.body.ty? w).isSome) (hn : L.depth + 1 ≤ n) (hle : (G.extent w).Before (G.extent u)) :
    Runs False (path.reverse.foldlM (fun leaf o => reaccess o leaf) w) t fun r t' => ∃ G',
      t.builder.Lays cx L n path.length G G' t'.builder ∧ (t'.builder.body.ty? r).isSome ∧
      (G'.extent r).Before (G'.extent v) := by
  induction hp with
  | nil => exact .pure ⟨G, .refl h.gauged, hw, hle⟩
  | cons hv hop hacc hu hp ih =>
    obtain ⟨op', hop', hres⟩ := h.gauged.coherent.origin hv
    obtain rfl := Option.some.inj (hop.symm.trans hop')
    rw [List.reverse_cons, List.foldlM_append]
    refine (ih hle).bind ?_
    rintro leaf t₁ ⟨G₁, hl₁, hleaf, hle₁⟩
    obtain ⟨op₁, hop₁, hbare, hops₁, hres₁, -⟩ := hl₁.body.op? hop
    refine (((h.lays hl₁).reaccess_runs hop₁ ((OpKind.isAccessor_eq_of_bare_eq hbare).trans hacc) (hops₁ ▸ hu)
      (hres₁ ▸ List.mem_of_getElem? hres) hn hle₁).bind ?_)
    rintro r t₂ ⟨G₂, hl₂, hr⟩
    exact .pure ⟨G₂, hl₁.trans hl₂, hr⟩

/-- Through a path that starts from one element, a connection is made that ranks lower, because one computed
access fewer stands behind its destination. -/
theorem innerWrite_runs (h : t.builder.Site cx L n G) (strict : Bool) {dest vector src : ValueId} {inner : List OpId}
    (hp : t.builder.body.Leads dest inner v) (hdest : (t.builder.body.ty? dest).isSome)
    (hv : (t.builder.body.ty? v).isSome) (hsrc : (t.builder.body.ty? src).isSome)
    (hreads : (G.extent vector).Reads (G.extent v)) (hplus : (G.extent vector).accesses + 1 ≤ (G.extent v).accesses)
    (hn : L.depth + 1 ≤ n)
    (hr : ∀ {q : Extent}, q.Before (G.extent dest) → L.connectRank q (G.extent src) ≤ n) (element : Nat) (after : Point) :
    Runs False (do
      let leaf ← (Build.subindex vector element : Lower ValueId)
      let leaf ← inner.reverse.foldlM (fun leaf o => reaccess o leaf) leaf
      let _ ← (Build.connect strict leaf src : Lower OpId)
      Build.moveTo after) t fun _ t' => ∃ G' s', t.builder.Lays cx L n (inner.length + 2) G G' s' ∧
        t'.builder = ⟨s'.body, after⟩ := by
  obtain ⟨td, htd⟩ := Option.isSome_iff_exists.1 hdest
  obtain ⟨tv, htv⟩ := Option.isSome_iff_exists.1 hv
  obtain ⟨ts, hts⟩ := Option.isSome_iff_exists.1 hsrc
  refine Runs.bind_build (Build.subindex_any vector element) fun leaf s₁ hm => ?_
  obtain ⟨G₁, _, c, _, _, hg⟩ := h.madePart hm
  have hbefore : (G₁.extent leaf).Before (G₁.extent v) := by
    obtain ⟨-, hd, hc⟩ := Extent.le_trans hg.extent_le hreads.part_le
    rw [hg.toLays.extent htv]
    exact ⟨Nat.le_trans (Nat.succ_le_succ hg.extent_le.1) hplus, hd, hc⟩
  refine (retrace_runs (t := ⟨s₁, t.symbols⟩) (h.lays hg.toLays) (hg.body.leads hp) (by rw [hg.type]; rfl) hn
    hbefore).bind ?_
  rintro r t₂ ⟨G₂, hl₂, -, hle⟩
  have hl₂ := hg.toLays.trans hl₂
  rw [hl₂.extent htd] at hle
  refine Runs.bind_build ((h.lays hl₂).connect_runs strict (by rw [hl₂.extent hts]; exact hr hle)) ?_
  rintro _ s₃ ⟨G₃, hl₃⟩
  exact Runs.build (.moveTo ⟨G₃, s₃, (hl₂.trans hl₃).mono (Nat.le_refl _) (by omega), rfl⟩)

/-- A write through a path is made for one element, in a block of its own. Each computed access on the path
pays for a connection of all layers, so that the new one ranks lower, and so does the guard. -/
theorem guardedWrite_runs (h : t.builder.Site cx L n G) (strict : Bool) {dest vector index src : ValueId} (width : Nat)
    {inner rest : List OpId} {access : OpId} (hp : t.builder.body.Leads dest (inner ++ access :: rest) u)
    (hop : t.builder.body.op? access = some op) (hk : op.kind = .subaccess)
    (hvector : op.operands[0]? = some vector) (hdest : (t.builder.body.ty? dest).isSome)
    (hsrc : (t.builder.body.ty? src).isSome) (hr : L.connectRank (G.extent dest) (G.extent src) ≤ n + 1)
    (element : Nat) :
    Runs False (guardedWrite strict vector index src width inner element) t fun _ t' => ∃ G',
      t.builder.Lays cx L n (inner.length + 5) G G' t'.builder := by
  obtain ⟨td, htd⟩ := Option.isSome_iff_exists.1 hdest
  obtain ⟨ts, hts⟩ := Option.isSome_iff_exists.1 hsrc
  obtain ⟨v, hinner, houter⟩ := hp.split
  obtain ⟨i, hv⟩ : ∃ i, t.builder.body.origin? v = some (.result access i) := by
    cases houter with
    | cons hv => exact ⟨_, hv⟩
  obtain ⟨op', hop', hres⟩ := h.gauged.coherent.origin hv
  obtain rfl := Option.some.inj (hop.symm.trans hop')
  have hres := List.mem_of_getElem? hres
  have hreads := h.gauged.reads hop (by rw [hk]; rfl) hvector hres
  have hplus := h.gauged.subaccess hop hk hvector hres
  obtain ⟨tv, htv⟩ := Option.isSome_iff_exists.1 (isSome_ty?.2 (h.gauged.lt_of_mem_results hop hres))
  obtain ⟨tvec, htvec⟩ := Option.isSome_iff_exists.1
    (isSome_ty?.2 (h.gauged.coherent.operand hop (List.mem_of_getElem? hvector)))
  have hrank : ∀ {q : Extent}, q.Before (G.extent dest) →
      L.connectRank q (G.extent src) + L.depth + 2 ≤ n + 1 := fun {q} hq => by
    have hmul : (q.accesses + (G.extent src).accesses + 1) * (L.depth + 2) ≤
        ((G.extent dest).accesses + (G.extent src).accesses) * (L.depth + 2) := by
      have := hq.accesses
      exact Nat.mul_le_mul_right _ (by omega)
    have := hq.depth
    rw [Nat.add_mul, Nat.one_mul] at hmul
    unfold Limits.connectRank at hr ⊢
    omega
  have hn : L.depth + 2 ≤ n := by
    have hpos : 0 < (G.extent dest).accesses := by
      have := (h.gauged.leads hinner).1
      omega
    have := hrank (.of_le (Extent.le_refl _) hpos)
    unfold Limits.connectRank at this
    omega
  refine Runs.bind_build (Build.createValue_any rfl [] (.uint width)) fun position s₁ hm₁ => ?_
  obtain ⟨G₁, hg₁⟩ := h.madeGround hm₁ fun _ _ => trivial
  have hs₁ := h.lays hg₁.toLays
  refine Runs.bind_build (Build.prim_any (p := .eq)) fun cond s₂ hm₂ => ?_
  obtain ⟨G₂, hg₂⟩ := hs₁.madeGround hm₂ fun _ _ => trivial
  have hs₂ := hs₁.lays hg₂.toLays
  refine Runs.bind_build (when_runs s₂ cond false nofun) ?_
  rintro ⟨g, k, e⟩ ⟨b₃, p₃⟩ ⟨hc, hpoint, he⟩
  obtain rfl : e = none := by simpa using he
  obtain ⟨G₃, hl₃, hs₃⟩ := hs₂.guarded hc (m := n - 1) (by omega)
  have hl₃ := (hg₁.toLays.trans hg₂.toLays).trans hl₃
  have hold {w : ValueId} {ty : Ty} (hw : t.builder.body.ty? w = some ty) :
      (b₃.ty? w).isSome ∧ G₃.extent w = G.extent w := 
    ⟨Option.isSome_of_eq_some (hl₃.laid.ty? hw), hl₃.extent hw⟩
  refine Runs.bind_point (Runs.bind_moveTo ?_)
  refine (innerWrite_runs (t := ⟨⟨b₃, ⟨k, 0⟩⟩, t.symbols⟩) hs₃ strict (hl₃.body.leads hinner) (hold htd).1
    (hold htv).1 (hold hts).1 ?_ ?_ (by omega) (fun {q} hq => ?_) element _).mono ?_
  · rw [(hold htvec).2, (hold htv).2]
    exact hreads
  · rw [(hold htvec).2, (hold htv).2]
    exact hplus
  · rw [(hold htd).2] at hq
    have := hrank hq
    rw [(hold hts).2]
    omega
  · rintro _ t' ⟨G', s', hl', ht'⟩
    rw [ht']
    obtain rfl : p₃ = _ := hpoint
    refine ⟨G', ⟨(hl₃.laid.trans (hl'.laid.mono (Nat.sub_le n 1) (Nat.le_refl _))).mono (Nat.le_refl _) (by omega),
      hl₃.body.trans hl'.body, hl₃.block⟩⟩

/-- A write at a computed position gives way to one write for each element, within the gauge. -/
theorem writePath_runs (h : t.builder.Site cx L n G) (hop : t.builder.body.op? o = some op) {strict : Bool}
    (hk : op.kind = .connect strict) (hfits : op.InGauge cx L G.extent t.builder.body.ty? (n + 1)) :
    Runs False (writePath o strict) t fun written t' => if written then
      ∃ G', t.builder.body.Laid cx L n (L.breadth * (L.chain + 5)) G G' t'.builder.body else t' = t := by
  refine Runs.bind_body (writePath_leads hop) fun path ⟨dest, rest, w, hdest, hl, hdyn⟩ => ?_
  split
  next access hlast =>
    obtain ⟨inner, rfl⟩ : ∃ inner, path = inner ++ [access] := List.getLast?_eq_some_iff.1 hlast
    have hpath : t.builder.body.Leads dest (inner ++ access :: rest) w := by
      rwa [List.append_assoc] at hl
    obtain ⟨opa, hopa, hacc⟩ := hpath.exists_accessor (List.mem_append_right _ List.mem_cons_self)
    have hka := kind_of_isDynamic hopa (hdyn access hlast)
    have hoperand {x : OpId} {opx : Operation} (hopx : t.builder.body.op? x = some opx) (i : Nat) :
        Ends False (t.builder.body.operand x i) fun v =>
          opx.operands[i]? = some v ∧ (t.builder.body.ty? v).isSome :=
      operand_ends (fun op' v hop' hv => by
        obtain rfl := Option.some.inj (hopx.symm.trans hop')
        exact ⟨hv, isSome_ty?.2 (h.gauged.coherent.operand hopx (List.mem_of_getElem? hv))⟩) nofun
    refine Runs.bind_body (hoperand hopa 0) fun vector ⟨hvector, _⟩ => Runs.bind_any fun index _ =>
      Runs.bind_body (hoperand hop 1) fun src ⟨hsrc, hsrc'⟩ => Runs.bind_body vectorOf_ends fun en hvec => ?_
    have hdest' := isSome_ty?.2 (h.gauged.coherent.operand hop (List.mem_of_getElem? hdest))
    obtain ⟨td, htd⟩ := Option.isSome_iff_exists.1 hdest'
    obtain ⟨ts, hts⟩ := Option.isSome_iff_exists.1 hsrc'
    have hrank : L.connectRank (G.extent dest) (G.extent src) ≤ n + 1 := by
      unfold Operation.InGauge at hfits
      rw [hk] at hfits
      exact hfits _ _ (by rw [List.getElem?_map, hdest]; rfl) (by rw [List.getElem?_map, hsrc]; rfl)
    have hlen : inner.length + 5 ≤ L.chain + 5 := by
      have := (h.gauged.leads hl).2
      have := (h.gauged.value htd).chain
      have := Nat.two_pow_pos (G.extent dest).depth
      simp only [List.length_append, List.length_singleton] at *
      omega
    rw [List.dropLast_concat]
    refine Runs.bind (Runs.forM (fun done t' => ∃ G', t.builder.Lays cx L n (done.length * (L.chain + 5)) G G' t'.builder)
      (List.range en.2) ⟨G, (Lays.refl h.gauged).mono (Nat.le_refl _) (Nat.zero_le _)⟩ ?_) ?_
    · rintro done i later t' _ ⟨G', hl'⟩
      obtain ⟨opa', hopa', hbare, hops, -⟩ := hl'.body.op? hopa
      have hka' : opa'.kind = .subaccess := (OpKind.eq_of_bare_eq hbare.symm (by rw [hka]; rfl)).symm.trans hka
      refine ((h.lays hl').guardedWrite_runs strict _ (hl'.body.leads hpath) hopa' hka' (hops ▸ hvector)
        (Option.isSome_of_eq_some (hl'.laid.ty? htd)) (Option.isSome_of_eq_some (hl'.laid.ty? hts)) ?_ i).mono ?_
      · rw [hl'.extent htd, hl'.extent hts]
        exact hrank
      · rintro _ t'' ⟨G'', hl''⟩
        refine ⟨G'', ?_⟩
        rw [List.length_append, Nat.add_mul]
        exact hl'.trans (hl''.mono (Nat.le_refl _) (by simpa using hlen))
    · rintro _ t' ⟨G', hl'⟩
      have hcount : en.2 * (L.chain + 5) ≤ L.breadth * (L.chain + 5) :=
        Nat.mul_le_mul_right _ (Nat.le_trans (Nat.le_max_left _ _) (h.gauged.value hvec).breadth)
      rw [List.length_range] at hl'
      refine Runs.bind_change (dropOperands_ends nofun) fun b₁ hd => ?_
      have h₁ := hl'.laid.gauged.dropped rfl hd
      refine Runs.bind_change (h₁.eraseUnread_ends fun x hx op₁ hop₁ => ?_) fun b₂ ⟨h₂, hout⟩ => .pure ⟨G', ?_⟩
      · obtain ⟨opx, hopx, haccx⟩ := hl.exists_accessor (List.mem_append_left rest hx)
        obtain ⟨opx', hopx', hbare, -⟩ := hl'.body.op? hopx
        obtain ⟨op', hop', hk', -⟩ := (hd.outlives rfl).op?_some' hop₁
        rw [hk', Option.some.inj (hop'.symm.trans hopx'), OpKind.isAccessor_eq_of_bare_eq hbare, haccx]
      · exact ((hl'.laid.trans (.of_outlives h₁ (hd.outlives rfl))).trans (.of_outlives h₂ hout)).mono
          (Nat.le_refl _) hcount
  next => exact .pure rfl

/-! ## Connections -/

/-- One part of two aggregates is connected, in either direction. -/
theorem connectPart_runs (h : s.Site cx L n G) (strict : Bool) {dest src : ValueId}
    (hdest : (s.body.ty? dest).isSome) (hpos : 0 < (G.extent dest).depth)
    (hr : L.connectRank (G.extent dest) (G.extent src) ≤ n + 1) (part : Part) :
    Runs False (connectPart strict dest src part) s fun _ s' => ∃ G', s.Lays cx L n 3 G G' s' := by
  obtain ⟨td, htd⟩ := Option.isSome_iff_exists.1 hdest
  refine (h.part_runs src part.index).bind ?_
  rintro v s₁ ⟨G₁, tv, _, htv, hcv, hg₁⟩
  have hs₁ := h.lays hg₁.toLays
  refine (hs₁.part_runs dest part.index).bind ?_
  rintro w s₂ ⟨G₂, _, _, _, _, hg₂⟩
  have hs₂ := hs₁.lays hg₂.toLays
  have hboth := hg₁.toLays.trans hg₂.toLays
  have hrank : L.connectRank (G₂.extent w) (G₂.extent v) ≤ n := by
    have hw := hg₂.extent_le
    have hv := hg₁.extent_le
    rw [hg₁.toLays.extent htd] at hw
    rw [← hg₂.toLays.extent hg₁.type] at hv
    refine Nat.le_trans (L.connectRank_mono hw hv) ?_
    have hlt := Ty.depth_lt_of_child? hcv
    have := (h.gauged.value htv).type
    unfold Limits.connectRank at hr ⊢
    show ((G.extent dest).accesses + (G.extent src).accesses) * (L.depth + 2) +
      max ((G.extent dest).depth - 1) ((G.extent src).depth - 1) + 1 ≤ n
    omega
  have hlast {dest src : ValueId} (hle : L.connectRank (G₂.extent dest) (G₂.extent src) ≤ n) :
      Runs False (Build.connect strict dest src) s₂ fun _ s' => ∃ G', s.Lays cx L n 3 G G' s' :=
    (hs₂.connect_runs strict hle).mono fun _ _ ⟨G₃, hl₃⟩ => ⟨G₃, hboth.trans hl₃⟩
  split
  · exact (hlast (L.connectRank_comm _ _ ▸ hrank)).bind fun _ _ h => .pure h
  · exact (hlast hrank).bind fun _ _ h => .pure h

/-- A connection gives way to guarded writes, or to one connection for each part, within the gauge. -/
theorem connection_runs (h : t.builder.Site cx L n G) (hop : t.builder.body.op? o = some op) {strict : Bool}
    (hk : op.kind = .connect strict) (hfits : op.InGauge cx L G.extent t.builder.body.ty? (n + 1)) :
    Runs False (Lower.connect o strict) t fun _ t' =>
      ∃ G', t.builder.body.Laid cx L n (L.breadth * (L.chain + 5)) G G' t'.builder.body := by
  refine (h.writePath_runs hop hk hfits).bind fun written t₁ h₁ => ?_
  cases written with
  | true => exact .pure h₁
  | false =>
    obtain rfl : t₁ = t := h₁
    have hoperand (i : Nat) : Ends False (t₁.builder.body.operand o i) fun v => op.operands[i]? = some v :=
      operand_ends (fun op' v hop' hv => by rwa [Option.some.inj (hop.symm.trans hop')]) nofun
    refine Runs.bind_body (hoperand 0) fun dest hdest => Runs.bind_body (hoperand 1) fun src hsrc => ?_
    refine Runs.bind_body (P := fun ty => t₁.builder.body.ty? dest = some ty) (typeOf_ends (fun _ h => h) nofun)
      fun td htd => Runs.bind_except (Ty.peel_ends nofun) fun parts? hparts => ?_
    split
    next parts =>
      have hps : td.PartsOf parts := hparts.1
      have hvalue := h.gauged.value htd
      have hpos := Nat.lt_of_lt_of_le (Ty.depth_pos hps.aggregate) hvalue.type
      obtain ⟨ts, hts⟩ := Option.isSome_iff_exists.1
        (isSome_ty?.2 (h.gauged.coherent.operand hop (List.mem_of_getElem? hsrc)))
      have hrank : L.connectRank (G.extent dest) (G.extent src) ≤ n + 1 := by
        unfold Operation.InGauge at hfits
        rw [hk] at hfits
        exact hfits _ _ (by rw [List.getElem?_map, hdest]; rfl) (by rw [List.getElem?_map, hsrc]; rfl)
      refine Runs.bind (Runs.forM (fun done t' => ∃ G', t₁.builder.Lays cx L n (done.length * 3) G G' t'.builder)
        parts ⟨G, .refl h.gauged⟩ ?_) ?_
      · rintro done part rest t' _ ⟨G', hl⟩
        refine Runs.build (((h.lays hl).connectPart_runs strict (Option.isSome_of_eq_some (hl.laid.ty? htd)) ?_ ?_
          part).mono ?_)
        · rw [hl.extent htd]
          exact hpos
        · rw [hl.extent htd, hl.extent hts]
          exact hrank
        · rintro _ s' ⟨G'', hl'⟩
          refine ⟨G'', ?_⟩
          rw [List.length_append, Nat.add_mul]
          exact hl.trans hl'
      · rintro _ t' ⟨G', hl⟩
        have hcount : parts.length * 3 ≤ L.breadth * (L.chain + 5) :=
          Nat.mul_le_mul (Nat.le_trans hps.length_le hvalue.breadth) (by omega)
        exact .pure ⟨G', hl.laid.mono (Nat.le_refl _) hcount⟩
    next => exact .pure ⟨G, (Laid.refl h.gauged).mono (Nat.le_refl _) (Nat.zero_le _)⟩

end Builder.Site

end Scalarize
