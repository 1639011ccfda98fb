import Scalarize.Proofs.Gauge

/-!
# Building within a gauge

* `Body.Laid` : what is left once operations were added to a body, no more than a number of them and none
  above a rank; `Builder.Lays` : the same where nothing else has changed;
* `Builder.Site` : a place where operations up to a rank may be made;
* `Builder.Supplies` : a value within an extent was made;
* `Site.createValue_runs`, `Site.part_runs` and the like : one bound for each building function.
-/

namespace Scalarize

open Body

/-! ## What was added -/

/-- No more than `c` operations were added to `b`, none above rank `n`, and the body is within a gauge that
agrees with the former one on all that was there. -/
structure Body.Laid (cx : Context) (L : Limits) (n c : Nat) (G : Gauge) (b : Body) (G' : Gauge) (b' : Body) :
    Prop where
  gauged : b'.Gauged cx L G'
  extent : ∀ {v : ValueId}, v.index < b.values.size → G'.extent v = G.extent v
  rank : ∀ {x : OpId}, x.index < b.ops.size → G'.rank x = G.rank x
  new : ∀ {x : OpId}, b.ops.size ≤ x.index → x.index < b'.ops.size → G'.rank x ≤ n
  count : b'.ops.size ≤ b.ops.size + c
  ops : b.ops.size ≤ b'.ops.size
  values : b.values.size ≤ b'.values.size
  blocks : b.blocks.size ≤ b'.blocks.size
  ty? : ∀ {v : ValueId} {t : Ty}, b.ty? v = some t → b'.ty? v = some t
  guard : ∀ {x op} {k : BlockId}, b'.op? x = some op → k ∈ op.kind.blocks → k.index < b.blocks.size →
    ∃ op₀, b.op? x = some op₀ ∧ k ∈ op₀.kind.blocks

namespace Body.Laid

variable {cx : Context} {L : Limits} {n n' c c' : Nat} {G G' G'' : Gauge} {b b' b'' : Body} {v w : ValueId}

theorem refl (h : b.Gauged cx L G) : b.Laid cx L n 0 G G b where
  gauged := h
  extent _ := rfl
  rank _ := rfl
  new hle hlt := absurd hlt (Nat.not_lt.2 hle)
  count := Nat.le_refl _
  ops := Nat.le_refl _
  values := Nat.le_refl _
  blocks := Nat.le_refl _
  ty? h := h
  guard hop hk _ := ⟨_, hop, hk⟩

theorem trans (h : b.Laid cx L n c G G' b') (h' : b'.Laid cx L n c' G' G'' b'') :
    b.Laid cx L n (c + c') G G'' b'' where
  gauged := h'.gauged
  extent hv := (h'.extent (Nat.lt_of_lt_of_le hv h.values)).trans (h.extent hv)
  rank hx := (h'.rank (Nat.lt_of_lt_of_le hx h.ops)).trans (h.rank hx)
  new {x} hle hlt := by
    by_cases hx : x.index < b'.ops.size
    · rw [h'.rank hx]
      exact h.new hle hx
    · exact h'.new (Nat.not_lt.1 hx) hlt
  count := by
    have := h.count
    have := h'.count
    omega
  ops := Nat.le_trans h.ops h'.ops
  values := Nat.le_trans h.values h'.values
  blocks := Nat.le_trans h.blocks h'.blocks
  ty? ht := h'.ty? (h.ty? ht)
  guard hop hk hlt := by
    obtain ⟨op', hop', hk'⟩ := h'.guard hop hk (Nat.lt_of_lt_of_le hlt h.blocks)
    exact h.guard hop' hk' hlt

theorem mono (h : b.Laid cx L n c G G' b') (hn : n ≤ n') (hc : c ≤ c') : b.Laid cx L n' c' G G' b' :=
  { h with
    new := fun hle hlt => Nat.le_trans (h.new hle hlt) hn
    count := Nat.le_trans h.count (Nat.add_le_add_left hc _) }

/-- The body is as it was, up to operands, and still within its gauge. -/
theorem of_outlives (h : b'.Gauged cx L G) (ho : Outlives b b') : b.Laid cx L n 0 G G b' := by
  have hops : ∀ i : Nat, i < b'.ops.size ↔ i < b.ops.size := fun i => by
    have := congrArg Option.isSome (ho.op? ⟨i⟩)
    simp only [Option.isSome_map] at this
    rw [← isSome_op? (o := ⟨i⟩), this, isSome_op?]
  have hvalues : ∀ i : Nat, i < b'.values.size ↔ i < b.values.size := fun i => by
    rw [← isSome_value? (v := ⟨i⟩), ho.isSome_value?, isSome_value?]
  have hle := (hops b'.ops.size).not.1 (Nat.lt_irrefl _)
  have hge := (hops b.ops.size).not.2 (Nat.lt_irrefl _)
  refine ⟨h, fun _ => rfl, fun _ => rfl, fun {x} hx hlt => ?_, by omega, by omega, ?_,
    Nat.le_of_eq (by rw [ho.blocks]), ?_, ?_⟩
  · omega
  · have := (hvalues b'.values.size).not.1 (Nat.lt_irrefl _)
    have := (hvalues b.values.size).not.2 (Nat.lt_irrefl _)
    omega
  · exact fun ht => (ho.ty? _).trans ht
  · intro x op k hop hk _
    obtain ⟨op₀, hop₀, hkind, -⟩ := ho.op?_some' hop
    exact ⟨op₀, hop₀, hkind ▸ hk⟩

end Body.Laid

/-- Operations were made at the insertion point, which has moved past them, and nothing was taken back. -/
structure Builder.Lays (cx : Context) (L : Limits) (n c : Nat) (G : Gauge) (s : Builder) (G' : Gauge)
    (s' : Builder) : Prop where
  laid : s.body.Laid cx L n c G G' s'.body
  body : s.body.Extends s'.body
  block : s'.point.block = s.point.block

namespace Builder.Lays

variable {cx : Context} {L : Limits} {n n' c c' : Nat} {G G' G'' : Gauge} {s s' s'' : Builder} {v w : ValueId}

theorem refl (h : s.body.Gauged cx L G) : s.Lays cx L n 0 G G s := ⟨.refl h, .refl _, rfl⟩

theorem trans (h : s.Lays cx L n c G G' s') (h' : s'.Lays cx L n c' G' G'' s'') :
    s.Lays cx L n (c + c') G G'' s'' :=
  ⟨h.laid.trans h'.laid, h.body.trans h'.body, h'.block.trans h.block⟩

theorem mono (h : s.Lays cx L n c G G' s') (hn : n ≤ n') (hc : c ≤ c') : s.Lays cx L n' c' G G' s' :=
  ⟨h.laid.mono hn hc, h.body, h.block⟩

/-- Values keep their extents. -/
theorem extent (h : s.Lays cx L n c G G' s') {t : Ty} (hv : s.body.ty? v = some t) :
    G'.extent v = G.extent v :=
  h.laid.extent (lt_of_ty? hv)

end Builder.Lays

/-! ## Places -/

/-- Operations up to rank `n` may be made at the insertion point: what guards its block ranks above them. -/
structure Builder.Site (cx : Context) (L : Limits) (n : Nat) (G : Gauge) (s : Builder) : Prop where
  gauged : s.body.Gauged cx L G
  place : (s.body.block? s.point.block).isSome
  guard : ∀ {g op}, s.body.op? g = some op → s.point.block ∈ op.kind.blocks → n < G.rank g

/-- A value of the type was made, within the extent `p`. -/
structure Builder.Supplies (cx : Context) (L : Limits) (n c : Nat) (G : Gauge) (s : Builder) (p : Extent) (ty : Ty)
    (v : ValueId) (G' : Gauge) (s' : Builder) : Prop extends Builder.Lays cx L n c G s G' s' where
  extent_le : G'.extent v ≤ p
  type : s'.body.ty? v = some ty

namespace Builder.Supplies

variable {cx : Context} {L : Limits} {n n' c c' : Nat} {G G' G'' : Gauge} {s s' s'' : Builder} {p q : Extent}
  {ty : Ty} {v : ValueId}

theorem le (h : s.Supplies cx L n c G p ty v G' s') (hpq : p ≤ q) : s.Supplies cx L n c G q ty v G' s' :=
  ⟨h.toLays, Extent.le_trans h.extent_le hpq, h.type⟩

theorem mono (h : s.Supplies cx L n c G p ty v G' s') (hn : n ≤ n') (hc : c ≤ c') :
    s.Supplies cx L n' c' G p ty v G' s' :=
  ⟨h.toLays.mono hn hc, h.extent_le, h.type⟩

/-- More was made before. -/
theorem after (h : s.Supplies cx L n c' G' p ty v G'' s'') {s₀ : Builder} (h₀ : s₀.Lays cx L n c G G' s) :
    s₀.Supplies cx L n (c + c') G p ty v G'' s'' :=
  ⟨h₀.trans h.toLays, h.extent_le, h.type⟩

end Builder.Supplies

namespace Builder.Site

variable {cx : Context} {L : Limits} {n n' c : Nat} {G G' : Gauge} {s s' : Builder} {v w : ValueId}

theorem laid (h : s.Site cx L n G) (hl : s.body.Laid cx L n' c G G' s'.body)
    (hp : s'.point.block = s.point.block) : s'.Site cx L n G' := by
  obtain ⟨blk, hblk⟩ := Option.isSome_iff_exists.1 h.place
  have hlt := lt_of_block? hblk
  refine ⟨hl.gauged, ?_, fun {g op} hg hk => ?_⟩
  · rw [hp, Body.block?, Array.getElem?_eq_getElem (Nat.lt_of_lt_of_le hlt hl.blocks)]
    rfl
  · rw [hp] at hk
    obtain ⟨op₀, hg₀, hk₀⟩ := hl.guard hg hk hlt
    rw [hl.rank (lt_of_op? hg₀)]
    exact h.guard hg₀ hk₀

theorem lays (h : s.Site cx L n G) (hl : s.Lays cx L n' c G G' s') : s'.Site cx L n G' :=
  h.laid hl.laid hl.block

theorem le (h : s.Site cx L n G) (hn : n' ≤ n) : s.Site cx L n' G :=
  ⟨h.gauged, h.place, fun hg hk => Nat.lt_of_le_of_lt hn (h.guard hg hk)⟩

/-- In front of an operation there is room for what ranks below it. -/
theorem of_slot (h : s.body.Gauged cx L G) {blk : Block} {o : OpId} (hblk : s.body.block? s.point.block = some blk)
    (ho : o ∈ blk.slots) (hn : n < G.rank o) : s.Site cx L n G := by
  refine ⟨h, by rw [hblk]; rfl, fun {g op} hg hk => ?_⟩
  have := h.nested hblk ho hg hk
  omega

/-- A new operation within its gauge is added. -/
theorem created (h : s.Site cx L n G) {kind : OpKind} {vs : List ValueId} {tys : List Ty} {o : OpId}
    {b : Body} (hc : Created s.body s.point kind vs tys o b) (extents : Nat → Extent)
    (hv : ∀ i t, tys[i]? = some t → L.Holds t (extents i))
    (hf : kind.InGauge cx L (vs.map G.extent) (tys.zipIdx.map fun e => (extents e.2, some e.1)) n) :
    s.Lays cx L n 1 G (G.extend s.body extents n) (s.after b) := by
  have hresults : ((List.range tys.length).map fun j => (⟨s.body.values.size + j⟩ : ValueId)).map
      (fun r => ((G.extend s.body extents n).extent r, b.ty? r)) =
      tys.zipIdx.map fun e => (extents e.2, some e.1) := by
    refine List.ext_getElem? fun i => ?_
    rw [List.map_map, List.getElem?_map, List.getElem?_map, List.getElem?_zipIdx]
    by_cases hi : i < tys.length
    · rw [List.getElem?_range hi, List.getElem?_eq_getElem hi]
      simp only [Option.map_some, Function.comp_apply, Nat.zero_add]
      rw [Gauge.extent_new, hc.ty?_new, List.getElem?_eq_getElem hi]
    · rw [List.getElem?_eq_none (by simpa using hi), List.getElem?_eq_none (by simpa using hi)]
      rfl
  have hoperands : vs.map (G.extend s.body extents n).extent = vs.map G.extent :=
    List.map_congr_left fun v hv => Gauge.extent_old (hc.operands_lt v hv)
  have hgauged : b.Gauged cx L (G.extend s.body extents n) := by
    refine h.gauged.created hc hv ?_ fun g op hg hk => h.guard hg hk
    unfold Operation.InGauge
    rw [hoperands, hresults]
    exact hf
  have hnext : ¬s.body.ops.size + 1 < b.ops.size := fun hlt => by
    have hsome := isSome_op?.2 (show (⟨s.body.ops.size + 1⟩ : OpId).index < b.ops.size from hlt)
    obtain ⟨op, hop⟩ := Option.isSome_iff_exists.1 hsome
    rcases hc.op?_cases hop with hop | ⟨he, -⟩
    · exact absurd (lt_of_op? hop) (Nat.not_lt.2 (Nat.le_succ _))
    · rw [hc.id] at he
      exact absurd (congrArg OpId.index he) (Nat.succ_ne_self _)
  have hself := lt_of_op? hc.op?_self
  rw [hc.id] at hself
  have hself : s.body.ops.size < b.ops.size := hself
  have hblocks : s.body.blocks.size ≤ b.blocks.size := by
    cases hn : s.body.blocks.size with
    | zero => exact Nat.zero_le _
    | succ k =>
      have hk : k < s.body.blocks.size := by omega
      have hblk : s.body.block? ⟨k⟩ = some s.body.blocks[k] := Array.getElem?_eq_getElem hk
      obtain ⟨blk', hblk', -⟩ := hc.block?_old hblk
      exact lt_of_block? hblk'
  refine ⟨⟨hgauged, Gauge.extent_old, Gauge.rank_old, fun hle _ => ?_, by show b.ops.size ≤ _; omega,
    Nat.le_of_lt hself, hc.size, hblocks, fun ht => hc.extended.ty?_some ht, fun {x op k} hop hk hlt => ?_⟩,
    hc.extended, rfl⟩
  · exact Nat.le_of_eq (Gauge.rank_new hle)
  · rcases hc.op?_cases hop with hop | ⟨-, rfl⟩
    · exact ⟨op, hop, hk⟩
    · have hk' : k ∈ kind.blocks := hk
      rw [hc.guards, List.mem_map] at hk'
      obtain ⟨j, -, rfl⟩ := hk'
      exact absurd hlt (Nat.not_lt.2 (Nat.le_add_right _ _))

/-- An operation with one result was made. -/
theorem made (h : s.Site cx L n G) {kind : OpKind} {vs : List ValueId} {ty : Ty} {p : Extent}
    (hm : s.Made kind vs ty v s') (hp : L.Holds ty p) (hf : kind.InGauge cx L (vs.map G.extent) [(p, some ty)] n) :
    ∃ G', s.Supplies cx L n 1 G p ty v G' s' := by
  have htype := hm.ty?
  obtain ⟨o, b, hc, rfl, rfl⟩ := hm
  refine ⟨_, h.created hc (fun _ => p) (fun i t ht => ?_) hf, ?_, htype⟩
  · cases i with
    | zero => exact Option.some.inj ht ▸ hp
    | succ i => cases ht
  · exact (Gauge.extent_new 0).symm ▸ Extent.le_refl p

/-! ## Building functions -/

/-- Ground values that are computed demand nothing of their operands. -/
theorem madeGround (h : s.Site cx L n G) {kind : OpKind} {vs : List ValueId} {g : Ground}
    (hm : s.Made kind vs (.ground g) v s') (hk : ∀ ws rs, kind.InGauge cx L ws rs n) :
    ∃ G', s.Supplies cx L n 1 G (.flat 0) (.ground g) v G' s' :=
  h.made hm (.ground g (Nat.zero_le _)) (hk _ _)

/-- A part of a value was made. -/
theorem madePart (h : s.Site cx L n G) {input : ValueId} {i : Nat} (hm : s.MadePart input i v s') :
    ∃ G' t c, s.body.ty? input = some t ∧ t.child? i = some c ∧
      s.Supplies cx L n 1 G (G.extent input).part c v G' s' := by
  obtain ⟨kind, t, c, hk, ht, hc, hm⟩ := hm
  have hin := h.gauged.value ht
  have hpos := Nat.lt_of_lt_of_le (Nat.zero_lt_of_lt (Ty.depth_lt_of_child? hc)) hin.type
  obtain ⟨G', hG'⟩ := h.made hm (hin.part hc) (.accessor hk (Extent.reads_part hpos))
  exact ⟨G', t, c, ht, hc, hG'⟩

theorem part_runs (h : s.Site cx L n G) (input : ValueId) (i : Nat) :
    Runs False (Build.part input i) s fun v s' => ∃ G' t c, s.body.ty? input = some t ∧
      t.child? i = some c ∧ s.Supplies cx L n 1 G (G.extent input).part c v G' s' :=
  (Build.part_any input i).mono fun _ _ => h.madePart

/-- A connection whose rank is low enough is made. -/
theorem connect_runs (h : s.Site cx L n G) (strict : Bool) {dest src : ValueId}
    (hr : L.connectRank (G.extent dest) (G.extent src) ≤ n) :
    Runs False (Build.connect strict dest src) s fun _ s' => ∃ G', s.Lays cx L n 1 G G' s' := by
  refine (Build.create_any rfl _ _).mono ?_
  rintro o _ ⟨b, hc, rfl⟩
  refine ⟨_, h.created hc (fun _ => .flat 0) nofun ?_⟩
  intro d s hd hs
  obtain rfl := Option.some.inj hd
  obtain rfl := Option.some.inj hs
  exact hr

/-- A value is cast, if it has to be, to a value that may give way to it. -/
theorem castTo_runs (h : s.Site cx L n G) {ty : Ty} {q : Extent} (hc : (G.extent v).Casts q)
    (hq : L.Holds ty q) (hr : (G.extent v).depth + q.depth + 1 ≤ n) :
    Runs False (Lower.castTo ty v) s fun w s' => ∃ G', s.Supplies cx L n 1 G q ty w G' s' := by
  refine Build.typeOf_any fun t ht => ?_
  split
  next he => exact .pure ⟨G, ⟨(Lays.refl h.gauged).mono (Nat.le_refl _) (Nat.zero_le _), hc.le, he ▸ ht⟩⟩
  next =>
    refine (Build.createValue_any rfl _ _).mono fun w s' hm => h.made hm hq ?_
    intro w hw r hr'
    obtain rfl := Option.some.inj hw
    obtain rfl := List.mem_singleton.1 hr'
    exact ⟨hc, hr⟩

/-- A guard is made, and what it guards may rank up to `m`. -/
theorem guarded (h : s.Site cx L n G) {k : BlockId} {cond : ValueId} {o : OpId} {b : Body}
    (hc : Created s.body s.point (.when k none) [cond] [] o b) {m : Nat} (hm : m < n) :
    ∃ G', s.Lays cx L n 1 G G' (s.after b) ∧ (⟨b, ⟨k, 0⟩⟩ : Builder).Site cx L m G' := by
  have hl := h.created hc (fun _ => .flat 0) nofun trivial
  refine ⟨_, hl, hl.laid.gauged, ?_, fun {g op} hg hk => ?_⟩
  · rw [hc.block?_new List.mem_cons_self]
    rfl
  · -- only the new operation guards the new block
    have hk' : k ∈ (OpKind.when k none).blocks := List.mem_cons_self
    rcases hc.op?_cases hg with hg₀ | ⟨rfl, -⟩
    · obtain ⟨-, blk, hblk, hpar⟩ := hl.laid.gauged.coherent.guards hg hk
      obtain rfl := Option.some.inj ((hc.block?_new hk').symm.trans hblk)
      rw [← Option.some.inj hpar, hc.fresh] at hg₀
      cases hg₀
    · rw [Gauge.rank_new (hc.id ▸ Nat.le_refl _)]
      exact hm

end Builder.Site

end Scalarize
