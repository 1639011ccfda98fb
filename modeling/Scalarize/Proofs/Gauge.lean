import Mathlib.Tactic.Ring
import Scalarize.Proofs.Edits
import Scalarize.Proofs.Ty

/-!
# Gauges

How deep the lowering of an operation nests, and how many operations a step makes, is bounded whatever the
types of operations are. The bounds come from a gauge of the values, which edits never raise.

* `Ty.breadth` : the most parts that an aggregate within a type has;
* `Extent`, `Gauge`, `Limits` : bounds for a value; a gauge bounds every value and ranks every operation;
* `OpKind.InGauge`, `Operation.InGauge` : what the gauge holds an operation to;
* `Body.Gauged` : every value and every operation of a body is within its gauge;
* `Gauged.created`, `Gauged.replaced`, `Gauged.dropped`, `Gauged.declared` : edits keep this.
-/

namespace Scalarize

open Body

/-! ## Breadth -/

namespace Ty

mutual

/-- The most parts that an aggregate within the type has. -/
def breadth : Ty → Nat
  | .ground _ => 0
  | .bundle fs => max fs.length (breadthFields fs)
  | .vector e n => max n e.breadth

/-- The most parts that an aggregate within the field list has. -/
def breadthFields : List Field → Nat
  | [] => 0
  | ⟨_, _, t⟩ :: fs => max t.breadth (breadthFields fs)

end

variable {t c : Ty} {i : Nat}

theorem breadthFields_le_iff {fs : List Field} {n : Nat} :
    breadthFields fs ≤ n ↔ ∀ f ∈ fs, f.ty.breadth ≤ n := by
  induction fs with
  | nil => simp [breadthFields]
  | cons f fs ih =>
    cases f
    rw [breadthFields, Nat.max_le, ih, List.forall_mem_cons]

theorem breadth_le_of_child? (h : t.child? i = some c) : c.breadth ≤ t.breadth := by
  cases t with
  | ground g => cases h
  | bundle fs =>
    obtain ⟨f, hf, rfl⟩ := Option.map_eq_some_iff.1 h
    have := breadthFields_le_iff.1 (Nat.le_refl _) f (List.mem_of_getElem? hf)
    exact Nat.le_trans this (Nat.le_max_right _ _)
  | vector e n =>
    simp only [child?] at h
    split at h
    · obtain rfl := Option.some.inj h
      exact Nat.le_max_right _ _
    · cases h

theorem lt_breadth_of_child? (h : t.child? i = some c) : i < t.breadth := by
  cases t with
  | ground g => cases h
  | bundle fs =>
    obtain ⟨f, hf, -⟩ := Option.map_eq_some_iff.1 h
    exact Nat.lt_of_lt_of_le (List.getElem?_eq_some_iff.1 hf).1 (Nat.le_max_left _ _)
  | vector e n =>
    simp only [child?] at h
    split at h
    next hi => exact Nat.lt_of_lt_of_le hi (Nat.le_max_left _ _)
    next => cases h

theorem PartsOf.length_le {ps : List Part} (h : PartsOf t ps) : ps.length ≤ t.breadth := by
  cases hps : ps.length with
  | zero => exact Nat.zero_le _
  | succ n =>
    have hn : n < ps.length := by omega
    exact lt_breadth_of_child? (h.child (List.getElem?_eq_getElem hn))

@[simp] theorem breadth_mask (t : Ty) : t.mask.breadth = t.breadth := by
  induction t with
  | ground g => rfl
  | vector e n ih => simp [mask, breadth, ih]
  | bundle fs ih =>
    have hfs : breadthFields (fs.map fun f => ⟨f.name, false, f.ty.mask⟩) = breadthFields fs := by
      induction fs with
      | nil => rfl
      | cons f fs ihs =>
        cases f
        rw [List.map_cons, breadthFields, breadthFields,
          ihs fun g hg => ih g (List.mem_cons_of_mem _ hg)]
        rw [ih _ List.mem_cons_self]
    simp [mask, breadth, hfs]

/-- The type is not split: it is ground, or `keep` is set and it may be kept. -/
def Stays (keep : Bool) (t : Ty) : Prop := t.isGround ∨ keep = true ∧ t.preservable

end Ty

/-! ## Gauges -/

/-- Bounds on what stands behind a value. -/
structure Extent where
  /-- Accesses at computed positions. -/
  accesses : Nat
  /-- Layers of structure. -/
  depth : Nat
  /-- Accessors, those included that a cast turns out to be. -/
  chain : Nat
  deriving DecidableEq

namespace Extent

/-- A value behind which no accessor stands. -/
def flat (depth : Nat) : Extent := ⟨0, depth, 0⟩

/-- A part of a value. -/
def part (p : Extent) : Extent := ⟨p.accesses, p.depth - 1, p.chain + 1⟩

instance : LE Extent := ⟨fun p q => p.accesses ≤ q.accesses ∧ p.depth ≤ q.depth ∧ p.chain ≤ q.chain⟩

theorem le_def {p q : Extent} :
    p ≤ q ↔ p.accesses ≤ q.accesses ∧ p.depth ≤ q.depth ∧ p.chain ≤ q.chain := Iff.rfl

theorem le_refl (p : Extent) : p ≤ p := ⟨Nat.le_refl _, Nat.le_refl _, Nat.le_refl _⟩

theorem le_trans {p q r : Extent} (h : p ≤ q) (h' : q ≤ r) : p ≤ r :=
  ⟨Nat.le_trans h.1 h'.1, Nat.le_trans h.2.1 h'.2.1, Nat.le_trans h.2.2 h'.2.2⟩

theorem part_mono {p q : Extent} (h : p ≤ q) : p.part ≤ q.part :=
  ⟨h.1, Nat.sub_le_sub_right h.2.1 1, Nat.succ_le_succ h.2.2⟩

theorem flat_le {d : Nat} {p : Extent} (h : d ≤ p.depth) : flat d ≤ p :=
  ⟨Nat.zero_le _, h, Nat.zero_le _⟩

end Extent

/-- Bounds for every value, and a rank for every operation: how deep its lowering nests. -/
structure Gauge where
  extent : ValueId → Extent
  rank : OpId → Nat

/-- What no value of a body exceeds. -/
structure Limits where
  accesses : Nat
  depth : Nat
  breadth : Nat

namespace Limits

/-- Accessors behind a value, at most. -/
def chain (L : Limits) : Nat := (L.accesses + 1) * 2 ^ L.depth

/-- A type and an extent that bounds it are within the limits. -/
structure Holds (L : Limits) (t : Ty) (p : Extent) : Prop where
  type : t.depth ≤ p.depth
  breadth : t.breadth ≤ L.breadth
  accesses : p.accesses ≤ L.accesses
  depth : p.depth ≤ L.depth
  /-- Every layer of structure may still become an accessor. -/
  chain : p.chain + 2 ^ p.depth ≤ L.chain

/-- How deep the lowering of a connection nests. Every write at a computed position is expanded once, and
for each of them the connection is taken apart anew. -/
def connectRank (L : Limits) (dest src : Extent) : Nat :=
  (dest.accesses + src.accesses) * (L.depth + 2) + max dest.depth src.depth + 1

theorem two_pow_le (L : Limits) {d : Nat} (h : d ≤ L.depth) : 2 ^ d ≤ L.chain :=
  Nat.le_trans (Nat.pow_le_pow_right Nat.two_pos h) (Nat.le_mul_of_pos_left _ (Nat.succ_pos _))

theorem Holds.flat {L : Limits} {t : Ty} {d : Nat} (ht : t.depth ≤ d) (hb : t.breadth ≤ L.breadth)
    (hd : d ≤ L.depth) : L.Holds t (.flat d) where
  type := ht
  breadth := hb
  accesses := Nat.zero_le _
  depth := hd
  chain := by
    rw [Extent.flat, Nat.zero_add]
    exact L.two_pow_le hd

theorem Holds.ground {L : Limits} (g : Ground) {d : Nat} (hd : d ≤ L.depth) :
    L.Holds (.ground g) (.flat d) :=
  .flat (Nat.zero_le _) (Nat.zero_le _) hd

/-- A part is within the limits with its aggregate. -/
theorem Holds.part {L : Limits} {t c : Ty} {p : Extent} {i : Nat} (h : L.Holds t p)
    (hc : t.child? i = some c) : L.Holds c p.part := by
  have hlt := Ty.depth_lt_of_child? hc
  have htype := h.type
  obtain ⟨d, hd⟩ : ∃ d, p.depth = d + 1 := ⟨p.depth - 1, by omega⟩
  have hchain := h.chain
  rw [hd, Nat.pow_succ] at hchain
  have hpos := Nat.two_pow_pos d
  refine ⟨?_, Nat.le_trans (Ty.breadth_le_of_child? hc) h.breadth, h.accesses, ?_, ?_⟩
  · show c.depth ≤ p.depth - 1
    omega
  · have := h.depth
    show p.depth - 1 ≤ L.depth
    omega
  · show p.chain + 1 + 2 ^ (p.depth - 1) ≤ L.chain
    rw [hd, Nat.add_sub_cancel]
    omega

end Limits

/-! ## Operations within a gauge -/

/-- A memory within the limits: its ports are, with the fields that they may have, and their wires. -/
structure Memory.Within (L : Limits) (m : Memory) : Prop where
  ports : m.ports.length ≤ L.breadth
  fields : 7 ≤ L.breadth
  depth : m.dataType.depth + 1 ≤ L.depth
  breadth : m.dataType.breadth ≤ L.breadth

/-- What an accessor reads may have one layer more than what it reaches, and is one accessor closer to where
the chain starts. -/
structure Extent.Reads (w r : Extent) : Prop where
  accesses : w.accesses ≤ r.accesses
  depth : w.depth ≤ r.depth + 1
  chain : w.chain + 1 ≤ r.chain

/-- A cast gives way to its operand, up to one accessor for each layer and cast. -/
structure Extent.Casts (w r : Extent) : Prop where
  accesses : w.accesses ≤ r.accesses
  depth : w.depth ≤ r.depth
  chain : w.chain + 2 ^ w.depth ≤ r.chain + 1

/-- What an operation is held to, given the extents of its operands and those of its results with their types:
results bound the operands that they may give way to, and lowering nests at most `n` deep. -/
def OpKind.InGauge (cx : Context) (L : Limits) :
    OpKind → List Extent → List (Extent × Option Ty) → Nat → Prop
  | subfield _, ws, rs, _ | subindex _, ws, rs, _ => ∀ w ∈ ws, ∀ r ∈ rs, w.Reads r.1
  | subaccess, ws, rs, n => ∀ w, ws[0]? = some w → w.depth + 1 ≤ n ∧
    ∀ r ∈ rs, w.Reads r.1 ∧ w.accesses + 1 ≤ r.1.accesses
  | bitcast, ws, rs, n => ∀ w, ws[0]? = some w → ∀ r ∈ rs, w.Casts r.1 ∧ w.depth + r.1.depth + 1 ≤ n
  | node _, ws, rs, n => ∀ r ∈ rs, r.1.depth + 1 ≤ n ∧ ∀ w, ws[0]? = some w → w.depth ≤ r.1.depth
  | mux, ws, rs, n => ∀ r ∈ rs, r.1.depth + 1 ≤ n ∧ ∀ w ∈ ws.tail, w.depth ≤ r.1.depth
  | multiMux, ws, rs, n => ws.length ≤ L.breadth + 1 ∧
    ∀ r ∈ rs, r.1.depth + 1 ≤ n ∧ ∀ w ∈ ws.tail, w.depth ≤ r.1.depth
  | wire _, _, rs, n | reg _, _, rs, n | regReset _, _, rs, n | invalid, _, rs, n
  | unrealizedCast, _, rs, n => ∀ r ∈ rs, r.1.depth + 1 ≤ n
  | mem m, _, rs, n => m.Within L ∧ m.dataType.depth + 3 ≤ n ∧ ∀ r ∈ rs, m.dataType.depth + 1 ≤ r.1.depth
  | inst i, _, rs, n => ∀ entry, cx.modules.get? i.moduleName = some entry → ∀ r ∈ rs, ∀ t, r.2 = some t →
    ¬t.Stays (cx.options.portsMayPreserve entry) → t.depth ≤ n
  | connect _, ws, _, n => ∀ d s, ws[0]? = some d → ws[1]? = some s → L.connectRank d s ≤ n
  | constant _, _, _, _ | prim _, _, _, _ | .when _ _, _, _, _ => True

namespace Limits

theorem connectRank_mono (L : Limits) {d d' s s' : Extent} (hd : d' ≤ d) (hs : s' ≤ s) :
    L.connectRank d' s' ≤ L.connectRank d s := by
  have hmul := Nat.mul_le_mul_right (L.depth + 2) (Nat.add_le_add hd.1 hs.1)
  have := hd.2.1
  have := hs.2.1
  unfold connectRank
  omega

end Limits

namespace Extent

variable {w w' r : Extent}

theorem Reads.mono (h : w.Reads r) (hw : w' ≤ w) : w'.Reads r :=
  ⟨Nat.le_trans hw.1 h.accesses, Nat.le_trans hw.2.1 h.depth,
    Nat.le_trans (Nat.succ_le_succ hw.2.2) h.chain⟩

theorem Casts.mono (h : w.Casts r) (hw : w' ≤ w) : w'.Casts r :=
  ⟨Nat.le_trans hw.1 h.accesses, Nat.le_trans hw.2.1 h.depth,
    Nat.le_trans (Nat.add_le_add hw.2.2 (Nat.pow_le_pow_right Nat.two_pos hw.2.1)) h.chain⟩

theorem Casts.le (h : w.Casts r) : w ≤ r := by
  have := h.chain
  have := Nat.two_pow_pos w.depth
  exact ⟨h.accesses, h.depth, by omega⟩

/-- A value that nothing stands behind, and that has one layer less, may take the place of a part. -/
theorem Reads.flat_le (h : w.Reads r) {d : Nat} (hd : d ≤ w.depth - 1) : flat d ≤ r := by
  have := h.depth
  exact Extent.flat_le (by omega)

theorem reads_part (h : 0 < w.depth) : w.Reads w.part :=
  ⟨Nat.le_refl _, by show w.depth ≤ w.depth - 1 + 1; omega, Nat.le_refl _⟩

end Extent

namespace OpKind.InGauge

variable {cx : Context} {L : Limits} {kind : OpKind} {ws ws' : List Extent} {rs : List (Extent × Option Ty)}
  {n : Nat}

theorem exists_of_getElem? (hw : List.Forall₂ (· ≤ ·) ws' ws) {i : Nat} {w' : Extent}
    (h : ws'[i]? = some w') : ∃ w, ws[i]? = some w ∧ w' ≤ w := by
  obtain ⟨hi, rfl⟩ := List.getElem?_eq_some_iff.1 h
  have hi' : i < ws.length := hw.length_eq ▸ hi
  exact ⟨ws[i], List.getElem?_eq_getElem hi', hw.get hi hi'⟩

theorem exists_of_mem (hw : List.Forall₂ (· ≤ ·) ws' ws) {w' : Extent} (h : w' ∈ ws') :
    ∃ w ∈ ws, w' ≤ w := by
  obtain ⟨i, hi⟩ := List.mem_iff_getElem?.1 h
  obtain ⟨w, hw, hle⟩ := exists_of_getElem? hw hi
  exact ⟨w, List.mem_of_getElem? hw, hle⟩

/-- Operands may give way to values of smaller extents. -/
theorem mono (h : kind.InGauge cx L ws rs n) (hw : List.Forall₂ (· ≤ ·) ws' ws) : kind.InGauge cx L ws' rs n := by
  have htail : List.Forall₂ (· ≤ ·) ws'.tail ws.tail := by
    cases hw with
    | nil => exact .nil
    | cons _ hw => exact hw
  cases kind with
  | subfield | subindex =>
    intro w' hw' r hr
    obtain ⟨w, hmem, hle⟩ := exists_of_mem hw hw'
    exact (h w hmem r hr).mono hle
  | subaccess =>
    intro w' hw'
    obtain ⟨w, hget, hle⟩ := exists_of_getElem? hw hw'
    obtain ⟨hd, hr⟩ := h w hget
    have := hle.1
    have := hle.2.1
    exact ⟨by omega, fun r hmem => ⟨(hr r hmem).1.mono hle, by have := (hr r hmem).2; omega⟩⟩
  | bitcast =>
    intro w' hw' r hr
    obtain ⟨w, hget, hle⟩ := exists_of_getElem? hw hw'
    obtain ⟨hc, hd⟩ := h w hget r hr
    have := hle.2.1
    exact ⟨hc.mono hle, by omega⟩
  | node =>
    refine fun r hr => ⟨(h r hr).1, fun w' hw' => ?_⟩
    obtain ⟨w, hget, hle⟩ := exists_of_getElem? hw hw'
    exact Nat.le_trans hle.2.1 ((h r hr).2 w hget)
  | mux =>
    refine fun r hr => ⟨(h r hr).1, fun w' hw' => ?_⟩
    obtain ⟨w, hmem, hle⟩ := exists_of_mem htail hw'
    exact Nat.le_trans hle.2.1 ((h r hr).2 w hmem)
  | multiMux =>
    refine ⟨hw.length_eq ▸ h.1, fun r hr => ⟨(h.2 r hr).1, fun w' hw' => ?_⟩⟩
    obtain ⟨w, hmem, hle⟩ := exists_of_mem htail hw'
    exact Nat.le_trans hle.2.1 ((h.2 r hr).2 w hmem)
  | connect =>
    intro d' s' hd' hs'
    obtain ⟨d, hd, hdle⟩ := exists_of_getElem? hw hd'
    obtain ⟨s, hs, hsle⟩ := exists_of_getElem? hw hs'
    exact Nat.le_trans (L.connectRank_mono hdle hsle) (h d s hd hs)
  | _ => exact h

/-- Without operands, less is demanded. -/
theorem nil (h : kind.InGauge cx L ws rs n) : kind.InGauge cx L [] rs n := by
  cases kind with
  | node | mux => exact fun r hr => ⟨(h r hr).1, by simp⟩
  | multiMux => exact ⟨Nat.zero_le _, fun r hr => ⟨(h.2 r hr).1, by simp⟩⟩
  | subfield | subindex | subaccess | bitcast | connect => simp [OpKind.InGauge]
  | _ => exact h

theorem mapDecl_iff (f : Decl → Decl) : (kind.mapDecl f).InGauge cx L ws rs n ↔ kind.InGauge cx L ws rs n := by
  cases kind with
  | mem m =>
    exact and_congr ⟨fun h => ⟨h.ports, h.fields, h.depth, h.breadth⟩, fun h => ⟨h.ports, h.fields, h.depth, h.breadth⟩⟩
      Iff.rfl
  | _ => rfl

theorem accessor {i : Nat} (hk : kind.fixedIndex? = some i) {w r : Extent} {t : Option Ty} (h : w.Reads r) :
    kind.InGauge cx L [w] [(r, t)] n := by
  cases kind with
  | subfield | subindex => simpa [OpKind.InGauge] using h
  | _ => cases hk

/-- A fixed accessor reads what its result bounds. -/
theorem reads (h : kind.InGauge cx L ws rs n) {i : Nat} (hk : kind.fixedIndex? = some i) {w : Extent}
    {r : Extent × Option Ty} (hw : w ∈ ws) (hr : r ∈ rs) : w.Reads r.1 := by
  cases kind with
  | subfield | subindex => exact h w hw r hr
  | _ => cases hk

end OpKind.InGauge

/-- The operation is within its gauge, and lowering it nests at most `n` deep. -/
def Operation.InGauge (cx : Context) (L : Limits) (extent : ValueId → Extent) (ty? : ValueId → Option Ty)
    (n : Nat) (op : Operation) : Prop :=
  op.kind.InGauge cx L (op.operands.map extent) (op.results.map fun r => (extent r, ty? r)) n

/-! ## Bodies within a gauge -/

/-- Every value of the body is within the limits, every operation within its gauge, and what a guard guards
ranks below it. -/
structure Body.Gauged (cx : Context) (L : Limits) (G : Gauge) (b : Body) : Prop where
  coherent : b.Coherent
  value : ∀ {v t}, b.ty? v = some t → L.Holds t (G.extent v)
  fits : ∀ {x op}, b.op? x = some op → op.InGauge cx L G.extent b.ty? (G.rank x)
  nested : ∀ {k blk x g opg}, b.block? k = some blk → x ∈ blk.slots → b.op? g = some opg →
    k ∈ opg.kind.blocks → G.rank x < G.rank g

/-- The gauge with extents and a rank for what is made next. -/
def Gauge.extend (G : Gauge) (b : Body) (extents : Nat → Extent) (rank : Nat) : Gauge where
  extent v := if v.index < b.values.size then G.extent v else extents (v.index - b.values.size)
  rank x := if x.index < b.ops.size then G.rank x else rank

namespace Gauge

variable {G : Gauge} {b : Body} {extents : Nat → Extent} {n : Nat}

theorem extent_old {v : ValueId} (h : v.index < b.values.size) :
    (G.extend b extents n).extent v = G.extent v := if_pos h

theorem extent_new (i : Nat) : (G.extend b extents n).extent ⟨b.values.size + i⟩ = extents i := by
  have hge : ¬b.values.size + i < b.values.size := Nat.not_lt.2 (Nat.le_add_right _ _)
  show (if b.values.size + i < b.values.size then _ else extents (b.values.size + i - b.values.size)) = _
  rw [if_neg hge, Nat.add_sub_cancel_left]

theorem rank_old {x : OpId} (h : x.index < b.ops.size) : (G.extend b extents n).rank x = G.rank x :=
  if_pos h

theorem rank_new {x : OpId} (h : b.ops.size ≤ x.index) : (G.extend b extents n).rank x = n :=
  if_neg (Nat.not_lt.2 h)

end Gauge

namespace Body.Gauged

variable {cx : Context} {L : Limits} {G : Gauge} {b b' : Body} {o x : OpId} {op : Operation} {v w : ValueId}

theorem lt_of_mem_results (h : b.Gauged cx L G) (hop : b.op? x = some op) {r : ValueId} (hr : r ∈ op.results) :
    r.index < b.values.size := by
  obtain ⟨i, hi⟩ := List.mem_iff_getElem?.1 hr
  exact isSome_value?.1 (isSome_of_origin? (h.coherent.result hop hi))

/-- A new operation within its gauge is made, in a block whose guard ranks above it. -/
theorem created (h : b.Gauged cx L G) {p : Point} {kind : OpKind} {vs : List ValueId} {tys : List Ty}
    (hc : Created b p kind vs tys o b') {extents : Nat → Extent} {n : Nat}
    (hv : ∀ i t, tys[i]? = some t → L.Holds t (extents i))
    (hf : (⟨kind, vs, (List.range tys.length).map fun j => ⟨b.values.size + j⟩, p.block, false⟩ :
      Operation).InGauge cx L (G.extend b extents n).extent b'.ty? n)
    (hn : ∀ g opg, b.op? g = some opg → p.block ∈ opg.kind.blocks → n < G.rank g) :
    b'.Gauged cx L (G.extend b extents n) where
  coherent := h.coherent.created hc
  value {v t} ht := by
    obtain ⟨y, hy, rfl⟩ := ty?_eq_some_iff.1 ht
    rcases hc.value_cases hy with ⟨y₀, hy₀, rfl⟩ | ⟨j, ty, hty, rfl, rfl⟩
    · rw [Gauge.extent_old (lt_of_value? hy₀)]
      exact h.value (ty?_eq_some_iff.2 ⟨y₀, hy₀, rfl⟩)
    · rw [Gauge.extent_new]
      exact hv j ty hty
  fits {x op} hop := by
    rcases hc.op?_cases hop with hop | ⟨rfl, rfl⟩
    · have hops : op.operands.map (G.extend b extents n).extent = op.operands.map G.extent :=
        List.map_congr_left fun v hv => Gauge.extent_old (h.coherent.operand hop hv)
      have hres : (op.results.map fun r => ((G.extend b extents n).extent r, b'.ty? r)) =
          op.results.map fun r => (G.extent r, b.ty? r) := List.map_congr_left fun r hr => by
        have hlt := h.lt_of_mem_results hop hr
        rw [Gauge.extent_old hlt, hc.ty?_old hlt]
      rw [Gauge.rank_old (lt_of_op? hop), Operation.InGauge, hops, hres]
      exact h.fits hop
    · rw [Gauge.rank_new (hc.id ▸ Nat.le_refl _)]
      exact hf
  nested {k blk x g opg} hblk hx hg hk := by
    rcases hc.block_cases hblk with ⟨blk₀, hblk₀, -, hslots⟩ | ⟨-, -, rfl⟩
    · have hg₀ : b.op? g = some opg := by
        refine (hc.op?_cases hg).resolve_right ?_
        rintro ⟨rfl, rfl⟩
        -- the blocks of a new guard are new
        have hk' : k ∈ kind.blocks := hk
        rw [hc.guards, List.mem_map] at hk'
        obtain ⟨j, -, rfl⟩ := hk'
        exact absurd (lt_of_block? hblk₀) (Nat.not_lt.2 (Nat.le_add_right _ _))
      rw [Gauge.rank_old (lt_of_op? hg₀)]
      by_cases hkp : k = p.block
      · obtain ⟨blkp, hblkp, hi⟩ := hc.place
        subst hkp
        obtain rfl := Option.some.inj (hblk₀.symm.trans hblkp)
        rw [hslots, if_pos rfl, List.mem_insertIdx hi] at hx
        rcases hx with rfl | hx
        · rw [Gauge.rank_new (hc.id ▸ Nat.le_refl _)]
          exact hn g opg hg₀ hk
        · obtain ⟨op, hop, -⟩ := h.coherent.slots hblk₀ hx
          rw [Gauge.rank_old (lt_of_op? hop)]
          exact h.nested hblk₀ hx hg₀ hk
      · rw [hslots, if_neg hkp] at hx
        obtain ⟨op, hop, -⟩ := h.coherent.slots hblk₀ hx
        rw [Gauge.rank_old (lt_of_op? hop)]
        exact h.nested hblk₀ hx hg₀ hk
    · cases hx

/-- A value may be read in place of another of at least its extent. -/
theorem replaced (h : b.Gauged cx L G) (hr : Replaced b v w b') (hne : v ≠ w) (hv : (b.value? v).isSome)
    (hw : (b.value? w).isSome) (hle : G.extent w ≤ G.extent v) : b'.Gauged cx L G where
  coherent := h.coherent.replaced hr hv hw hne
  value ht := h.value (hr.outlives.ty? _ ▸ ht)
  fits {x op'} hop' := by
    rw [hr.op?, Option.map_eq_some_iff] at hop'
    obtain ⟨op, hop, rfl⟩ := hop'
    have hfits := h.fits hop
    unfold Operation.InGauge at hfits ⊢
    rw [List.map_map, show b'.ty? = b.ty? from funext hr.outlives.ty?]
    refine hfits.mono ?_
    rw [List.forall₂_map_left_iff, List.forall₂_map_right_iff, List.forall₂_same]
    intro u _
    rw [Function.comp_apply]
    split
    next he => exact he ▸ hle
    next => exact Extent.le_refl _
  nested hblk hx hg hk := by
    rw [hr.outlives.block?] at hblk
    obtain ⟨opg, hg', hkind, -⟩ := hr.outlives.op?_some' hg
    exact h.nested hblk hx hg' (hkind ▸ hk)

/-- An operation may lose its operands. -/
theorem dropped (h : b.Gauged cx L G) {f : Bool → Bool} (hf : f true = true) (hd : Dropped b o f b') :
    b'.Gauged cx L G where
  coherent := h.coherent.dropped hf hd
  value ht := h.value ((hd.outlives hf).ty? _ ▸ ht)
  fits {x op'} hop' := by
    rw [hd.op?, Option.map_eq_some_iff] at hop'
    obtain ⟨op, hop, rfl⟩ := hop'
    have hfits := h.fits hop
    rw [show b'.ty? = b.ty? from funext (hd.outlives hf).ty?]
    split
    · exact hfits.nil
    · exact hfits
  nested hblk hx hg hk := by
    rw [(hd.outlives hf).block?] at hblk
    obtain ⟨opg, hg', hkind, -⟩ := (hd.outlives hf).op?_some' hg
    exact h.nested hblk hx hg' (hkind ▸ hk)

/-- A declaration may change. -/
theorem declared (h : b.Gauged cx L G) (o : OpId) (f : Decl → Decl) : (b.modifyDecl o f).Gauged cx L G where
  coherent := h.coherent.modifyDecl o f
  value ht := h.value ht
  fits {x op'} hop' := by
    rw [op?_modifyDecl, Option.map_eq_some_iff] at hop'
    obtain ⟨op, hop, rfl⟩ := hop'
    split
    · exact (OpKind.InGauge.mapDecl_iff f).2 (h.fits hop)
    · exact h.fits hop
  nested hblk hx hg hk := by
    obtain ⟨kind, hg', hb⟩ := op?_of_modifyDecl hg
    rw [← OpKind.blocks_eq_of_bare_eq hb] at hk
    exact h.nested hblk hx hg' hk

end Body.Gauged

end Scalarize
