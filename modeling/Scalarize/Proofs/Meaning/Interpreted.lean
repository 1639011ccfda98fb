import Scalarize.Proofs.Body.Scope
import Scalarize.Proofs.Edits.Walk
import Scalarize.Proofs.Meaning.Senses
import Scalarize.Proofs.Readiness
import Scalarize.Proofs.Typing.Rules

/-!
# Bodies with senses

While a body is lowered its values keep their senses, and new values get one when they are made.

* `Body.Active`, `Body.Owned` : the operations that count, and the values that they may read;
* `Body.Heeds` : what an active operation keeps; `Body.Straight` : destinations that are reached without a
  computed position;
* `Body.Interpreted` : senses that the active operations agree on, with the operations that are still pending;
* `Interpreted.retire`, `Interpreted.declared`, `Interpreted.created` : what keeps this.
-/

namespace Scalarize

open Body

variable {I : Interpretation} {idle : OpId → Prop}

/-! ## Operations -/

/-- The results are variables that can be driven. -/
def OpKind.holdsPlaces (kind : OpKind) : Bool := kind.role?.any (· ≠ .invalid)

/-- The meaning of operations of the kind is known. -/
def OpKind.Meant : OpKind → Prop
  | mem _ | unrealizedCast => False
  | _ => True

namespace OpKind

variable {k k' : OpKind}

theorem meant_iff_of_bare_eq (h : k.bare = k'.bare) : k.Meant ↔ k'.Meant := by
  have hb : ∀ k : OpKind, k.bare.Meant ↔ k.Meant := fun k => by cases k <;> rfl
  rw [← hb k, h, hb]

theorem role?_eq_of_bare_eq (h : k.bare = k'.bare) : k.role? = k'.role? := by
  have hb : ∀ k : OpKind, k.bare.role? = k.role? := fun k => by cases k <;> rfl
  rw [← hb k, h, hb]

theorem holdsPlaces_eq_of_bare_eq (h : k.bare = k'.bare) : k.holdsPlaces = k'.holdsPlaces := by
  unfold holdsPlaces
  rw [role?_eq_of_bare_eq h]

theorem eq_iff_of_bare_eq (h : k.bare = k'.bare) {j : OpKind} (hj : j.decl? = none) : k = j ↔ k' = j := by
  constructor
  · rintro rfl
    exact (eq_of_bare_eq h hj).symm
  · rintro rfl
    exact (eq_of_bare_eq h.symm hj).symm

theorem reach?_eq_of_bare_eq (h : k.bare = k'.bare) (ins : List Reading) : k.reach? ins = k'.reach? ins := by
  have hb : ∀ k : OpKind, k.bare.reach? ins = k.reach? ins := fun k => by cases k <;> rfl
  rw [← hb k, h, hb]

theorem value?_eq_of_bare_eq (h : k.bare = k'.bare) (out : Ty) (ins : List Reading) :
    k.value? I out ins = k'.value? I out ins := by
  have hb : ∀ k : OpKind, k.bare.value? I out ins = k.value? I out ins := fun k => by
    cases k with
    | node _ => rcases ins with _ | ⟨x, _ | ⟨y, ins⟩⟩ <;> rfl
    | _ => rfl
  rw [← hb k, h, hb]

theorem isAccessor_of_reach? {ins : List Reading} {i : Nat} (h : k.reach? ins = some i) : k.isAccessor = true := by
  cases k <;> first | rfl | simp [reach?] at h

end OpKind

namespace Body

/-- The operation stands in the body, and it counts. -/
structure Active (idle : OpId → Prop) (b : Body) (x : OpId) (op : Operation) : Prop where
  op? : b.op? x = some op
  erased : op.erased = false
  busy : ¬idle x

/-- The value is an argument, or an active operation makes it. -/
def Owned (idle : OpId → Prop) (b : Body) (v : ValueId) : Prop :=
  b.origin? v = some .argument ∨ ∃ x i op, b.origin? v = some (.result x i) ∧ b.Active idle x op

/-- A ground value that is cast from an aggregate. -/
def GroundCast (idle : OpId → Prop) (b : Body) (v : ValueId) : Prop :=
  ∃ x i op u g t, b.origin? v = some (.result x i) ∧ b.Active idle x op ∧ op.kind = .bitcast ∧ op.operands = [u] ∧
    b.ty? v = some (.ground g) ∧ b.ty? u = some t ∧ t.isGround = false

/-- What an operation keeps: its types go together, and its results have the bits that its operands give them. -/
structure Heeds (I : Interpretation) (b : Body) (S : ValueId → Sense) (op : Operation) : Prop where
  typed : ∃ ins outs, b.Types op.operands ins ∧ b.Types op.results outs ∧ op.kind.Fits ins outs ∧
    op.kind.Shaped True ins outs
  meant : op.kind.Meant
  bits : ∀ {r s}, op.results[0]? = some r → b.sense I S op.kind op.operands (b.tyOf r) = some s →
    (S r).bits = s.bits
  placeless : op.kind.isAccessor = false → op.kind.holdsPlaces = false → ∀ r ∈ op.results, (S r).place = none
  reaches : b.ReachesWithin S op.kind op.operands
  short : op.kind = .subaccess → ∀ {v e n}, v ∈ op.operands → b.ty? v = some (.vector e n) → n < UInt64.size
  exact : op.kind = .invalid → ∀ {r t}, r ∈ op.results → b.ty? r = some t → t.Exact (S r).bits

/-- Values with the operations on the way to them: accessors at fixed positions, whose places are those of the parts
that they reach, down to values that are no casts of aggregates. -/
structure Direct (idle : OpId → Prop) (b : Body) (S : ValueId → Sense) (F : ValueId → Prop) : Prop where
  access : ∀ {u x i op}, F u → b.origin? u = some (.result x i) → b.Active idle x op → op.kind.isAccessor →
    ∃ v j, op.operands[0]? = some v ∧ F v ∧ op.kind.reach? (op.operands.map (b.reading S)) = some j ∧
      (S u).place = ((S v).part j).place ∧
      (op.kind = .subaccess → ∃ y n, op.operands[1]? = some y ∧ b.Literal y n)
  root : ∀ {u}, F u → ¬b.GroundCast idle u
  active : ∀ {u x i}, F u → b.origin? u = some (.result x i) → ∃ op, b.Active idle x op

/-- The value is reached without a computed position. -/
def Straight (idle : OpId → Prop) (b : Body) (S : ValueId → Sense) (v : ValueId) : Prop := ∃ F, F v ∧ b.Direct idle S F

/-- What a pending operation keeps: it reads only what stands in front of it, and its result has the sense that its
operands give it, its place included. -/
structure Expects (I : Interpretation) (idle : OpId → Prop) (b : Body) (S : ValueId → Sense) (Q : List OpId)
    (op : Operation) : Prop where
  reads : ∀ v ∈ op.operands, b.MadeBy Q v
  sense : ∀ {r s}, op.results[0]? = some r → b.sense I S op.kind op.operands (b.tyOf r) = some s → S r = s
  dest : ∀ {strict v}, op.kind = .connect strict → op.operands[0]? = some v → ¬b.GroundCast idle v

/-- What is left of a connection that was reached: its destination is ground, and no position on the way to it must be
computed. -/
def Landed (idle : OpId → Prop) (b : Body) (S : ValueId → Sense) (op : Operation) : Prop :=
  ∀ strict, op.kind = .connect strict →
    ∃ d s g, op.operands = [d, s] ∧ b.ty? d = some (.ground g) ∧ b.Straight idle S d

/-- The active operations agree with the senses. Those in `P` are pending, in the order in which they stand. -/
structure Interpreted (I : Interpretation) (idle : OpId → Prop) (b : Body) (P : List OpId) (S : ValueId → Sense) :
    Prop where
  coherent : b.Coherent
  present : ∀ {x}, x ∈ P ∨ idle x → (b.op? x).isSome
  proper : ∀ {v t}, b.ty? v = some t → t.Accepts (S v).bits
  walked : ∀ {x op}, b.Active idle x op → b.Walked x
  heeds : ∀ {x op}, b.Active idle x op → b.Heeds I S op
  scope : ∀ {x op v}, b.Active idle x op → v ∈ op.operands → b.Owned idle v
  pending : ∀ {Q x L op}, P = Q ++ x :: L → b.Active idle x op → b.Expects I idle S Q op
  landed : ∀ {x op}, b.Active idle x op → x ∉ P → b.Landed idle S op

/-! ## Senses of operations -/

variable {b b' : Body} {S S' : ValueId → Sense} {kind kind' : OpKind} {vs vs' : List ValueId} {out : Ty}
  {x o : OpId} {v w : ValueId} {op op' : Operation} {P Q : List OpId}

theorem tyOf_eq {t : Ty} (h : b.ty? v = some t) : b.tyOf v = t := by
  unfold tyOf
  rw [h]
  rfl

theorem tyOf_congr (h : b'.ty? w = b.ty? v) : b'.tyOf w = b.tyOf v := congrArg (Option.getD · default) h

theorem reading_eq {t : Ty} (h : b.ty? v = some t) : b.reading S v = (t, (S v).bits) := by
  unfold reading
  rw [tyOf_eq h]

theorem reading_congr (ht : b'.ty? w = b.ty? v) (hS : (S' w).bits = (S v).bits) : b'.reading S' w = b.reading S v := by
  unfold reading
  rw [tyOf_congr ht, hS]

/-- Bits depend on the types and the bits of the operands only. -/
theorem map_bits_sense (hk : kind'.bare = kind.bare) (h : vs'.map (b'.reading S') = vs.map (b.reading S)) (out : Ty) :
    (b'.sense I S' kind' vs' out).map (·.bits) = (b.sense I S kind vs out).map (·.bits) := by
  unfold sense
  rw [h, OpKind.reach?_eq_of_bare_eq hk, OpKind.value?_eq_of_bare_eq hk]
  split
  next i _ =>
    cases vs with
    | nil =>
      obtain rfl : vs' = [] := by simpa using h
      rfl
    | cons v vs =>
      obtain ⟨w, ws, rfl, hw, -⟩ := List.map_eq_cons_iff.1 h
      have : (S' w).bits = (S v).bits := congrArg Prod.snd hw
      simp [Sense.part, this]
  next => rfl

/-- The sense of a result depends on the types and the senses of the operands only. -/
theorem sense_congr (hk : kind'.bare = kind.bare) (h : ∀ v ∈ vs, b'.ty? v = b.ty? v ∧ S' v = S v) (out : Ty) :
    b'.sense I S' kind' vs out = b.sense I S kind vs out := by
  have hmap : vs.map (b'.reading S') = vs.map (b.reading S) :=
    List.map_congr_left fun v hv => reading_congr (h v hv).1 (congrArg _ (h v hv).2)
  unfold sense
  rw [hmap, OpKind.reach?_eq_of_bare_eq hk, OpKind.value?_eq_of_bare_eq hk]
  split
  next i _ =>
    cases vs with
    | nil => rfl
    | cons v vs => simp [(h v List.mem_cons_self).2]
  next => rfl

namespace Heeds

/-- An operation that reads values of the same types and bits. -/
theorem transfer (h : b.Heeds I S op) (ρ : ValueId → ValueId) (hk : op'.kind.bare = op.kind.bare)
    (hr : op'.results = op.results) (hops : op'.operands = op.operands.map ρ)
    (hvs : ∀ v ∈ op.operands, b'.ty? (ρ v) = b.ty? v ∧ (S' (ρ v)).bits = (S v).bits)
    (hrs : ∀ r ∈ op.results, b'.ty? r = b.ty? r ∧ S' r = S r) : b'.Heeds I S' op' where
  typed := by
    obtain ⟨ins, outs, hins, houts, hfits, hshaped⟩ := h.typed
    refine ⟨ins, outs, ?_, ?_, (OpKind.fits_iff_of_bare_eq hk).2 hfits, (OpKind.shaped_iff_of_bare_eq hk).2 hshaped⟩
    · rw [hops]
      refine List.forall₂_map_left_iff.2 (List.forall₂_iff_zip.2 ⟨hins.length_eq, fun {v t} hvt => ?_⟩)
      rw [(hvs v (List.of_mem_zip hvt).1).1]
      exact (List.forall₂_iff_zip.1 hins).2 hvt
    · rw [hr]
      exact houts.mono fun r hr => (hrs r hr).1
  meant := (OpKind.meant_iff_of_bare_eq hk).2 h.meant
  bits {r s} hr' hs := by
    rw [hr] at hr'
    have hmem := List.mem_of_getElem? hr'
    have hmap : op'.operands.map (b'.reading S') = op.operands.map (b.reading S) := by
      rw [hops, List.map_map]
      exact List.map_congr_left fun v hv => reading_congr (hvs v hv).1 (hvs v hv).2
    have hbits := map_bits_sense (I := I) hk hmap (b.tyOf r)
    rw [tyOf_congr (hrs r hmem).1] at hs
    rw [hs, Option.map_some, eq_comm, Option.map_eq_some_iff] at hbits
    obtain ⟨s₀, hs₀, hbits⟩ := hbits
    rw [(hrs r hmem).2, h.bits hr' hs₀, hbits]
  placeless ha hp r hr' := by
    rw [hr] at hr'
    rw [(hrs r hr').2]
    exact h.placeless (OpKind.isAccessor_eq_of_bare_eq hk ▸ ha) (OpKind.holdsPlaces_eq_of_bare_eq hk ▸ hp) r hr'
  reaches hsub := by
    obtain ⟨v, x, e, n, i, hvx, hv, hx, hi⟩ := h.reaches ((OpKind.eq_iff_of_bare_eq hk rfl).1 hsub)
    have hv' := hvs v (by simp [hvx])
    have hx' := hvs x (by simp [hvx])
    exact ⟨ρ v, ρ x, e, n, i, by rw [hops, hvx]; rfl, by rw [hv'.1, hv], by rw [reading_congr hx'.1 hx'.2, hx], hi⟩
  short hsub {v e n} hv hty := by
    rw [hops] at hv
    obtain ⟨u, hu, rfl⟩ := List.mem_map.1 hv
    rw [(hvs u hu).1] at hty
    exact h.short ((OpKind.eq_iff_of_bare_eq hk rfl).1 hsub) hu hty
  exact hinv {r t} hr' hty := by
    rw [hr] at hr'
    rw [(hrs r hr').1] at hty
    rw [(hrs r hr').2]
    exact h.exact ((OpKind.eq_iff_of_bare_eq hk rfl).1 hinv) hr' hty

end Heeds

/-! ## Bodies that grow -/

section Extends

variable (he : b.Extends b') (hS : ∀ v : ValueId, v.index < b.values.size → S' v = S v)

include he in
theorem Active.extends (h : b.Active idle x op) : ∃ op', b'.Active idle x op' ∧ op'.kind.bare = op.kind.bare ∧
    op'.operands = op.operands ∧ op'.results = op.results := by
  obtain ⟨op', hop', hk, hvs, hrs, -, her⟩ := he.op? h.op?
  exact ⟨op', ⟨hop', her.trans h.erased, h.busy⟩, hk, hvs, hrs⟩

include he in
/-- What was there before was active before. -/
theorem Active.of_extends (h : b'.Active idle x op') (hx : (b.op? x).isSome) : ∃ op, b.Active idle x op ∧
    op'.kind.bare = op.kind.bare ∧ op'.operands = op.operands ∧ op'.results = op.results := by
  obtain ⟨op, hop⟩ := Option.isSome_iff_exists.1 hx
  obtain ⟨op₁, hop₁, hk, hvs, hrs, -, her⟩ := he.op? hop
  obtain rfl := Option.some.inj (h.op?.symm.trans hop₁)
  exact ⟨op, ⟨hop, her.symm.trans h.erased, h.busy⟩, hk, hvs, hrs⟩

include he in
theorem Owned.extends (h : b.Owned idle v) : b'.Owned idle v := by
  rcases h with h | ⟨x, i, op, h, hx⟩
  · exact .inl (he.origin?_some h)
  · obtain ⟨op', hx', -⟩ := hx.extends he
    exact .inr ⟨x, i, op', he.origin?_some h, hx'⟩

include he in
theorem MadeBy.extends (h : b.MadeBy Q v) : b'.MadeBy Q v := by
  rcases h with h | ⟨d, hd, i, h⟩
  · exact .inl (he.origin?_some h)
  · exact .inr ⟨d, hd, i, he.origin?_some h⟩

theorem Owned.lt (h : b.Owned idle v) : v.index < b.values.size := by
  rcases h with h | ⟨x, i, op, h, hx⟩ <;> exact isSome_value?.1 (isSome_of_origin? h)

include he in
/-- Old values are no other casts than before. -/
theorem GroundCast.of_extends (hb : b.Coherent) (h : b'.GroundCast idle v) (hv : v.index < b.values.size) :
    b.GroundCast idle v := by
  obtain ⟨x, i, op', u, g, t, horigin, hact', hk, hvs, hty, hu, ht⟩ := h
  rw [he.origin? hv] at horigin
  obtain ⟨op₀, hop₀, -⟩ := hb.origin horigin
  obtain ⟨op, hact, hbare, hvs₁, -⟩ := hact'.of_extends he (by rw [hop₀]; rfl)
  rw [hvs₁] at hvs
  have hu' := hb.operand hact.op? (v := u) (by simp [hvs])
  exact ⟨x, i, op, u, g, t, horigin, hact, (OpKind.eq_iff_of_bare_eq hbare rfl).1 hk, hvs, by rwa [← he.ty? hv],
    by rwa [← he.ty? hu'], ht⟩

include he in
theorem Literal.extends {n : Nat} (h : b.Literal v n) : b'.Literal v n := by
  obtain ⟨d, i, op, hv, hop, hk⟩ := h
  obtain ⟨op', hop', hbare, -⟩ := he.op? hop
  exact ⟨d, i, op', he.origin?_some hv, hop', (OpKind.eq_iff_of_bare_eq hbare rfl).2 hk⟩

include he in
theorem Literal.of_extends {n : Nat} (hb : b.Coherent) (h : b'.Literal v n) (hv : v.index < b.values.size) :
    b.Literal v n := by
  obtain ⟨d, i, op', horigin, hop', hk⟩ := h
  rw [he.origin? hv] at horigin
  obtain ⟨op, hop, -⟩ := hb.origin horigin
  obtain ⟨op₁, hop₁, hbare, -⟩ := he.op? hop
  obtain rfl := Option.some.inj (hop'.symm.trans hop₁)
  exact ⟨d, i, op, horigin, hop, (OpKind.eq_iff_of_bare_eq hbare rfl).1 hk⟩

include he hS in
theorem Straight.extends (hb : b.Coherent) (h : b.Straight idle S v) (hv : v.index < b.values.size) :
    b'.Straight idle S' v := by
  obtain ⟨F, hF, hd⟩ := h
  refine ⟨fun u => F u ∧ u.index < b.values.size, ⟨hF, hv⟩, ⟨fun {u x i op'} hu horigin hx hacc => ?_,
    fun hu hcast => hd.root hu.1 (hcast.of_extends he hb hu.2), fun {u x i} hu horigin => ?_⟩⟩
  · rw [he.origin? hu.2] at horigin
    obtain ⟨op₀, hop₀, -⟩ := hb.origin horigin
    obtain ⟨op, hact, hk, hvs, -⟩ := hx.of_extends he (by rw [hop₀]; rfl)
    obtain ⟨w, j, hw, hFw, hj, hplace, hlit⟩ := hd.access hu.1 horigin hact
      (by rwa [← OpKind.isAccessor_eq_of_bare_eq hk])
    have hlt : ∀ y ∈ op.operands, y.index < b.values.size := fun y hy => hb.operand hact.op? hy
    have hread : op.operands.map (b'.reading S') = op.operands.map (b.reading S) :=
      List.map_congr_left fun y hy => reading_congr (he.ty? (hlt y hy)) (congrArg _ (hS y (hlt y hy)))
    have hwlt := hlt w (List.mem_of_getElem? hw)
    refine ⟨w, j, by rw [hvs, hw], ⟨hFw, hwlt⟩, ?_, ?_, fun hsub => ?_⟩
    · rw [hvs, hread, OpKind.reach?_eq_of_bare_eq hk, hj]
    · rw [hS u hu.2, hS w hwlt, hplace]
    · obtain ⟨y, n, hy, hn⟩ := hlit ((OpKind.eq_iff_of_bare_eq hk rfl).1 hsub)
      exact ⟨y, n, by rw [hvs, hy], hn.extends he⟩
  · rw [he.origin? hu.2] at horigin
    obtain ⟨op, hact⟩ := hd.active hu.1 horigin
    obtain ⟨op', hact', -⟩ := hact.extends he
    exact ⟨op', hact'⟩

include he hS in
theorem Heeds.extends (hb : b.Coherent) (h : b.Heeds I S op) (hop : b.op? x = some op)
    (hk : op'.kind.bare = op.kind.bare) (hvs : op'.operands = op.operands) (hrs : op'.results = op.results) :
    b'.Heeds I S' op' := by
  have hlt : ∀ r ∈ op.results, r.index < b.values.size := fun r hr => by
    obtain ⟨i, hi⟩ := List.mem_iff_getElem?.1 hr
    exact isSome_value?.1 (isSome_of_origin? (hb.result hop hi))
  refine h.transfer id hk hrs (by rw [hvs, List.map_id]) (fun v hv => ?_) fun r hr => ⟨he.ty? (hlt r hr), hS r (hlt r hr)⟩
  have := hb.operand hop hv
  exact ⟨he.ty? this, congrArg _ (hS v this)⟩

include he hS in
theorem Expects.extends (hb : b.Coherent) (h : b.Expects I idle S Q op) (hop : b.op? x = some op)
    (hk : op'.kind.bare = op.kind.bare) (hvs : op'.operands = op.operands) (hrs : op'.results = op.results) :
    b'.Expects I idle S' Q op' where
  reads v hv := (h.reads v (hvs ▸ hv)).extends he
  sense {r s} hr hs := by
    rw [hrs] at hr
    have hlt : r.index < b.values.size := isSome_value?.1 (isSome_of_origin? (hb.result hop hr))
    rw [hvs, tyOf_congr (he.ty? hlt), sense_congr hk fun v hv => ⟨he.ty? (hb.operand hop hv), hS v (hb.operand hop hv)⟩] at hs
    rw [hS r hlt]
    exact h.sense hr hs
  dest hkind hv hcast := by
    rw [hvs] at hv
    exact h.dest ((OpKind.eq_iff_of_bare_eq hk rfl).1 hkind) hv (hcast.of_extends he hb (hb.operand hop (List.mem_of_getElem? hv)))

include he hS in
theorem Landed.extends (hb : b.Coherent) (h : b.Landed idle S op) (hop : b.op? x = some op)
    (hk : op'.kind.bare = op.kind.bare) (hvs : op'.operands = op.operands) : b'.Landed idle S' op' := by
  intro strict hkind
  obtain ⟨d, s, g, hds, hd, hstraight⟩ := h strict ((OpKind.eq_iff_of_bare_eq hk rfl).1 hkind)
  have hlt := hb.operand hop (v := d) (by simp [hds])
  exact ⟨d, s, g, hvs.trans hds, by rw [he.ty? hlt, hd], hstraight.extends he hS hb hlt⟩

end Extends

/-- The value is an argument, or an operation makes it that is no accessor; it is no cast of an aggregate. -/
def Rooted (idle : OpId → Prop) (b : Body) (v : ValueId) : Prop :=
  ¬b.GroundCast idle v ∧ (b.origin? v = some .argument ∨
    ∃ x i op, b.origin? v = some (.result x i) ∧ b.Active idle x op ∧ op.kind.isAccessor = false)

theorem Rooted.owned (h : b.Rooted idle v) : b.Owned idle v :=
  h.2.imp_right fun ⟨x, i, op, horigin, hact, _⟩ => ⟨x, i, op, horigin, hact⟩

/-- No accessor makes the value. -/
theorem Rooted.not_accessor (h : b.Rooted idle v) {i : Nat} (horigin : b.origin? v = some (.result x i))
    (hop : b.op? x = some op) : op.kind.isAccessor = false := by
  rcases h.2 with harg | ⟨x', i', op', horigin', hact, hacc⟩
  · rw [harg] at horigin
    cases horigin
  · obtain ⟨rfl, rfl⟩ : x = x' ∧ i = i' := by simpa using horigin.symm.trans horigin'
    rwa [Option.some.inj (hop.symm.trans hact.op?)]

theorem Rooted.extends (h : b.Rooted idle v) (he : b.Extends b') (hb : b.Coherent) : b'.Rooted idle v := by
  refine ⟨fun hcast => h.1 (hcast.of_extends he hb h.owned.lt), ?_⟩
  rcases h.2 with harg | ⟨x, i, op, horigin, hact, hacc⟩
  · exact .inl (he.origin?_some harg)
  · obtain ⟨op', hact', hk, -⟩ := hact.extends he
    exact .inr ⟨x, i, op', he.origin?_some horigin, hact', (OpKind.isAccessor_eq_of_bare_eq hk).trans hacc⟩

/-- The value itself is all of the way to it. -/
theorem Rooted.straight (h : b.Rooted idle v) : b.Straight idle S v := by
  refine ⟨(· = v), rfl, ?_, ?_, ?_⟩
  · rintro u x i op rfl horigin hact hacc
    rw [h.not_accessor horigin hact.op?] at hacc
    cases hacc
  · rintro u rfl
    exact h.1
  · rintro u x i rfl horigin
    rcases h.owned with harg | ⟨x', i', op, horigin', hact⟩
    · rw [harg] at horigin
      cases horigin
    · obtain ⟨rfl, rfl⟩ : x = x' ∧ i = i' := by simpa using horigin.symm.trans horigin'
      exact ⟨op, hact⟩

/-! ## Pending operations -/

theorem append_eq_append_cons {α : Type} {P N Q L : List α} {x : α} (h : P ++ N = Q ++ x :: L) :
    (∃ L', P = Q ++ x :: L') ∨ ∃ Q', Q = P ++ Q' ∧ N = Q' ++ x :: L := by
  rcases List.append_eq_append_iff.1 h with ⟨Q', rfl, hN⟩ | ⟨L', rfl, hL⟩
  · exact .inr ⟨Q', rfl, hN⟩
  · cases L' with
    | nil => exact .inr ⟨[], by simp, by simpa using hL.symm⟩
    | cons y L' =>
      obtain ⟨rfl, -⟩ := List.cons.inj hL
      exact .inl ⟨L', rfl⟩

/-- Operations at the end are no longer pending; the connections among them have been taken care of. -/
theorem Interpreted.retire {N : List OpId} (h : b.Interpreted I idle (P ++ N) S)
    (hN : ∀ {x op}, x ∈ N → b.Active idle x op → b.Landed idle S op) : b.Interpreted I idle P S where
  coherent := h.coherent
  present hx := h.present (hx.imp_left (List.mem_append_left N))
  proper := h.proper
  walked := h.walked
  heeds := h.heeds
  scope := h.scope
  pending hP hx := h.pending (by rw [hP, List.append_assoc]; rfl) hx
  landed {x op} hx hP := by
    by_cases hmem : x ∈ N
    · exact hN hmem hx
    · exact h.landed hx (by simp [hP, hmem])

/-- What is pending is in front. -/
theorem Interpreted.expects (h : b.Interpreted I idle P S) (hx : x ∈ P) (hact : b.Active idle x op) :
    b.Expects I idle S P op := by
  obtain ⟨Q, L, rfl⟩ := List.append_of_mem hx
  have := h.pending rfl hact
  exact ⟨fun v hv => (this.reads v hv).mono (List.subset_append_left _ _), this.sense, this.dest⟩

/-! ## New operations -/

/-- Operations that stand are walked as long as guards stay. -/
theorem Walked.keeps (h : b.Walked x) (hs : b'.stands x) (hslots : ∀ {k x}, x ∈ b.slotsOf k → x ∈ b'.slotsOf k)
    (hguards : ∀ {g k}, b.stands g → k ∈ b.guardedBlocks g → b'.stands g ∧ k ∈ b'.guardedBlocks g) : b'.Walked x := by
  induction h with
  | entry hx _ => exact .entry (hslots hx) hs
  | @inner g x hg hx _ ih =>
    obtain ⟨k, hk, hx⟩ := mem_inner_iff.1 hx
    obtain ⟨hg', hk'⟩ := hguards hg.stands hk
    exact .inner (ih hg') (mem_inner_iff.2 ⟨k, hk', hslots hx⟩) hs

theorem Active.stands (h : b.Active idle x op) : b.stands x := by
  rw [stands_eq, h.op?]
  simp [h.erased]

section Created

variable {p : Point} {tys : List Ty} {k : BlockId}

theorem Created.walked (hc : Created b p kind vs tys o b') (h : b.Walked x) : b'.Walked x :=
  h.keeps (hc.stands_old h.stands) (fun hx => (hc.slotsOf_sublist _).subset hx)
    fun hg hk => ⟨hc.stands_old hg, hc.guardedBlocks_old hk⟩

theorem Created.exposed (hc : Created b p kind vs tys o b') (h : b.Exposed k) : b'.Exposed k := by
  rcases h with rfl | ⟨g, hg, hk⟩
  · exact .inl rfl
  · exact .inr ⟨g, hc.walked hg, hc.guardedBlocks_old hk⟩

theorem Created.walked_self (hc : Created b p kind vs tys o b') (h : b.Exposed p.block) : b'.Walked o := by
  obtain ⟨A, B, -, -, hs⟩ := hc.slotsOf_place
  exact (hc.exposed h).walked (by simp [hs]) hc.stands_self

/-- Values get their senses when they are made. -/
def extend (b : Body) (S : ValueId → Sense) (σ : Nat → Sense) (v : ValueId) : Sense :=
  if v.index < b.values.size then S v else σ (v.index - b.values.size)

theorem extend_old {σ : Nat → Sense} (h : v.index < b.values.size) : b.extend S σ v = S v := if_pos h

theorem extend_new (b : Body) (S : ValueId → Sense) (σ : Nat → Sense) (j : Nat) :
    b.extend S σ ⟨b.values.size + j⟩ = σ j := by
  simp [extend]

/-- An operation may be made, with results that have the senses `σ`. -/
structure Admits (I : Interpretation) (idle : OpId → Prop) (b : Body) (P : List OpId) (S : ValueId → Sense)
    (kind : OpKind) (vs : List ValueId) (tys : List Ty) (σ : Nat → Sense) : Prop where
  typed : ∃ ins, b.Types vs ins ∧ kind.Fits ins tys ∧ kind.Shaped True ins tys
  meant : kind.Meant
  reads : ∀ v ∈ vs, b.MadeBy P v ∧ b.Owned idle v
  proper : ∀ {j : Nat} {t : Ty}, tys[j]? = some t → t.Accepts (σ j).bits
  sense : ∀ {t s}, tys[0]? = some t → b.sense I S kind vs t = some s → σ 0 = s
  placeless : kind.isAccessor = false → kind.holdsPlaces = false → ∀ j, (σ j).place = none
  reaches : b.ReachesWithin S kind vs
  short : kind = .subaccess → ∀ {v e n}, v ∈ vs → b.ty? v = some (.vector e n) → n < UInt64.size
  exact : kind = .invalid → ∀ {j : Nat} {t : Ty}, tys[j]? = some t → t.Exact (σ j).bits
  dest : ∀ {strict v}, kind = .connect strict → vs[0]? = some v → ¬b.GroundCast idle v

/-- A new operation is pending, behind the others. -/
theorem Interpreted.created (h : b.Interpreted I idle P S) (hc : Created b p kind vs tys o b') (hp : b.Exposed p.block)
    {σ : Nat → Sense} (ha : b.Admits I idle P S kind vs tys σ) :
    b'.Interpreted I idle (P ++ [o]) (b.extend S σ) := by
  have he := hc.extended
  have hS : ∀ v : ValueId, v.index < b.values.size → b.extend S σ v = S v := fun v hv => extend_old hv
  have hb' := h.coherent.created hc
  -- the new operation
  have hself := hc.op?_self
  have hnew : ∀ {op}, b'.op? o = some op → op = _ := fun hop => Option.some.inj (hop.symm.trans hself)
  have hres : ∀ {i r}, ((List.range tys.length).map fun j => (⟨b.values.size + j⟩ : ValueId))[i]? = some r →
      i < tys.length ∧ r = ⟨b.values.size + i⟩ := fun {i r} hr => by
    rw [List.getElem?_map, Option.map_eq_some_iff] at hr
    obtain ⟨j, hj, rfl⟩ := hr
    obtain ⟨hlt, rfl⟩ := List.getElem?_eq_some_iff.1 hj
    exact ⟨by simpa using hlt, by simp⟩
  obtain ⟨ins, hins, hfits, hshaped⟩ := ha.typed
  have hvs : ∀ v ∈ vs, b'.ty? v = b.ty? v ∧ b.extend S σ v = S v := fun v hv =>
    ⟨he.ty? (hc.operands_lt v hv), hS v (hc.operands_lt v hv)⟩
  have hread : vs.map (b'.reading (b.extend S σ)) = vs.map (b.reading S) :=
    List.map_congr_left fun v hv => reading_congr (hvs v hv).1 (congrArg _ (hvs v hv).2)
  have hsense : ∀ {r s}, ((List.range tys.length).map fun j => (⟨b.values.size + j⟩ : ValueId))[0]? = some r →
      b'.sense I (b.extend S σ) kind vs (b'.tyOf r) = some s → b.extend S σ r = s := fun {r s} hr hs => by
    obtain ⟨hlt, rfl⟩ := hres hr
    rw [sense_congr rfl hvs, tyOf_eq (t := tys[0]) (by rw [hc.ty?_new, List.getElem?_eq_getElem hlt])] at hs
    rw [extend_new]
    exact ha.sense (List.getElem?_eq_getElem hlt) hs
  have hold : ∀ {x op'}, b'.Active idle x op' → x ≠ o → ∃ op, b.Active idle x op ∧ op'.kind.bare = op.kind.bare ∧
      op'.operands = op.operands ∧ op'.results = op.results := fun {x op'} hx hne => by
    refine hx.of_extends he ?_
    rcases hc.op?_cases hx.op? with hop | ⟨rfl, -⟩
    · rw [hop]; rfl
    · exact absurd rfl hne
  have hoP : o ∉ P := fun hmem => by
    have := h.present (.inl hmem)
    rw [hc.fresh] at this
    cases this
  refine
    { coherent := hb', present := fun {x} hx => ?_, proper := fun {v t} hv => ?_, walked := fun {x op'} hx => ?_
      heeds := fun {x op'} hx => ?_, scope := fun {x op' v} hx hv => ?_, pending := fun {Q x L op'} hP hx => ?_
      landed := fun {x op'} hx hP => ?_ }
  · rw [hc.op?]
    split
    next => rfl
    next hne =>
      refine h.present (hx.imp_left fun hx => ?_)
      exact (List.mem_append.1 hx).resolve_right fun hx => hne (List.mem_singleton.1 hx)
  · by_cases hlt : v.index < b.values.size
    · rw [hS v hlt]
      rw [he.ty? hlt] at hv
      exact h.proper hv
    · obtain ⟨j, rfl⟩ : ∃ j, v = ⟨b.values.size + j⟩ := by
        obtain ⟨i⟩ := v
        exact ⟨i - b.values.size, by simp only [ValueId.mk.injEq] at hlt ⊢; omega⟩
      rw [extend_new]
      rw [hc.ty?_new] at hv
      exact ha.proper hv
  · by_cases hne : x = o
    · exact hne ▸ hc.walked_self hp
    · obtain ⟨op, hact, -⟩ := hold hx hne
      exact hc.walked (h.walked hact)
  · by_cases hne : x = o
    · subst hne
      rw [hnew hx.op?]
      refine ⟨⟨ins, tys, he.types hins, hc.types_results, hfits, hshaped⟩, ha.meant,
        fun hr hs => congrArg _ (hsense hr hs), fun hacc hplace r hr => ?_, fun hsub => ?_, fun hsub {v e n} hv hty => ?_,
        fun hinv {r t} hr hty => ?_⟩
      · obtain ⟨i, hi⟩ := List.mem_iff_getElem?.1 hr
        obtain ⟨-, rfl⟩ := hres hi
        rw [extend_new]
        exact ha.placeless hacc hplace i
      · obtain ⟨v, x, e, n, i, rfl, hv, hx, hi⟩ := ha.reaches hsub
        have hv' := hvs v (by simp)
        have hx' := hvs x (by simp)
        exact ⟨v, x, e, n, i, rfl, by rw [hv'.1, hv], by rw [reading_congr hx'.1 (congrArg _ hx'.2), hx], hi⟩
      · rw [(hvs v hv).1] at hty
        exact ha.short hsub hv hty
      · obtain ⟨i, hi⟩ := List.mem_iff_getElem?.1 hr
        obtain ⟨-, rfl⟩ := hres hi
        rw [hc.ty?_new] at hty
        rw [extend_new]
        exact ha.exact hinv hty
    · obtain ⟨op, hact, hk, hvs, hrs⟩ := hold hx hne
      exact (h.heeds hact).extends he hS h.coherent hact.op? hk hvs hrs
  · by_cases hne : x = o
    · subst hne
      rw [hnew hx.op?] at hv
      exact (ha.reads v hv).2.extends he
    · obtain ⟨op, hact, -, hvs, -⟩ := hold hx hne
      exact (h.scope hact (hvs ▸ hv)).extends he
  · rcases append_eq_append_cons hP with ⟨L', rfl⟩ | ⟨Q', rfl, hN⟩
    · have hne : x ≠ o := fun he => hoP (he ▸ List.mem_append_right _ List.mem_cons_self)
      obtain ⟨op, hact, hk, hvs, hrs⟩ := hold hx hne
      exact (h.pending rfl hact).extends he hS h.coherent hact.op? hk hvs hrs
    · obtain ⟨rfl, rfl⟩ : Q' = [] ∧ o = x := by
        cases Q' with
        | nil => exact ⟨rfl, (List.cons.inj hN).1⟩
        | cons y Q' => simp at hN
      rw [hnew hx.op?, List.append_nil]
      refine ⟨fun v hv => (ha.reads v hv).1.extends he, hsense, fun hkind hv hcast => ?_⟩
      exact ha.dest hkind hv (hcast.of_extends he h.coherent (hc.operands_lt _ (List.mem_of_getElem? hv)))
  · have hne : x ≠ o := fun he => hP (by simp [he])
    obtain ⟨op, hact, hk, hvs, -⟩ := hold hx hne
    exact (h.landed hact fun hx => hP (List.mem_append_left _ hx)).extends he hS h.coherent hact.op? hk hvs

/-- Declarations do not matter. -/
theorem Interpreted.declared (h : b.Interpreted I idle P S) (o : OpId) (f : Decl → Decl) :
    (b.modifyDecl o f).Interpreted I idle P S := by
  have he := Extends.modifyDecl b o f
  have hS : ∀ v : ValueId, v.index < b.values.size → S v = S v := fun _ _ => rfl
  have hsome : ∀ x, ((b.modifyDecl o f).op? x).isSome = (b.op? x).isSome := fun x => by
    rw [op?_modifyDecl, Option.isSome_map]
  have hold : ∀ {x op'}, (b.modifyDecl o f).Active idle x op' → ∃ op, b.Active idle x op ∧ op'.kind.bare = op.kind.bare ∧
      op'.operands = op.operands ∧ op'.results = op.results := fun {x op'} hx =>
    hx.of_extends he (by rw [← hsome, hx.op?]; rfl)
  refine
    { coherent := h.coherent.modifyDecl o f, present := fun {x} hx => ?_, proper := h.proper
      walked := fun {x op'} hx => ?_, heeds := fun {x op'} hx => ?_, scope := fun {x op' v} hx hv => ?_
      pending := fun {Q x L op'} hP hx => ?_, landed := fun {x op'} hx hP => ?_ }
  · rw [hsome]
    exact h.present hx
  · obtain ⟨op, hact, -⟩ := hold hx
    exact (alike_modifyDecl b o f).symm.walked (fun x hs => by rwa [stands_modifyDecl]) (h.walked hact)
  · obtain ⟨op, hact, hk, hvs, hrs⟩ := hold hx
    exact (h.heeds hact).extends he hS h.coherent hact.op? hk hvs hrs
  · obtain ⟨op, hact, -, hvs, -⟩ := hold hx
    exact (h.scope hact (hvs ▸ hv)).extends he
  · obtain ⟨op, hact, hk, hvs, hrs⟩ := hold hx
    exact (h.pending hP hact).extends he hS h.coherent hact.op? hk hvs hrs
  · obtain ⟨op, hact, hk, hvs, -⟩ := hold hx
    exact (h.landed hact hP).extends he hS h.coherent hact.op? hk hvs

end Created

end Body

end Scalarize
