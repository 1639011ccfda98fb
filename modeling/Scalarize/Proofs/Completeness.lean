import Scalarize.Proofs.Built
import Scalarize.Proofs.Circuits

/-!
# Nothing is left to lower

* `Body.Regular` : constants and primitives are ground, and instances have one result for each port;
* `Body.Flat`, `Module.Flat` : no aggregate is left that the options do not keep;
* `Lowered.flat` : a body all of whose operations are settled is flat;
* `Circuit.flat_of_lower` : so is every body of a circuit that was lowered.
-/

namespace Scalarize

open Body

/-! ## What is left -/

/-- Constants and primitives are ground, and instances have one result for each port. -/
structure Body.Regular (b : Body) : Prop where
  constant : ∀ {o op n v t}, b.op? o = some op → op.kind = .constant n → v ∈ op.results →
    b.ty? v = some t → t.isGround
  prim : ∀ {o op p v t}, b.op? o = some op → op.kind = .prim p → v ∈ op.results →
    b.ty? v = some t → t.isGround
  inst : ∀ {o op i}, b.op? o = some op → op.kind = .inst i → op.results.length = i.ports.length

/-- The aggregates that operations of a kind may still make. -/
def OpKind.Leaves (cx : Context) (kind : OpKind) (t : Ty) : Prop :=
  match kind with
  | .mem m => m.dataType.isGround ∧ t ∈ m.portTypes
  | .inst i => ∃ entry, cx.modules.get? i.moduleName = some entry ∧
    cx.options.portsMayPreserve entry ∧ t.preservable
  | _ => cx.options.preserveAggregate ∧ t.preservable

/-- No aggregate is left in the body that the options do not keep. -/
structure Body.Flat (cx : Context) (b : Body) : Prop where
  results : ∀ {o op v}, b.op? o = some op → op.erased = false → v ∈ op.results →
    ∃ t, b.ty? v = some t ∧ (t.isGround ∨ op.kind.Leaves cx t)
  subaccess : ∀ {o op}, b.op? o = some op → op.erased = false → op.kind ≠ .subaccess
  connect : ∀ {o op strict}, b.op? o = some op → op.erased = false → op.kind = .connect strict →
    ∃ v t, op.operands[0]? = some v ∧ b.ty? v = some t ∧ t.isGround
  bitcast : ∀ {o op v}, b.op? o = some op → op.erased = false → op.kind = .bitcast →
    v ∈ op.operands ++ op.results → ∃ t, b.ty? v = some t ∧ t.isGround
  subfield : cx.options.preserveAggregate = false → ∀ {o op i v}, b.op? o = some op →
    op.erased = false → op.kind = .subfield i → v ∈ op.operands →
    ∃ d j opd m, b.origin? v = some (.result d j) ∧ b.op? d = some opd ∧ opd.erased = false ∧
      opd.kind = .mem m
  subindex : cx.options.preserveAggregate = false → ∀ {o op i}, b.op? o = some op →
    op.erased = false → op.kind ≠ .subindex i

/-- No aggregate is left in the module that the options do not keep. -/
structure Module.Flat (cx : Context) (m : Module) : Prop where
  ports : ∀ p ∈ m.ports, p.ty.isGround ∨ p.ty.preservable ∧ cx.options.portsMayPreserve m.entry
  body : ∀ {b}, m.body = some b → b.Flat cx

/-! ## Settled bodies -/

theorem Options.preserveAggregate_of_portsMayPreserve {o : Options} {e : ModuleEntry}
    (h : o.portsMayPreserve e) : o.preserveAggregate := by
  unfold portsMayPreserve at h
  simp only [Bool.and_eq_true] at h
  exact h.1

/-- A port of a memory of ground entries has ground fields. -/
theorem Memory.isGround_of_portType_child? {depth i : Nat} {data t : Ty} {kind : PortKind}
    (hd : data.isGround) (h : (portType depth data kind).child? i = some t) : t.isGround := by
  obtain ⟨f, hf, rfl⟩ := Option.map_eq_some_iff.1 h
  have hmask : data.mask.isGround := by rwa [Ty.isGround_mask]
  have hmem := List.mem_of_getElem? hf
  simp only [portFields, List.mem_append, List.mem_cons, List.not_mem_nil, or_false] at hmem
  rcases hmem with (rfl | rfl | rfl) | hmem
  · rfl
  · rfl
  · rfl
  · cases kind <;> simp only [List.mem_cons, List.not_mem_nil, or_false] at hmem
    · rw [hmem]; exact hd
    · rcases hmem with rfl | rfl
      · exact hd
      · exact hmask
    · rcases hmem with rfl | rfl | rfl | rfl
      · exact hd
      · rfl
      · exact hd
      · exact hmask

/-- A settled operation, other than an accessor, makes what the options keep. -/
theorem OpKind.leaves_of_settled {cx : Context} {kind : OpKind} {ins outs : List Ty}
    (hs : kind.Shaped True ins outs) (hset : kind.Settled cx ins outs)
    (hacc : kind.isAccessor = false) : ∀ t ∈ outs, t.isGround ∨ kind.Leaves cx t := by
  intro t ht
  cases kind with
  | wire | reg | regReset | node | invalid | mux | multiMux | unrealizedCast => exact hset t ht
  | mem m => exact .inr ⟨hset, hs.2 ▸ ht⟩
  | inst i =>
    obtain ⟨entry, hentry, hall⟩ := hset
    obtain ⟨j, hj⟩ := List.mem_iff_getElem?.1 ht
    have hlt : j < i.ports.length := hs.2 trivial ▸ (List.getElem?_eq_some_iff.1 hj).1
    have hz : (i.ports[j], t) ∈ i.ports.zip outs :=
      List.mem_of_getElem? (List.getElem?_zip_eq_some.2 ⟨List.getElem?_eq_getElem hlt, hj⟩)
    exact (hall _ hz).imp_right fun hp => ⟨entry, hentry, hp⟩
  | constant =>
    obtain ⟨-, u, rfl, hu⟩ := hs
    exact .inl (List.mem_singleton.1 ht ▸ hu trivial)
  | prim =>
    obtain ⟨u, rfl, hu⟩ := hs
    exact .inl (List.mem_singleton.1 ht ▸ hu trivial)
  | bitcast => exact .inl (hset.2 t ht)
  | connect =>
    obtain ⟨-, -, -, rfl⟩ := hs
    cases ht
  | when =>
    obtain ⟨-, -, rfl⟩ := hs
    cases ht
  | subfield | subindex | subaccess => cases hacc

/-- What may still be read: ground values, kept aggregates, and ports of memories of ground entries. -/
def Body.MayRead (cx : Context) (b : Body) (v : ValueId) (t : Ty) : Prop :=
  t.isGround ∨ cx.options.preserveAggregate ∧ t.preservable ∨
    ∃ d j op m, b.origin? v = some (.result d j) ∧ b.op? d = some op ∧ op.erased = false ∧
      op.kind = .mem m ∧ m.dataType.isGround ∧ t ∈ m.portTypes

theorem Body.MayRead.child {cx : Context} {b : Body} {v : ValueId} {t c : Ty} {i : Nat}
    (h : b.MayRead cx v t) (hc : t.child? i = some c) :
    c.isGround ∨ cx.options.preserveAggregate ∧ c.preservable := by
  rcases h with hg | ⟨hk, hp⟩ | ⟨d, j, op, m, -, -, -, -, hd, ht⟩
  · cases t with
    | ground => cases hc
    | bundle => cases hg
    | vector => cases hg
  · exact .inr ⟨hk, Ty.preservable_child hp hc⟩
  · obtain ⟨p, -, rfl⟩ := List.mem_map.1 ht
    exact .inl (Memory.isGround_of_portType_child? hd hc)

namespace Lowered

variable {q : Setting} {b : Body} {R : OpId → Nat} {D : List OpId} {ts : List Ty} {keep : Bool}

theorem settled (h : Lowered q b R D ts) {o : OpId} {op : Operation} (hop : b.op? o = some op)
    (he : op.erased = false) : ∃ ins outs, b.Types op.operands ins ∧ b.Types op.results outs ∧
      op.kind.Shaped q.strict ins outs ∧ op.kind.Settled q.cx ins outs := by
  obtain ⟨ins, outs, hins, houts, hs⟩ := h.holds.typed List.not_mem_nil hop he
  have hD : o ∈ D := by simpa using h.holds.tracked hop he
  exact ⟨ins, outs, hins, houts, hs, h.holds.settled hD hop he hins houts⟩

/-- An operation that stands makes what the options keep, or reaches a part of what it reads. -/
theorem made (h : Lowered q b R D ts) (hstrict : q.strict) {o : OpId} {op : Operation}
    (hop : b.op? o = some op) (he : op.erased = false) : ∃ outs, b.Types op.results outs ∧
      ((∀ t ∈ outs, t.isGround ∨ op.kind.Leaves q.cx t) ∨
        ∃ w u c i, op.operands = [w] ∧ b.ty? w = some u ∧ outs = [c] ∧ Grows.Reaches u i op.kind c) := by
  obtain ⟨ins, outs, hins, houts, hsh, hset⟩ := h.settled hop he
  have hsh' : op.kind.Shaped True ins outs := hsh.mono fun _ => hstrict
  refine ⟨outs, houts, ?_⟩
  cases hacc : op.kind.isAccessor with
  | false => exact .inl (OpKind.leaves_of_settled hsh' hset hacc)
  | true =>
    obtain ⟨i, hi⟩ : ∃ i, op.kind.fixedIndex? = some i := by
      cases hk : op.kind with
      | subfield i => exact ⟨i, rfl⟩
      | subindex i => exact ⟨i, rfl⟩
      | subaccess =>
        rw [hk] at hset
        exact hset.elim
      | _ =>
        rw [hk] at hacc
        cases hacc
    obtain ⟨u, c, rfl, rfl, hreach⟩ := Grows.Reaches.of_shaped hi hsh'
    obtain ⟨w, hw, hops⟩ := hins.singleton
    exact .inr ⟨w, u, c, i, hops, hw, rfl, hreach⟩

/-- Whatever is read may be read: an accessor takes a part of a deeper type that may be read. -/
theorem mayRead (h : Lowered q b R D ts) (hstrict : q.strict)
    (hts : ∀ t ∈ ts, t.isGround ∨ q.cx.options.preserveAggregate ∧ t.preservable) {x : OpId}
    {v : ValueId} {t : Ty} (hx : b.Reads x v) (ht : b.ty? v = some t) : b.MayRead q.cx v t := by
  suffices ∀ n x v t, b.typeDepth + 1 ≤ t.depth + n → b.Reads x v → b.ty? v = some t →
      b.MayRead q.cx v t from this (b.typeDepth + 1) x v t (Nat.le_add_left _ _) hx ht
  intro n
  induction n with
  | zero =>
    intro x v t hn _ ht
    have := depth_le_typeDepth ht
    omega
  | succ n ih =>
    intro x v t hn hx ht
    obtain ⟨y, hy, hyt⟩ := ty?_eq_some_iff.1 ht
    cases horigin : y.origin with
    | argument =>
      have ho : b.origin? v = some .argument := origin?_eq_some_iff.2 ⟨y, hy, horigin⟩
      have hmem : v ∈ b.args := by
        by_contra hnot
        exact h.current ho hnot hx
      obtain ⟨i, hi⟩ := List.mem_iff_getElem?.1 hmem
      obtain ⟨u, hu, hut⟩ := h.args.getElem? hi
      obtain rfl := Option.some.inj (ht.symm.trans hut)
      exact (hts t (List.mem_of_getElem? hu)).imp_right .inl
    | result d j =>
      have ho : b.origin? v = some (.result d j) := origin?_eq_some_iff.2 ⟨y, hy, horigin⟩
      obtain ⟨op, hop, hj⟩ := h.holds.coherent.origin ho
      have he := h.holds.not_read_of_erased hx ho hop
      obtain ⟨outs, houts, hmade⟩ := h.made hstrict hop he
      obtain ⟨u, hu, hut⟩ := houts.getElem? hj
      obtain rfl := Option.some.inj (ht.symm.trans hut)
      have hout := List.mem_of_getElem? hu
      rcases hmade with hl | ⟨w, u, c, i, hops, hw, rfl, hreach⟩
      · refine (hl t hout).imp_right fun hl => ?_
        cases hk : op.kind with
        | mem m =>
          rw [hk] at hl
          exact .inr ⟨d, j, op, m, ho, hop, he, hk, hl⟩
        | inst i =>
          rw [hk] at hl
          obtain ⟨entry, -, hp, ht⟩ := hl
          exact .inl ⟨Options.preserveAggregate_of_portsMayPreserve hp, ht⟩
        | _ =>
          rw [hk] at hl
          exact .inl hl
      · obtain rfl := List.mem_singleton.1 hout
        have hlt := Ty.depth_lt_of_child? hreach.1
        have hread : b.Reads d w := ⟨op, hop, by rw [hops]; exact List.mem_singleton_self w⟩
        exact ((ih d w u (by omega) hread hw).child hreach.1).imp_right .inl

/-- What an operation makes that stands is ground, or an aggregate that the options keep. -/
theorem results (h : Lowered q b R D ts) (hstrict : q.strict)
    (hts : ∀ t ∈ ts, t.isGround ∨ q.cx.options.preserveAggregate ∧ t.preservable) {o : OpId}
    {op : Operation} {v : ValueId} (hop : b.op? o = some op) (he : op.erased = false)
    (hv : v ∈ op.results) : ∃ t, b.ty? v = some t ∧ (t.isGround ∨ op.kind.Leaves q.cx t) := by
  obtain ⟨outs, houts, hmade⟩ := h.made hstrict hop he
  obtain ⟨i, hi⟩ := List.mem_iff_getElem?.1 hv
  obtain ⟨t, ht, hty⟩ := houts.getElem? hi
  have hout := List.mem_of_getElem? ht
  refine ⟨t, hty, ?_⟩
  rcases hmade with hl | ⟨w, u, c, j, hops, hw, rfl, hreach⟩
  · exact hl t hout
  · obtain rfl := List.mem_singleton.1 hout
    have hread : b.Reads o w := ⟨op, hop, by rw [hops]; exact List.mem_singleton_self w⟩
    refine ((h.mayRead hstrict hts hread hw).child hreach.1).imp_right fun hp => ?_
    rcases hreach.2 with ⟨hk, -⟩ | ⟨hk, -⟩
    · rw [hk]
      exact hp
    · rw [hk]
      exact hp

/-- Where nothing is kept, only ports of memories are still aggregates that are read. -/
theorem port_of_off (h : Lowered q b R D ts) (hstrict : q.strict)
    (hts : ∀ t ∈ ts, t.isGround ∨ q.cx.options.preserveAggregate ∧ t.preservable)
    (hoff : q.cx.options.preserveAggregate = false) {x : OpId} {v : ValueId} {t : Ty}
    (hx : b.Reads x v) (ht : b.ty? v = some t) (hg : t.isGround = false) :
    ∃ d j op m, b.origin? v = some (.result d j) ∧ b.op? d = some op ∧ op.erased = false ∧
      op.kind = .mem m ∧ t ∈ m.portTypes := by
  rcases h.mayRead hstrict hts hx ht with hg' | ⟨hon, -⟩ | ⟨d, j, op, m, ho, hop, he, hk, -, hp⟩
  · rw [hg] at hg'
    cases hg'
  · rw [hoff] at hon
    cases hon
  · exact ⟨d, j, op, m, ho, hop, he, hk, hp⟩

/-- A body all of whose operations are settled is flat. -/
theorem flat (h : Lowered q b R D ts) (hstrict : q.strict)
    (hts : ∀ t ∈ ts, t.isGround ∨ q.cx.options.preserveAggregate ∧ t.preservable) : b.Flat q.cx where
  results := h.results hstrict hts
  subaccess {o op} hop he hk := by
    obtain ⟨ins, outs, -, -, -, hset⟩ := h.settled hop he
    rw [hk] at hset
    exact hset
  connect {o op strict} hop he hk := by
    obtain ⟨ins, outs, hins, -, hsh, hset⟩ := h.settled hop he
    rw [hk] at hsh hset
    obtain ⟨d, s, rfl, -⟩ := hsh
    obtain ⟨v, w, hv, -, hops⟩ := hins.pair
    exact ⟨v, d, by rw [hops]; rfl, hv, hset d rfl⟩
  bitcast {o op v} hop he hk hv := by
    obtain ⟨ins, outs, hins, houts, -, hset⟩ := h.settled hop he
    rw [hk] at hset
    rcases List.mem_append.1 hv with hv | hv
    · obtain ⟨i, hi⟩ := List.mem_iff_getElem?.1 hv
      obtain ⟨t, ht, hty⟩ := hins.getElem? hi
      exact ⟨t, hty, hset.1 t (List.mem_of_getElem? ht)⟩
    · obtain ⟨i, hi⟩ := List.mem_iff_getElem?.1 hv
      obtain ⟨t, ht, hty⟩ := houts.getElem? hi
      exact ⟨t, hty, hset.2 t (List.mem_of_getElem? ht)⟩
  subfield hoff {o op i v} hop he hk hv := by
    obtain ⟨ins, outs, hins, -, hsh, -⟩ := h.settled hop he
    rw [hk] at hsh
    obtain ⟨fs, f, rfl, -⟩ := hsh
    obtain ⟨w, hw, hops⟩ := hins.singleton
    rw [hops] at hv
    obtain rfl := List.mem_singleton.1 hv
    obtain ⟨d, j, opd, m, ho, hopd, hed, hkd, -⟩ := h.port_of_off hstrict hts hoff
      ⟨op, hop, by rw [hops]; exact List.mem_singleton_self v⟩ hw rfl
    exact ⟨d, j, opd, m, ho, hopd, hed, hkd⟩
  subindex hoff {o op i} hop he hk := by
    obtain ⟨ins, outs, hins, -, hsh, -⟩ := h.settled hop he
    rw [hk] at hsh
    obtain ⟨e, n, rfl, -⟩ := hsh
    obtain ⟨w, hw, hops⟩ := hins.singleton
    obtain ⟨d, j, opd, m, -, -, -, -, hport⟩ := h.port_of_off hstrict hts hoff
      ⟨op, hop, by rw [hops]; exact List.mem_singleton_self w⟩ hw rfl
    obtain ⟨p, -, hp⟩ := List.mem_map.1 hport
    cases hp

end Lowered

/-! ## Circuits -/

/-- In a regular body the shapes of operations are strict. -/
theorem Body.Sound.shaped {strict : Prop} {b : Body} {types : List Ty} (h : b.Sound types)
    (hb : strict → b.Regular) : b.Typed (OpKind.Shaped strict) := by
  intro o op hop he
  obtain ⟨ins, outs, hins, houts, hs⟩ := h.typed hop he
  replace hs := hs.shaped
  have hmem : ∀ t ∈ outs, ∃ v ∈ op.results, b.ty? v = some t := fun t ht => by
    obtain ⟨v, hv, hty⟩ := exists_of_forall₂ houts ht
    exact ⟨v, hv, hty⟩
  refine ⟨ins, outs, hins, houts, ?_⟩
  cases hk : op.kind <;> rw [hk] at hs <;> try exact hs
  case constant n =>
    obtain ⟨hin, t, rfl, -⟩ := hs
    obtain ⟨v, hv, hty⟩ := hmem t (List.mem_singleton_self t)
    exact ⟨hin, t, rfl, fun hs => (hb hs).constant hop hk hv hty⟩
  case prim p =>
    obtain ⟨t, rfl, -⟩ := hs
    obtain ⟨v, hv, hty⟩ := hmem t (List.mem_singleton_self t)
    exact ⟨t, rfl, fun hs => (hb hs).prim hop hk hv hty⟩
  case inst i => exact ⟨hs.1, fun h => houts.length_eq.symm.trans ((hb h).inst hop hk)⟩

/-- What bodies built by the typed functions need to be lowered, where failures are not excluded. -/
theorem Body.Sound.input {q : Setting} {b : Body} {types : List Ty} {R : OpId → Nat}
    (h : b.Sound types) (hb : q.strict → b.Regular) (hm : ¬q.must) (ho : ¬q.ordered) :
    b.Input q R where
  coherent := h.coherent
  unerased := h.unerased
  typed := h.shaped hb
  closed hord := absurd hord ho
  sized hmust := absurd hmust hm
  ready hmust := absurd hmust hm
  nested hmust := absurd hmust hm

theorem Module.Built.input {q : Setting} {m : Module} {R : OpId → Nat} (h : m.Built)
    (hb : q.strict → ∀ b, m.body = some b → b.Regular) (hm : ¬q.must) (ho : ¬q.ordered) :
    m.Input q R where
  body {b} hbody := by
    obtain ⟨p, hp⟩ := h hbody
    have hs := hp.sound
    exact ⟨hs.input (fun h => hb h b hbody) hm ho, hs.args, hs.argument, fun hmust => absurd hmust hm⟩
  ports hmust := absurd hmust hm

theorem OpKind.leaves_mapDecl {cx : Context} {kind : OpKind} {t : Ty} (f : Decl → Decl) :
    (kind.mapDecl f).Leaves cx t ↔ kind.Leaves cx t := by
  cases kind <;> rfl

theorem OpKind.eq_of_mapDecl_eq {f : Decl → Decl} {kind plain : OpKind} (h : kind.mapDecl f = plain)
    (hp : plain.decl? = none) : kind = plain :=
  (eq_of_bare_eq (h ▸ bare_mapDecl f kind) hp).symm

/-- Annotations do not matter. -/
theorem Body.Flat.reannotated {cx : Context} {b b' : Body} (h : b.Flat cx) (hb : b.Reannotated b') :
    b'.Flat cx where
  results {o op' v} hop' he hv := by
    obtain ⟨op, f, hop, rfl⟩ := hb.op?_some' hop'
    obtain ⟨t, ht, hl⟩ := h.results hop he hv
    exact ⟨t, (hb.ty? v).trans ht, hl.imp_right (OpKind.leaves_mapDecl f).2⟩
  subaccess {o op'} hop' he hk := by
    obtain ⟨op, f, hop, rfl⟩ := hb.op?_some' hop'
    exact h.subaccess hop he (OpKind.eq_of_mapDecl_eq hk rfl)
  connect {o op' strict} hop' he hk := by
    obtain ⟨op, f, hop, rfl⟩ := hb.op?_some' hop'
    obtain ⟨v, t, hv, ht, hg⟩ := h.connect hop he (OpKind.eq_of_mapDecl_eq hk rfl)
    exact ⟨v, t, hv, (hb.ty? v).trans ht, hg⟩
  bitcast {o op' v} hop' he hk hv := by
    obtain ⟨op, f, hop, rfl⟩ := hb.op?_some' hop'
    obtain ⟨t, ht, hg⟩ := h.bitcast hop he (OpKind.eq_of_mapDecl_eq hk rfl) hv
    exact ⟨t, (hb.ty? v).trans ht, hg⟩
  subfield hoff {o op' i v} hop' he hk hv := by
    obtain ⟨op, f, hop, rfl⟩ := hb.op?_some' hop'
    obtain ⟨d, j, opd, m, ho, hopd, hed, hkd⟩ := h.subfield hoff hop he
      (OpKind.eq_of_mapDecl_eq hk rfl) hv
    obtain ⟨g, hopd'⟩ := hb.op?_some hopd
    exact ⟨d, j, _, { m with decl := g m.decl }, (hb.origin? v).trans ho, hopd', hed, by rw [hkd]; rfl⟩
  subindex hoff {o op' i} hop' he hk := by
    obtain ⟨op, f, hop, rfl⟩ := hb.op?_some' hop'
    exact h.subindex hoff hop he (OpKind.eq_of_mapDecl_eq hk rfl)

/-- The lowering of a module leaves it flat. -/
theorem Module.Output.flat {q : Setting} {m m' : Module} (h : Module.Output q m m') (hstrict : q.strict) :
    m'.Flat q.cx where
  ports p hp := by
    rw [h.entry]
    exact (h.whole p hp).imp_right And.symm
  body {b'} hb' := by
    obtain ⟨b, R, D, rfl, hlow⟩ := h.body hb'
    have hflat : b.Flat q.cx := hlow.flat hstrict fun t ht => by
      obtain ⟨p, hp, rfl⟩ := List.mem_map.1 ht
      exact (h.whole p hp).imp_right fun ⟨hk, hp⟩ =>
        ⟨Options.preserveAggregate_of_portsMayPreserve hk, hp⟩
    exact
      { results := hflat.results, subaccess := hflat.subaccess, connect := hflat.connect
        bitcast := hflat.bitcast, subfield := hflat.subfield, subindex := hflat.subindex }

theorem Module.Reannotated.entry {m m' : Module} (h : m.Reannotated m') : m'.entry = m.entry := by
  have hb := h.body
  have hext : m'.isExternal = m.isExternal := by
    unfold Module.isExternal
    cases hm : m.body <;> cases hm' : m'.body <;> rw [hm, hm'] at hb <;> cases hb
    all_goals rfl
  simp only [Module.entry, hext, h.isPublic]

theorem Module.Flat.reannotated {cx : Context} {m m' : Module} (h : m.Flat cx) (hm : m.Reannotated m') :
    m'.Flat cx where
  ports p' hp' := by
    obtain ⟨p, hp, a, rfl⟩ := exists_of_forall₂ hm.ports hp'
    rw [hm.entry]
    exact h.ports p hp
  body {b'} hb' := by
    have hrel := hm.body
    rw [hb'] at hrel
    cases hb : m.body <;> rw [hb] at hrel <;> cases hrel
    next hr => exact (h.body hb).reannotated hr

/-- No aggregate is left in a lowered circuit that the options do not keep. -/
theorem Circuit.flat_of_lower {c c' : Circuit} {options : Options} {generated generated' : Nat}
    {stats : Stats} (hc : c.Built) (hb : ∀ m ∈ c.modules, ∀ b, m.body = some b → b.Regular)
    (h : c.lower options generated = .ok (c', stats, generated')) :
    ∀ m ∈ c'.modules, m.Flat ⟨options, c.moduleTable⟩ := by
  let q : Setting :=
    { must := False, ordered := False, ordered_of_must := id, cx := ⟨options, c.moduleTable⟩
      splits_of_must := nofun, depth := 0, strict := True, strict_of_must := fun _ => trivial }
  have hlower : Ends q.must (c.lower options generated) _ := Circuit.output_ends rfl fun m hm =>
    ⟨fun _ => 0, Module.Built.input (hc m hm) (fun _ => hb m hm) id id⟩
  intro m' hm'
  obtain ⟨m, -, m'', ho, hr⟩ := hlower.of_ok h m' hm'
  exact (ho.flat trivial).reannotated hr

/-- A port of one field, and a node that names it. -/
def nodeBody : Body where
  values := #[⟨.bundle [⟨"x", false, .uint 1⟩], .argument, [⟨⟨0⟩, 0⟩]⟩,
    ⟨.bundle [⟨"x", false, .uint 1⟩], .result ⟨0⟩ 0, []⟩]
  ops := #[⟨.node {}, [⟨0⟩], [⟨1⟩], Body.entry, false⟩]
  blocks := #[⟨[⟨0⟩], none⟩]
  args := [⟨0⟩]

/-- A circuit of one module with that body. -/
def nodeCircuit : Circuit where
  name := "M"
  modules := [⟨"M", true, [⟨"a", .bundle [⟨"x", false, .uint 1⟩], .input, none, []⟩], [], some nodeBody⟩]
  paths := []

theorem nodeCircuit_built : nodeCircuit.Built := by
  intro m hm b hb
  obtain rfl := List.mem_singleton.1 hm
  obtain rfl := Option.some.inj hb
  exact ⟨⟨Body.entry, 1⟩, .call (.node ⟨0⟩ {}) (.start ⟨Body.entry, 0⟩ rfl) rfl⟩

theorem nodeCircuit_regular : ∀ m ∈ nodeCircuit.modules, ∀ b, m.body = some b → b.Regular := by
  intro m hm b hb
  obtain rfl := List.mem_singleton.1 hm
  obtain rfl := Option.some.inj hb
  have hnode : ∀ {o op}, nodeBody.op? o = some op → op.kind = .node {} := fun {o op} hop => by
    have hlt : o.index < 1 := lt_of_op? hop
    obtain rfl : o = ⟨0⟩ := congrArg OpId.mk (Nat.lt_one_iff.1 hlt)
    exact (congrArg Operation.kind (Option.some.inj hop)).symm
  refine ⟨fun hop hk => ?_, fun hop hk => ?_, fun hop hk => ?_⟩ <;> cases (hnode hop).symm.trans hk

theorem Circuit.flat_of_lower_node : ∃ r, nodeCircuit.lower {} 0 = .ok r ∧
    ∀ m ∈ r.1.modules, m.Flat ⟨{}, nodeCircuit.moduleTable⟩ := by
  have hok : (nodeCircuit.lower {} 0).isOk := by decide +kernel
  cases hr : nodeCircuit.lower {} 0 with
  | error => rw [hr] at hok; cases hok
  | ok r => exact ⟨r, rfl, Circuit.flat_of_lower nodeCircuit_built nodeCircuit_regular hr⟩

end Scalarize
