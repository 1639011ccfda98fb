import Scalarize.Proofs.Body.Below
import Scalarize.Proofs.Completeness

/-!
# Lowering succeeds

* `OpKind.Valid`, `Body.Valid`, `Circuit.Valid` : circuits in which operands are made before they are
  read and have the types that their readers ask for;
* `Body.Scoped` : no operation below the second block of a guard reads what is made below the first;
* `Body.Valid.exists_accesses`, `Body.Valid.suffices` : the lowering of an operation nests no deeper than
  the body allows;
* `Circuit.exists_lower` : where no aggregate is kept, such circuits can be lowered.
-/

namespace Scalarize

open Body

/-! ## Valid circuits -/

/-- The types of operands and results that readers ask for, beyond those that the typed functions see
to. The field IDs that annotations need stay within 64 bits. -/
def OpKind.Valid (modules : List Module) : OpKind → List Ty → List Ty → Prop
  | wire d, _, outs | node d, _, outs => ∀ t ∈ outs, Annotated d.annotations t
  | reg d, ins, outs => (∀ t ∈ ins, t.isGround) ∧ ∀ t ∈ outs, Annotated d.annotations t
  | regReset d, ins, outs => ∃ c r t, ins = [c, r, t] ∧ outs = [t] ∧ c.isGround ∧ r.isGround ∧
    Annotated d.annotations t
  | mem m, _, _ => m.dataType.lastId?.isSome ∧
    ∀ p ∈ m.ports, (Memory.portType m.depth m.dataType p.kind).span?.isSome
  | inst i, _, outs => (∃ m ∈ modules, m.name = i.moduleName) ∧
    List.Forall₂ (fun (p : InstancePort) t => Annotated p.annotations t) i.ports outs
  | constant _, _, outs => ∀ t ∈ outs, t.isGround
  | prim _, ins, outs => ∀ t ∈ ins ++ outs, t.isGround
  | subaccess, ins, _ => ∀ t, ins[1]? = some t → t.isGround
  | mux, ins, _ => ∃ s t, ins = [s, t, t] ∧ s.isGround
  | multiMux, ins, _ => ∃ x t rest, ins = x :: t :: rest ∧ x.isGround ∧ ∀ u ∈ rest, u = t
  | bitcast, ins, outs => ∀ t ∈ ins ++ outs, ∃ w, t.width = some w ∧ w < UInt32.size
  | unrealizedCast, ins, outs => ∀ a t, ins = [a] → outs = [t] → a.Alike t
  | connect _, ins, _ => ∃ t, ins = [t, t]
  | when _ _, ins, _ => ∀ t ∈ ins, t.isGround
  | invalid, _, _ | subfield _, _, _ | subindex _, _, _ => True

/-- Operands are made before they are read and have the types that their readers ask for. -/
structure Body.Valid (modules : List Module) (b : Body) : Prop where
  ordered : ∀ {x op v d i}, b.op? x = some op → v ∈ op.operands →
    b.origin? v = some (.result d i) → [d, x].Sublist b.walk
  typed : ∀ {x op ins outs}, b.op? x = some op → b.Types op.operands ins → b.Types op.results outs →
    op.kind.Valid modules ins outs
  /-- A literal position lies within the vector, unless this is empty. -/
  literal : ∀ {x op w y e m n}, b.op? x = some op → op.kind = .subaccess → op.operands = [w, y] →
    b.ty? w = some (.vector e m) → b.Literal y n → m = 0 ∨ n < m
  sized : ∀ {v t}, b.ty? v = some t → t.lastId?.isSome

/-- No operation below the second block of a guard reads what is made below the first. -/
def Body.Scoped (b : Body) : Prop :=
  ∀ {x op v d i}, b.op? x = some op → v ∈ op.operands → b.origin? v = some (.result d i) →
    ¬b.Apart d x

/-- All bodies are valid, and the field IDs that annotations of ports need stay within 64 bits. -/
structure Circuit.Valid (c : Circuit) : Prop where
  bodies : ∀ m ∈ c.modules, ∀ b, m.body = some b → b.Valid c.modules
  ports : ∀ m ∈ c.modules, ∀ p ∈ m.ports, Annotated p.annotations p.ty

/-- All bodies are scoped. -/
def Circuit.Scoped (c : Circuit) : Prop := ∀ m ∈ c.modules, ∀ b, m.body = some b → b.Scoped

/-- Operands are made before they are read, in the order of a walk. -/
def Body.Ordered (b : Body) : Prop :=
  ∀ {x op v d i}, b.op? x = some op → v ∈ op.operands → b.origin? v = some (.result d i) →
    [d, x].Sublist b.walk

/-- Operations of a scoped body read only what unfolds in front of them. -/
theorem Body.Ordered.closed {b : Body} (h : b.Ordered) (hb : b.Coherent) (hs : b.Scoped) {L : List OpId}
    (hL : Unfolds b (b.slotsOf Body.entry) L) : b.Closed L := by
  intro Q₁ x Q₂ op v hQ hop hv
  obtain ⟨y, hy⟩ := Option.isSome_iff_exists.1 (isSome_value?.2 (hb.operand hop hv))
  cases ho : y.origin with
  | argument => exact .inl (origin?_eq_some_iff.2 ⟨y, hy, ho⟩)
  | result d i =>
    have ho : b.origin? v = some (.result d i) := origin?_eq_some_iff.2 ⟨y, hy, ho⟩
    have hpair : [d, x].Sublist (b.belowEach (b.slotsOf Body.entry)) := by
      rw [hb.belowEach_slotsOf, ← walk_eq]
      exact h hop hv ho
    have hL' := hL.sublist hb hpair (hs hop hv ho)
    subst hQ
    exact .inr ⟨d, mem_of_pair_sublist hL' (hb.nodup_of_unfolds_entry hL), i, ho⟩

/-! ## Kinds -/

theorem Circuit.isSome_moduleTable {c : Circuit} {m : Module} (h : m ∈ c.modules) :
    (c.moduleTable.get? m.name).isSome := by
  have hkeep : ∀ (ms : List Module) (table : ModuleTable), (table.get? m.name).isSome ∨ m ∈ ms →
      ((ms.foldl (fun table m => table.put m.name m.entry) table).get? m.name).isSome := by
    intro ms
    induction ms with
    | nil => exact fun table h => h.resolve_right List.not_mem_nil
    | cons m' ms ih =>
      intro table h
      refine ih _ ?_
      rw [Assoc.get?_put]
      rcases h with h | h
      · left
        split
        · rfl
        · exact h
      · rcases List.mem_cons.1 h with rfl | h
        · exact .inl (by simp)
        · exact .inr h
  exact hkeep c.modules [] (.inr h)

/-- What the typed functions see to and what readers ask for is all that lowering checks. -/
theorem OpKind.Exact.checked {q : Setting} {modules : List Module} {kind : OpKind} {ins outs : List Ty}
    (h : kind.Exact ins outs) (hv : kind.Valid modules ins outs)
    (htable : ∀ m ∈ modules, (q.cx.modules.get? m.name).isSome)
    (hdepth : ∀ m, kind = .mem m → m.dataType.depth < q.depth) : kind.Checked q ins outs := by
  cases kind with
  | wire d =>
    obtain ⟨rfl, t, rfl⟩ := h
    exact ⟨rfl, t, rfl, hv t (List.mem_singleton_self t)⟩
  | reg d =>
    obtain ⟨c, t, rfl, rfl⟩ := h
    exact ⟨c, t, rfl, rfl, hv.1 c (List.mem_singleton_self c), hv.2 t (List.mem_singleton_self t)⟩
  | regReset d => exact hv
  | node d =>
    obtain ⟨t, rfl, rfl⟩ := h
    exact ⟨t, rfl, rfl, hv t (List.mem_singleton_self t)⟩
  | mem m => exact ⟨h.1, h.2, hv.1, hdepth m rfl, hv.2⟩
  | inst i =>
    obtain ⟨⟨m, hm, hname⟩, hports⟩ := hv
    exact ⟨h.1, hname ▸ htable m hm, hports⟩
  | constant n =>
    obtain ⟨rfl, t, rfl, -⟩ := h
    exact ⟨rfl, t, rfl, hv t (List.mem_singleton_self t)⟩
  | invalid => exact h
  | subfield i => exact h
  | subindex i => exact h
  | subaccess =>
    obtain ⟨e, n, x, rfl, rfl⟩ := h
    exact ⟨e, n, x, rfl, rfl, hv x rfl⟩
  | mux =>
    obtain ⟨s, t, u, rfl, rfl⟩ := h
    obtain ⟨s, t, heq, hs⟩ := hv
    cases heq
    exact ⟨s, t, rfl, rfl, hs⟩
  | multiMux =>
    obtain ⟨x, t, rest, rfl, rfl⟩ := h
    obtain ⟨x, t, rest, heq, hx, hrest⟩ := hv
    cases heq
    exact ⟨x, rest, t, rfl, rfl, hx, hrest⟩
  | bitcast =>
    obtain ⟨a, t, rfl, rfl⟩ := h
    obtain ⟨w, hw, hlt⟩ := hv a (by simp)
    obtain ⟨u, hu, hlt'⟩ := hv t (by simp)
    exact ⟨a, t, w, u, rfl, rfl, hw, hlt, hu, hlt'⟩
  | unrealizedCast =>
    obtain ⟨a, t, rfl, rfl⟩ := h
    exact ⟨a, t, rfl, rfl, hv a t rfl rfl⟩
  | prim p =>
    obtain ⟨t, rfl, -⟩ := h
    exact ⟨fun t ht => hv t (List.mem_append_left _ ht), t, rfl, hv t (by simp)⟩
  | connect strict =>
    obtain ⟨d, s, rfl, rfl⟩ := h
    obtain ⟨t, heq⟩ := hv
    cases heq
    exact ⟨d, rfl, rfl⟩
  | when t e =>
    obtain ⟨c, rfl, rfl⟩ := h
    exact ⟨c, rfl, hv c (List.mem_singleton_self c), rfl⟩

/-! ## Bodies -/

namespace Body.Valid

variable {b : Body} {types : List Ty} {modules : List Module} {q : Setting}

theorem regular (h : b.Valid modules) (hb : b.Sound types) : b.Regular := by
  have htypes : ∀ {o op}, b.op? o = some op → ∃ ins outs, b.Types op.operands ins ∧
      b.Types op.results outs ∧ op.kind.Valid modules ins outs := fun {o op} hop => by
    obtain ⟨ins, outs, hins, houts, -⟩ := hb.typed hop (hb.unerased hop)
    exact ⟨ins, outs, hins, houts, h.typed hop hins houts⟩
  have hmem : ∀ {vs ts} {v : ValueId} {t : Ty}, b.Types vs ts → v ∈ vs → b.ty? v = some t → t ∈ ts := by
    intro vs ts v t hts hv ht
    obtain ⟨i, hi⟩ := List.mem_iff_getElem?.1 hv
    obtain ⟨u, hu, hty⟩ := hts.getElem? hi
    obtain rfl := Option.some.inj (ht.symm.trans hty)
    exact List.mem_of_getElem? hu
  refine ⟨fun {o op n v t} hop hk hv ht => ?_, fun {o op p v t} hop hk hv ht => ?_,
    fun {o op i} hop hk => ?_⟩
  all_goals
    obtain ⟨ins, outs, hins, houts, hvalid⟩ := htypes hop
    rw [hk] at hvalid
  · exact hvalid t (hmem houts hv ht)
  · exact hvalid t (List.mem_append_right _ (hmem houts hv ht))
  · exact houts.length_eq.trans hvalid.2.length_eq.symm

/-- Operations read only what unfolds in front of them. -/
theorem closed (h : b.Valid modules) (hb : b.Sound types) (hs : b.Scoped) {L : List OpId}
    (hL : Unfolds b (b.slotsOf Body.entry) L) : b.Closed L := Ordered.closed h.ordered hb.coherent hs hL

end Body.Valid

/-! ## How deep lowering nests -/

namespace Body.Sound

variable {b : Body} {types : List Ty} {v : ValueId} {t : Ty} {d : OpId} {i : Nat} {op : Operation}

/-- What an accessor reads is of a deeper type than what it makes. -/
theorem accessor_cases (h : b.Sound types) (ht : b.ty? v = some t)
    (hv : b.origin? v = some (.result d i)) (hd : b.op? d = some op) :
    op.kind.isAccessor = false ∨ ∃ w u, b.ty? w = some u ∧ t.depth < u.depth ∧
      ((∃ j, op.kind.fixedIndex? = some j ∧ op.operands = [w]) ∨
        ∃ x, op.kind = .subaccess ∧ op.operands = [w, x]) := by
  obtain ⟨ins, outs, hins, houts, hs⟩ := h.typed hd (h.unerased hd)
  obtain ⟨op', hd', hi⟩ := h.coherent.origin hv
  obtain rfl := Option.some.inj (hd.symm.trans hd')
  obtain ⟨t', ht', hty⟩ := houts.getElem? hi
  obtain rfl := Option.some.inj (ht.symm.trans hty)
  have hout := List.mem_of_getElem? ht'
  cases hk : op.kind with
  | subfield j =>
    rw [hk] at hs
    obtain ⟨fs, f, rfl, hf, rfl⟩ := hs
    obtain ⟨w, hw, hops⟩ := hins.singleton
    obtain rfl := List.mem_singleton.1 hout
    refine .inr ⟨w, _, hw, Ty.depth_lt_of_child? (i := j) ?_, .inl ⟨j, rfl, hops⟩⟩
    simp [Ty.child?, hf]
  | subindex j =>
    rw [hk] at hs
    obtain ⟨e, n, rfl, hj, rfl⟩ := hs
    obtain ⟨w, hw, hops⟩ := hins.singleton
    obtain rfl := List.mem_singleton.1 hout
    exact .inr ⟨w, _, hw, by simp [Ty.depth], .inl ⟨j, rfl, hops⟩⟩
  | subaccess =>
    rw [hk] at hs
    obtain ⟨e, n, y, rfl, rfl⟩ := hs
    obtain ⟨w, x, hw, -, hops⟩ := hins.pair
    obtain rfl := List.mem_singleton.1 hout
    exact .inr ⟨w, _, hw, by simp [Ty.depth], .inr ⟨x, rfl, hops⟩⟩
  | _ => exact .inl rfl

/-- No more accessors lead to a value than its type is away from the deepest one. -/
theorem exists_accesses (h : b.Sound types) (k : Nat) : ∀ {v : ValueId} {t : Ty} {n : Nat},
    b.ty? v = some t → b.typeDepth ≤ t.depth + k → k ≤ n → b.Accesses v n := by
  induction k with
  | zero =>
    intro v t n ht hk _
    obtain ⟨y, hy, -⟩ := ty?_eq_some_iff.1 ht
    cases ho : y.origin with
    | argument => exact .argument (origin?_eq_some_iff.2 ⟨y, hy, ho⟩)
    | result d i =>
      have hv : b.origin? v = some (.result d i) := origin?_eq_some_iff.2 ⟨y, hy, ho⟩
      obtain ⟨op, hd, -⟩ := h.coherent.origin hv
      rcases h.accessor_cases ht hv hd with hacc | ⟨w, u, hw, hlt, -⟩
      · exact .result hv hd hacc
      · have := depth_le_typeDepth hw
        omega
  | succ k ih =>
    intro v t n ht hk hn
    obtain ⟨y, hy, -⟩ := ty?_eq_some_iff.1 ht
    cases ho : y.origin with
    | argument => exact .argument (origin?_eq_some_iff.2 ⟨y, hy, ho⟩)
    | result d i =>
      have hv : b.origin? v = some (.result d i) := origin?_eq_some_iff.2 ⟨y, hy, ho⟩
      obtain ⟨op, hd, -⟩ := h.coherent.origin hv
      rcases h.accessor_cases ht hv hd with hacc | ⟨w, u, hw, hlt, ⟨j, hj, hops⟩ | ⟨x, hx, hops⟩⟩
      · exact .result hv hd hacc
      · exact .fixed hv hd hj hops (ih hw (by omega) (by omega))
      · obtain ⟨n, rfl⟩ := Nat.exists_eq_add_of_le' (Nat.le_trans (Nat.le_add_left 1 k) hn)
        exact .computed hv hd hx hops (ih hw (by omega) (by omega))

end Body.Sound

/-- How deep the lowering of an operation may nest: types get shallower along a chain of replacements,
and a guard nests as deep as what it guards. -/
def Body.bound (b : Body) (x : OpId) : Nat :=
  b.typeDepth * (2 * b.typeDepth + 2) + 3 * b.typeDepth + 4 + (b.blocks.size - b.blockIndex x)

theorem Body.bound_lt (b : Body) (x : OpId) : b.bound x < b.loweringDepth := by
  unfold bound loweringDepth
  generalize b.typeDepth = d
  have h : 16 * ((d + 2) * (d + 2)) ≤ 8 * (b.ops.size + 2) * ((d + 2) * (d + 2)) :=
    Nat.mul_le_mul_right _ (by omega)
  have hsq : (d + 2) * (d + 2) = d * d + 4 * d + 4 := by rw [Nat.add_mul, Nat.mul_add, Nat.mul_add]; omega
  have hle : d * (2 * d + 2) = 2 * (d * d) + 2 * d := by rw [Nat.mul_add, Nat.mul_left_comm]; omega
  omega

theorem Body.Coherent.bound_lt_bound {b : Body} (h : b.Coherent) {x x' : OpId} (hx : x' ∈ b.inner x) :
    b.bound x' < b.bound x := by
  have hlt := h.blockIndex_lt hx
  obtain ⟨-, op, -, hop, -⟩ := h.op?_of_mem_inner hx
  have hsize : b.blockIndex x' < b.blocks.size := by
    obtain ⟨op₀, op', hop₀, hop', hmem⟩ := h.op?_of_mem_inner hx
    obtain ⟨-, blk, hblk, -⟩ := h.guards hop₀ hmem
    simpa [blockIndex, hop'] using lt_of_block? hblk
  unfold bound
  omega

/-- The bound suffices. -/
theorem Body.Sound.suffices {b : Body} {types : List Ty} {q : Setting} (h : b.Sound types)
    (hq : q.depth = b.typeDepth) {x : OpId} {op : Operation} {outs : List Ty}
    (hop : b.op? x = some op) (houts : b.Types op.results outs) :
    b.Suffices q op.kind op.operands outs (b.bound x) := by
  have hmul : ∀ {t : Ty}, t.depth ≤ b.typeDepth →
      t.depth * (2 * b.typeDepth + 2) ≤ b.typeDepth * (2 * b.typeDepth + 2) :=
    fun ht => Nat.mul_le_mul_right _ ht
  have hout : ∀ t ∈ outs, t.depth ≤ b.typeDepth := fun t ht => by
    obtain ⟨v, -, hv⟩ := exists_of_forall₂ houts ht
    exact depth_le_typeDepth hv
  have hwide : ∀ t ∈ outs, t.depth < b.bound x := fun t ht => by
    have := hout t ht
    unfold bound
    omega
  cases hk : op.kind with
  | wire | reg | regReset | node | invalid | mux | multiMux | unrealizedCast =>
    exact fun t ht => Nat.le_of_lt (hwide t ht)
  | mem m =>
    have hlt := depth_lt_typeDepth hop hk
    have := hmul (Nat.le_of_lt hlt)
    change m.dataType.depth * (2 * q.depth + 2) + q.depth + 4 ≤ b.bound x
    rw [hq]
    unfold bound
    omega
  | inst i => exact fun _ _ t ht _ => Nat.le_of_lt (hwide t ht)
  | subaccess => exact hwide
  | bitcast =>
    intro v hv t ht u hu
    have := depth_le_typeDepth ht
    have := hout u hu
    unfold bound
    omega
  | connect strict =>
    intro v t hv ht
    refine ⟨b.typeDepth, h.exists_accesses b.typeDepth ht (Nat.le_add_left _ _) (Nat.le_refl _), ?_⟩
    have := hmul (depth_le_typeDepth ht)
    rw [hq]
    unfold bound
    omega
  | constant | prim | subfield | subindex | «when» => trivial

/-! ## Circuits -/

/-- A valid body may be lowered. -/
theorem Body.Valid.input {b : Body} {types : List Ty} {modules : List Module} {q : Setting}
    (h : b.Valid modules) (hb : b.Sound types) (hs : b.Scoped) (hq : q.depth = b.typeDepth)
    (htable : ∀ m ∈ modules, (q.cx.modules.get? m.name).isSome) : b.Input q b.bound where
  coherent := hb.coherent
  unerased := hb.unerased
  typed := hb.shaped fun _ => h.regular hb
  closed _ _ hL := h.closed hb hs hL
  sized _ _ _ ht := ⟨h.sized ht, hq ▸ depth_le_typeDepth ht⟩
  ready _ {x op outs} hop houts := by
    obtain ⟨ins, outs', hins, houts', hex⟩ := hb.typed hop (hb.unerased hop)
    obtain rfl := houts.unique houts'
    refine ⟨⟨⟨ins, hins, hex.checked (h.typed hop hins houts) htable fun m hm => ?_⟩, fun t ht => ?_,
      fun hk hops hw => h.literal hop hk hops hw⟩, hb.suffices hq hop houts⟩
    · exact hq ▸ depth_lt_typeDepth hop hm
    · obtain ⟨v, -, hv⟩ := exists_of_forall₂ houts ht
      exact ⟨h.sized hv, hq ▸ depth_le_typeDepth hv⟩
  nested _ _ _ hx := hb.coherent.bound_lt_bound hx

/-- Valid and scoped circuits can be lowered where no aggregate is kept. -/
theorem Circuit.exists_lower {c : Circuit} {options : Options} (hc : c.Built) (hv : c.Valid)
    (hs : c.Scoped) (hoff : options.preserveAggregate = false) (generated : Nat) :
    ∃ r, c.lower options generated = .ok r := by
  have hends : Ends True (c.lower options generated) _ :=
    Circuit.lower_ends (P := fun _ _ => True) fun m hm g => by
      let q : Setting :=
        { must := True, ordered := True, ordered_of_must := id, cx := ⟨options, c.moduleTable⟩
          splits_of_must := fun _ => hoff, depth := m.body.elim 0 Body.typeDepth
          strict := True, strict_of_must := id }
      have hin : m.Input q (m.body.elim (fun _ => 0) Body.bound) :=
        { body := fun {b} hb => by
            obtain ⟨p, hp⟩ := hc m hm hb
            have hsound := hp.sound
            simp only [q, hb, Option.elim_some]
            exact ⟨(hv.bodies m hm b hb).input hsound (hs m hm b hb) rfl
              fun m hm => Circuit.isSome_moduleTable hm, hsound.args, hsound.argument,
              fun _ => b.bound_lt⟩
          ports := fun _ => hv.ports m hm }
      exact (Module.lower_ends hin).mono fun r hr => ⟨trivial, fun _ => hr.2⟩
  obtain ⟨r, hr, -⟩ := hends.exists_ok trivial
  exact ⟨r, hr⟩

theorem nodeCircuit_valid : nodeCircuit.Valid where
  bodies m hm b hb := by
    obtain rfl := List.mem_singleton.1 hm
    obtain rfl := Option.some.inj hb
    have hnode : ∀ {o op}, nodeBody.op? o = some op →
        op = ⟨.node {}, [⟨0⟩], [⟨1⟩], Body.entry, false⟩ := fun {o op} hop => by
      obtain ⟨n⟩ := o
      obtain rfl : n = 0 := Nat.lt_one_iff.1 (lt_of_op? hop)
      exact (Option.some.inj hop).symm
    refine ⟨fun hop hv ho => ?_, fun hop hins houts => ?_, fun hop hk => ?_, fun {v t} ht => ?_⟩
    · rw [hnode hop, List.mem_singleton] at hv
      subst hv
      cases ho
    · rw [hnode hop] at houts ⊢
      obtain rfl := houts.unique (.cons rfl .nil)
      intro t ht
      rw [List.mem_singleton.1 ht]
      exact ⟨1, rfl, nofun⟩
    · rw [hnode hop] at hk
      cases hk
    · obtain ⟨n⟩ := v
      have hlt : n < 2 := lt_of_ty? ht
      obtain rfl | rfl : n = 0 ∨ n = 1 := by omega
      all_goals
        obtain rfl := Option.some.inj ht
        rfl
  ports m hm p hp := by
    obtain rfl := List.mem_singleton.1 hm
    obtain rfl := List.mem_singleton.1 hp
    exact ⟨1, rfl, nofun⟩

theorem nodeCircuit_scoped : nodeCircuit.Scoped := by
  intro m hm b hb x op v d i hop hv ho
  have h := (nodeCircuit_valid.bodies m hm b hb).ordered hop hv ho
  obtain rfl := List.mem_singleton.1 hm
  obtain rfl := Option.some.inj hb
  have hwalk : nodeBody.walk = [⟨0⟩] := rfl
  rw [hwalk] at h
  exact absurd h.length_le (by simp)

theorem Circuit.exists_lower_node : ∃ r, nodeCircuit.lower {} 0 = .ok r :=
  Circuit.exists_lower nodeCircuit_built nodeCircuit_valid nodeCircuit_scoped rfl 0

/-- A guard whose second block connects a port to a wire of its first block. -/
def apartBody : Body where
  values := #[⟨.uint 1, .argument, [⟨⟨0⟩, 0⟩]⟩,
    ⟨.bundle [⟨"x", false, .uint 1⟩], .argument, [⟨⟨2⟩, 0⟩]⟩,
    ⟨.bundle [⟨"x", false, .uint 1⟩], .result ⟨1⟩ 0, [⟨⟨2⟩, 1⟩]⟩]
  ops := #[⟨.when ⟨1⟩ (some ⟨2⟩), [⟨0⟩], [], Body.entry, false⟩,
    ⟨.wire { name := some "w" }, [], [⟨2⟩], ⟨1⟩, false⟩,
    ⟨.connect false, [⟨1⟩, ⟨2⟩], [], ⟨2⟩, false⟩]
  blocks := #[⟨[⟨0⟩], none⟩, ⟨[⟨1⟩], some ⟨0⟩⟩, ⟨[⟨2⟩], some ⟨0⟩⟩]
  args := [⟨0⟩, ⟨1⟩]

/-- A circuit of one module with that body. -/
def apartCircuit : Circuit where
  name := "M"
  modules := [⟨"M", true, [⟨"c", .uint 1, .input, none, []⟩,
    ⟨"out", .bundle [⟨"x", false, .uint 1⟩], .output, none, []⟩], [], some apartBody⟩]
  paths := []

theorem apartCircuit_built : apartCircuit.Built := by
  intro m hm b hb
  obtain rfl := List.mem_singleton.1 hm
  obtain rfl := Option.some.inj hb
  exact ⟨⟨⟨2⟩, 1⟩, .call (.connect false ⟨1⟩ ⟨2⟩) (.call (.moveTo ⟨⟨2⟩, 0⟩)
    (.call (.wire (.bundle [⟨"x", false, .uint 1⟩]) { name := some "w" }) (.call (.moveTo ⟨⟨1⟩, 0⟩)
      (.call (.when ⟨0⟩ true) (.start ⟨Body.entry, 0⟩ rfl) rfl) rfl) rfl) rfl) rfl⟩

theorem apartBody_ops {x : OpId} {op : Operation} (h : apartBody.op? x = some op) :
    x = ⟨0⟩ ∧ op = ⟨.when ⟨1⟩ (some ⟨2⟩), [⟨0⟩], [], Body.entry, false⟩ ∨
    x = ⟨1⟩ ∧ op = ⟨.wire { name := some "w" }, [], [⟨2⟩], ⟨1⟩, false⟩ ∨
    x = ⟨2⟩ ∧ op = ⟨.connect false, [⟨1⟩, ⟨2⟩], [], ⟨2⟩, false⟩ := by
  obtain ⟨n⟩ := x
  have hlt : n < 3 := lt_of_op? h
  obtain rfl | rfl | rfl : n = 0 ∨ n = 1 ∨ n = 2 := by omega
  · exact .inl ⟨rfl, (Option.some.inj h).symm⟩
  · exact .inr (.inl ⟨rfl, (Option.some.inj h).symm⟩)
  · exact .inr (.inr ⟨rfl, (Option.some.inj h).symm⟩)

theorem apartCircuit_valid : apartCircuit.Valid where
  bodies m hm b hb := by
    obtain rfl := List.mem_singleton.1 hm
    obtain rfl := Option.some.inj hb
    refine ⟨fun {x op v d i} hop hv ho => ?_, fun hop hins houts => ?_, fun hop hk => ?_,
      fun {v t} ht => ?_⟩
    · rcases apartBody_ops hop with ⟨rfl, rfl⟩ | ⟨rfl, rfl⟩ | ⟨rfl, rfl⟩
      · obtain rfl := List.mem_singleton.1 hv
        cases ho
      · cases hv
      · rcases List.mem_pair.1 hv with rfl | rfl
        · cases ho
        · obtain ⟨rfl, -⟩ := Origin.result.inj (Option.some.inj ho)
          decide
    · rcases apartBody_ops hop with ⟨-, rfl⟩ | ⟨-, rfl⟩ | ⟨-, rfl⟩
      · obtain rfl := hins.unique (.cons rfl .nil)
        intro t ht
        rw [List.mem_singleton.1 ht]
        rfl
      · obtain rfl := houts.unique (.cons rfl .nil)
        intro t ht
        rw [List.mem_singleton.1 ht]
        exact ⟨1, rfl, nofun⟩
      · exact ⟨_, hins.unique (.cons rfl (.cons rfl .nil))⟩
    · rcases apartBody_ops hop with ⟨-, rfl⟩ | ⟨-, rfl⟩ | ⟨-, rfl⟩ <;> cases hk
    · obtain ⟨n⟩ := v
      have hlt : n < 3 := lt_of_ty? ht
      obtain rfl | rfl | rfl : n = 0 ∨ n = 1 ∨ n = 2 := by omega
      all_goals
        obtain rfl := Option.some.inj ht
        rfl
  ports m hm p hp := by
    obtain rfl := List.mem_singleton.1 hm
    rcases List.mem_pair.1 hp with rfl | rfl
    · exact ⟨0, rfl, nofun⟩
    · exact ⟨1, rfl, nofun⟩

/-- Validity alone is not enough: the wire is lowered before its reader. -/
theorem apartCircuit_not_lower : apartCircuit.Built ∧ apartCircuit.Valid ∧
    (apartCircuit.modules.map (·.name)).Nodup ∧ ∀ r, apartCircuit.lower {} 0 ≠ .ok r := by
  refine ⟨apartCircuit_built, apartCircuit_valid, by decide, fun r hr => ?_⟩
  have hfail : (apartCircuit.lower {} 0).isOk = false := by decide +kernel
  rw [hr] at hfail
  cases hfail

end Scalarize
