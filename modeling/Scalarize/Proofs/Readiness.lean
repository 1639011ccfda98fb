import Scalarize.Lower.Circuit
import Scalarize.Proofs.Annotation
import Scalarize.Proofs.Body.Rewiring

/-!
# What operations must be like

* `Setting` : what a lowering is proved under;
* `OpKind.Settled` : nothing about an operation is left to lower;
* `OpKind.Checked`, `Body.Ready` : the lowering of an operation succeeds;
* `Body.Accesses` : how many positions are computed on the way to a value;
* `Body.Suffices` : how deep the lowering of an operation may nest;
* `Body.Agrees` : two bodies agree on a set of values and all that these are made from.
-/

namespace Scalarize

/-- What a lowering is proved under. -/
structure Setting where
  /-- Failures are excluded. -/
  must : Prop
  /-- Every operand is made in front of its reader. -/
  ordered : Prop
  ordered_of_must : must → ordered
  cx : Context
  /-- Aggregates are split everywhere. -/
  splits_of_must : must → cx.options.preserveAggregate = false
  /-- No type is deeper. -/
  depth : Nat
  /-- Constants and primitives are ground, and an instance has one result for each port. -/
  strict : Prop
  strict_of_must : must → strict

/-! ## Types -/

namespace Ty

/-- The part at the end of a path of positions. -/
def sub? : Ty → List Nat → Option Ty
  | t, [] => some t
  | t, i :: path => (t.child? i).bind (·.sub? path)

theorem sub?_child {t c : Ty} {i : Nat} (h : t.child? i = some c) (path : List Nat) :
    t.sub? (i :: path) = c.sub? path := by
  rw [sub?, h, Option.bind_some]

/-- The same structure, down to ground parts. -/
def Alike (a t : Ty) : Prop :=
  ∀ path, (a.sub? path).isSome = (t.sub? path).isSome ∧ ∀ u v, a.sub? path = some u →
    t.sub? path = some v → u.isGround = v.isGround

theorem Alike.refl (t : Ty) : Alike t t := by
  refine fun path => ⟨rfl, fun u v hu hv => ?_⟩
  rw [hu] at hv
  rw [Option.some.inj hv]

theorem Alike.isGround_eq {a t : Ty} (h : Alike a t) : a.isGround = t.isGround :=
  (h []).2 a t rfl rfl

theorem Alike.child {a t c : Ty} {i : Nat} (h : Alike a t) (hc : t.child? i = some c) :
    ∃ d, a.child? i = some d ∧ Alike d c := by
  have h₁ := (h [i]).1
  have hi : t.sub? [i] = some c := by
    rw [sub?_child hc]
    rfl
  rw [hi, Option.isSome_some, Option.isSome_iff_exists] at h₁
  obtain ⟨d, hd⟩ := h₁
  have hd' : a.child? i = some d := by
    obtain ⟨d', hd', he⟩ := Option.bind_eq_some_iff.1 hd
    rw [hd', ← he]
    rfl
  refine ⟨d, hd', fun path => ?_⟩
  have := h (i :: path)
  rwa [sub?_child hc, sub?_child hd'] at this

end Ty

/-! ## Kinds -/

namespace OpKind

/-- Nothing about an operation of the kind is left to lower. -/
def Settled (cx : Context) : OpKind → List Ty → List Ty → Prop
  | subaccess, _, _ => False
  | bitcast, ins, outs => (∀ t ∈ ins, t.isGround) ∧ ∀ t ∈ outs, t.isGround
  | connect _, ins, _ => ∀ t, ins[0]? = some t → t.isGround
  | mem m, _, _ => m.dataType.isGround
  | inst i, _, outs => ∃ entry, cx.modules.get? i.moduleName = some entry ∧
    ∀ e ∈ i.ports.zip outs, e.2.isGround ∨ cx.options.portsMayPreserve entry ∧ e.2.preservable
  | wire _, _, outs | reg _, _, outs | regReset _, _, outs | node _, _, outs | invalid, _, outs
  | mux, _, outs | multiMux, _, outs | unrealizedCast, _, outs =>
    ∀ t ∈ outs, t.isGround ∨ cx.options.preserveAggregate ∧ t.preservable
  | _, _, _ => True

/-- The types of operands and results with which the lowering of an operation succeeds. -/
def Checked (q : Setting) : OpKind → List Ty → List Ty → Prop
  | wire d, ins, outs => ins = [] ∧ ∃ t, outs = [t] ∧ Annotated d.annotations t
  | reg d, ins, outs => ∃ c t, ins = [c] ∧ outs = [t] ∧ c.isGround ∧ Annotated d.annotations t
  | regReset d, ins, outs => ∃ c r t, ins = [c, r, t] ∧ outs = [t] ∧ c.isGround ∧ r.isGround ∧
    Annotated d.annotations t
  | node d, ins, outs => ∃ t, ins = [t] ∧ outs = [t] ∧ Annotated d.annotations t
  | mem m, ins, outs => ins = [] ∧ outs = m.portTypes ∧ m.dataType.lastId?.isSome ∧
    m.dataType.depth < q.depth ∧
    ∀ p ∈ m.ports, (Memory.portType m.depth m.dataType p.kind).span?.isSome
  | inst i, ins, outs => ins = [] ∧ (q.cx.modules.get? i.moduleName).isSome ∧
    List.Forall₂ (fun (p : InstancePort) t => Annotated p.annotations t) i.ports outs
  | constant _, ins, outs => ins = [] ∧ ∃ t, outs = [t] ∧ t.isGround
  | invalid, ins, outs => ins = [] ∧ ∃ t, outs = [t]
  | subfield i, ins, outs => Shaped True (subfield i) ins outs
  | subindex i, ins, outs => Shaped True (subindex i) ins outs
  | subaccess, ins, outs => ∃ e n x, ins = [.vector e n, x] ∧ outs = [e] ∧ x.isGround
  | mux, ins, outs => ∃ s t, ins = [s, t, t] ∧ outs = [t] ∧ s.isGround
  | multiMux, ins, outs => ∃ x rest t, ins = x :: t :: rest ∧ outs = [t] ∧ x.isGround ∧
    ∀ u ∈ rest, u = t
  | bitcast, ins, outs => ∃ a t w u, ins = [a] ∧ outs = [t] ∧ a.width = some w ∧ w < UInt32.size ∧
    t.width = some u ∧ u < UInt32.size
  | unrealizedCast, ins, outs => ∃ a t, ins = [a] ∧ outs = [t] ∧
    a.Alike t
  | prim _, ins, outs => (∀ t ∈ ins, t.isGround) ∧ ∃ t, outs = [t] ∧ t.isGround
  | connect _, ins, outs => ∃ t, ins = [t, t] ∧ outs = []
  | when _ _, ins, outs => ∃ c, ins = [c] ∧ c.isGround ∧ outs = []

/-- The annotations of a declaration of the kind fit the types of its results. Memories and instances
carry those of their results elsewhere. -/
def Declares : OpKind → List Ty → Prop
  | wire d, outs | reg d, outs | regReset d, outs | node d, outs =>
    ∀ t ∈ outs, Annotated d.annotations t
  | _, _ => True

theorem Checked.mapDecl {q : Setting} {kind : OpKind} {ins outs : List Ty} {f : Decl → Decl}
    (h : kind.Checked q ins outs) (hd : (kind.mapDecl f).Declares outs) :
    (kind.mapDecl f).Checked q ins outs := by
  cases kind with
  | wire d =>
    obtain ⟨rfl, t, rfl, -⟩ := h
    exact ⟨rfl, t, rfl, hd t (by simp)⟩
  | reg d =>
    obtain ⟨c, t, rfl, rfl, hc, -⟩ := h
    exact ⟨c, t, rfl, rfl, hc, hd t (by simp)⟩
  | regReset d =>
    obtain ⟨c, r, t, rfl, rfl, hc, hr, -⟩ := h
    exact ⟨c, r, t, rfl, rfl, hc, hr, hd t (by simp)⟩
  | node d =>
    obtain ⟨t, rfl, rfl, -⟩ := h
    exact ⟨t, rfl, rfl, hd t (by simp)⟩
  | _ => exact h

theorem settled_iff_of_bare_eq {cx : Context} {k k' : OpKind} {ins outs : List Ty}
    (h : k.bare = k'.bare) : k.Settled cx ins outs ↔ k'.Settled cx ins outs := by
  have hb : ∀ k : OpKind, k.bare.Settled cx ins outs ↔ k.Settled cx ins outs := fun k => by
    cases k <;> rfl
  rw [← hb k, h, hb]

theorem settled_stable (cx : Context) : Stable (Settled cx) := by
  intro kind ins ins' outs ha h
  cases kind with
  | bitcast =>
    refine ⟨fun t ht => ?_, h.2⟩
    obtain ⟨i, hi, rfl⟩ := List.mem_iff_getElem.1 ht
    have := (ha.get (i := i) (by rw [ha.length_eq]; exact hi) hi).isGround_eq
    rw [List.get_eq_getElem, List.get_eq_getElem] at this
    rw [← this]
    exact h.1 _ (List.getElem_mem _)
  | connect _ =>
    cases ha with
    | nil => exact h
    | cons h₁ _ =>
      intro t ht
      obtain rfl := Option.some.inj ht
      rw [← h₁.isGround_eq]
      exact h _ rfl
  | _ => exact h

end OpKind

/-! ## Values and what they are made from -/

namespace Body

variable {q : Setting} {b b' : Body} {v w x : ValueId} {C : ValueId → Prop}

/-- The literal that makes a value. -/
def Literal (b : Body) (x : ValueId) (n : Nat) : Prop :=
  ∃ d i op, b.origin? x = some (.result d i) ∧ b.op? d = some op ∧ op.kind = .constant n

/-- A position that must be computed, or a vector without elements. -/
def Computed (b : Body) (w x : ValueId) : Prop :=
  (∃ e, b.ty? w = some (.vector e 0)) ∨ ∀ n, ¬b.Literal x n

/-- At most `n` positions are computed on the way from the value that all accessors start from. -/
inductive Accesses (b : Body) : ValueId → Nat → Prop
  | argument {v : ValueId} {n : Nat} (hv : b.origin? v = some .argument) : Accesses b v n
  | result {v : ValueId} {d : OpId} {i n : Nat} {op : Operation} (hv : b.origin? v = some (.result d i))
      (hd : b.op? d = some op) (hk : op.kind.isAccessor = false) : Accesses b v n
  | fixed {v w : ValueId} {d : OpId} {i j n : Nat} {op : Operation}
      (hv : b.origin? v = some (.result d i)) (hd : b.op? d = some op)
      (hk : op.kind.fixedIndex? = some j) (hops : op.operands = [w]) (hw : Accesses b w n) :
      Accesses b v n
  | computed {v w x : ValueId} {d : OpId} {i n : Nat} {op : Operation}
      (hv : b.origin? v = some (.result d i)) (hd : b.op? d = some op) (hk : op.kind = .subaccess)
      (hops : op.operands = [w, x]) (hw : Accesses b w n) : Accesses b v (n + 1)

/-! ## Bodies that agree -/

/-- `b'` agrees with `b` on the values `C` and on all operations behind them. -/
structure Agrees (b : Body) (C : ValueId → Prop) (b' : Body) : Prop where
  ty? : ∀ {v}, C v → b'.ty? v = b.ty? v
  origin? : ∀ {v}, C v → b'.origin? v = b.origin? v
  made : ∀ {v d i}, C v → b.origin? v = some (.result d i) → ∃ op op', b.op? d = some op ∧
    b'.op? d = some op' ∧ op'.kind.bare = op.kind.bare ∧ op'.operands = op.operands ∧
    ∀ w ∈ op.operands, C w

theorem Agrees.types (h : Agrees b C b') {vs : List ValueId} {ts : List Ty} (hv : b.Types vs ts)
    (hC : ∀ v ∈ vs, C v) : b'.Types vs ts :=
  hv.mono fun v hv => h.ty? (hC v hv)

theorem Agrees.op? (h : Agrees b C b') {d : OpId} {i : Nat} {op : Operation} (hv : C v)
    (hr : b.origin? v = some (.result d i)) (hd : b.op? d = some op) :
    b'.origin? v = some (.result d i) ∧ ∃ op', b'.op? d = some op' ∧ op'.kind.bare = op.kind.bare ∧
      op'.operands = op.operands ∧ ∀ w ∈ op.operands, C w := by
  obtain ⟨op₀, op', hop₀, hop', hb, hrest⟩ := h.made hv hr
  rw [hd] at hop₀
  obtain rfl := Option.some.inj hop₀
  exact ⟨by rw [h.origin? hv, hr], op', hop', hb, hrest⟩

theorem Agrees.literal (h : Agrees b C b') {n : Nat} (hx : C x) : b'.Literal x n ↔ b.Literal x n := by
  constructor
  · rintro ⟨d, i, op', hr, hop', hk⟩
    rw [h.origin? hx] at hr
    obtain ⟨op, op'', hop, hop'', hb, -⟩ := h.made hx hr
    rw [hop'] at hop''
    obtain rfl := Option.some.inj hop''
    exact ⟨d, i, op, hr, hop, (OpKind.eq_of_bare_eq hb (by rw [hk]; rfl)).symm.trans hk⟩
  · rintro ⟨d, i, op, hr, hop, hk⟩
    obtain ⟨hr', op', hop', hb, -⟩ := h.op? hx hr hop
    refine ⟨d, i, op', hr', hop', ?_⟩
    rw [← hk]
    exact (OpKind.eq_of_bare_eq hb.symm (by rw [hk]; rfl)).symm

theorem Agrees.computed (h : Agrees b C b') (hw : C w) (hx : C x) :
    b'.Computed w x ↔ b.Computed w x := by
  unfold Computed
  rw [h.ty? hw]
  simp only [h.literal hx]

theorem Accesses.agrees {n : Nat} (h : Accesses b v n) (hb : Agrees b C b') (hv : C v) :
    Accesses b' v n := by
  induction h with
  | argument hr => exact .argument (by rw [hb.origin? hv, hr])
  | result hr hd hk =>
    obtain ⟨hr', op', hop', hbare, -⟩ := hb.op? hv hr hd
    refine .result hr' hop' ?_
    rw [← OpKind.isAccessor_bare, hbare, OpKind.isAccessor_bare, hk]
  | fixed hr hd hk hops _ ih =>
    obtain ⟨hr', op', hop', hbare, he, hC⟩ := hb.op? hv hr hd
    rw [← OpKind.fixedIndex?_eq_of_bare_eq hbare] at hk
    exact .fixed hr' hop' hk (by rw [he, hops]) (ih (hC _ (by simp [hops])))
  | computed hr hd hk hops _ ih =>
    obtain ⟨hr', op', hop', hbare, he, hC⟩ := hb.op? hv hr hd
    refine .computed hr' hop' ?_ (by rw [he, hops]) (ih (hC _ (by simp [hops])))
    rw [← OpKind.eq_of_bare_eq hbare.symm (by rw [hk]; rfl), hk]

/-! ## Readiness -/

/-- The lowering of an operation with these operands and result types succeeds. -/
structure Ready (q : Setting) (b : Body) (kind : OpKind) (vs : List ValueId) (outs : List Ty) :
    Prop where
  types : ∃ ins, b.Types vs ins ∧ kind.Checked q ins outs
  sized : ∀ t ∈ outs, t.lastId?.isSome ∧ t.depth ≤ q.depth
  /-- A literal position lies within the vector, unless this is empty. -/
  literal : ∀ {w x e m n}, kind = .subaccess → vs = [w, x] → b.ty? w = some (.vector e m) →
    b.Literal x n → m = 0 ∨ n < m

/-- How deep the lowering of an operation may nest; a guard nests as deep as what it guards. -/
def Suffices (q : Setting) (b : Body) (kind : OpKind) (vs : List ValueId) (outs : List Ty) (r : Nat) :
    Prop :=
  match kind with
  | .mem m => m.dataType.depth * (2 * q.depth + 2) + q.depth + 4 ≤ r
  | .inst i => ∀ entry, q.cx.modules.get? i.moduleName = some entry → ∀ t ∈ outs,
    ¬(q.cx.options.portsMayPreserve entry ∧ t.preservable) → t.depth ≤ r
  | .subaccess => ∀ t ∈ outs, t.depth < r
  | .bitcast => ∀ v ∈ vs, ∀ t, b.ty? v = some t → ∀ u ∈ outs, t.depth + u.depth ≤ r
  | .connect _ => ∀ v t, vs[0]? = some v → b.ty? v = some t →
    ∃ n, b.Accesses v n ∧ t.depth * (2 * q.depth + 2) + 2 * n + q.depth + 3 ≤ r
  | .constant _ | .prim _ | .subfield _ | .subindex _ | .when _ _ => True
  | _ => ∀ t ∈ outs, t.depth ≤ r

/-- An operation other than a computed access is ready if its types are as they should be. -/
theorem Ready.of_checked {kind : OpKind} {vs : List ValueId} {ins outs : List Ty}
    (hne : kind ≠ .subaccess) (hins : b.Types vs ins)
    (hc : kind.Checked q ins outs) (hs : ∀ t ∈ outs, t.lastId?.isSome ∧ t.depth ≤ q.depth) :
    Ready q b kind vs outs where
  types := ⟨ins, hins, hc⟩
  sized := hs
  literal h := absurd h hne

theorem Ready.mapDecl {kind : OpKind} {vs : List ValueId} {outs : List Ty} {f : Decl → Decl}
    (h : Ready q b kind vs outs) (hd : (kind.mapDecl f).Declares outs) :
    Ready q b (kind.mapDecl f) vs outs where
  types := by
    obtain ⟨ins, hins, hc⟩ := h.types
    exact ⟨ins, hins, hc.mapDecl hd⟩
  sized := h.sized
  literal hk := h.literal (by cases kind <;> first | rfl | cases hk)

theorem Suffices.mapDecl {kind : OpKind} {vs : List ValueId} {outs : List Ty} {r : Nat}
    {f : Decl → Decl} (h : Suffices q b kind vs outs r) : Suffices q b (kind.mapDecl f) vs outs r := by
  cases kind <;> exact h

theorem Ready.agrees {kind : OpKind} {vs : List ValueId} {outs : List Ty} (h : Ready q b kind vs outs)
    (hb : Agrees b C b') (hv : ∀ v ∈ vs, C v) : Ready q b' kind vs outs where
  types := by
    obtain ⟨ins, hins, hc⟩ := h.types
    exact ⟨ins, hb.types hins hv, hc⟩
  sized := h.sized
  literal {w x e m n} hk hvs hw hx := by
    rw [hb.ty? (hv w (by simp [hvs]))] at hw
    exact h.literal hk hvs hw ((hb.literal (hv x (by simp [hvs]))).1 hx)

theorem Suffices.agrees {kind : OpKind} {vs : List ValueId} {outs : List Ty} {r : Nat}
    (h : Suffices q b kind vs outs r) (hb : Agrees b C b') (hv : ∀ v ∈ vs, C v) :
    Suffices q b' kind vs outs r := by
  cases kind with
  | bitcast =>
    intro v hmem t ht
    rw [hb.ty? (hv v hmem)] at ht
    exact h v hmem t ht
  | connect _ =>
    intro v t hv' ht
    have hmem := List.mem_of_getElem? hv'
    rw [hb.ty? (hv v hmem)] at ht
    obtain ⟨n, hn, hle⟩ := h v t hv' ht
    exact ⟨n, hn.agrees hb (hv v hmem), hle⟩
  | _ => exact h

end Body

end Scalarize
