import Scalarize.Proofs.Body.Coherent

/-!
# Shapes of operations

* `Ty.Agree` : the same type, or both ground: what reading one value in place of another may change;
* `OpKind.Shaped` : the types of operands and results that the builder gives an operation of a kind;
* `Body.Types`, `Body.Typed` : the types of a list of values, and a typing rule kept by all operations
  that stand;
* `OpKind.bare` : a kind without its declaration.
-/

namespace Scalarize

/-! ## Types that agree -/

/-- The same type, or both ground. -/
def Ty.Agree (s t : Ty) : Prop := s = t ∨ s.isGround ∧ t.isGround

namespace Ty.Agree

variable {s t u : Ty}

theorem refl (t : Ty) : Agree t t := .inl rfl

theorem symm (h : Agree s t) : Agree t s := by
  rcases h with rfl | ⟨hs, ht⟩
  · exact .inl rfl
  · exact .inr ⟨ht, hs⟩

theorem trans (h : Agree s t) (h' : Agree t u) : Agree s u := by
  rcases h with rfl | ⟨hs, ht⟩
  · exact h'
  rcases h' with rfl | ⟨-, hu⟩
  · exact .inr ⟨hs, ht⟩
  · exact .inr ⟨hs, hu⟩

theorem isGround_eq (h : Agree s t) : s.isGround = t.isGround := by
  rcases h with rfl | ⟨hs, ht⟩
  · rfl
  · rw [hs, ht]

/-- Aggregates agree with themselves only. -/
theorem eq_of_not_isGround (h : Agree s t) (hs : s.isGround = false) : t = s := by
  rcases h with rfl | ⟨hs', -⟩
  · rfl
  · rw [hs] at hs'
    cases hs'

theorem eq_bundle {fs : List Field} (h : Agree (.bundle fs) t) : t = .bundle fs :=
  h.eq_of_not_isGround rfl

theorem eq_vector {e : Ty} {n : Nat} (h : Agree (.vector e n) t) : t = .vector e n :=
  h.eq_of_not_isGround rfl

end Ty.Agree

/-! ## Kinds without declarations -/

namespace OpKind

/-- The kind with an empty declaration, if it carries one. -/
def bare (k : OpKind) : OpKind := k.mapDecl fun _ => {}

theorem bare_mapDecl (f : Decl → Decl) (k : OpKind) : (k.mapDecl f).bare = k.bare := by
  cases k <;> rfl

theorem blocks_bare (k : OpKind) : k.bare.blocks = k.blocks := by cases k <;> rfl

theorem isAccessor_bare (k : OpKind) : k.bare.isAccessor = k.isAccessor := by cases k <;> rfl

theorem fixedIndex?_bare (k : OpKind) : k.bare.fixedIndex? = k.fixedIndex? := by cases k <;> rfl

theorem blocks_eq_of_bare_eq {k k' : OpKind} (h : k.bare = k'.bare) : k.blocks = k'.blocks := by
  rw [← blocks_bare k, h, blocks_bare]

theorem fixedIndex?_eq_of_bare_eq {k k' : OpKind} (h : k.bare = k'.bare) :
    k.fixedIndex? = k'.fixedIndex? := by
  rw [← fixedIndex?_bare k, h, fixedIndex?_bare]

theorem isAccessor_eq_of_bare_eq {k k' : OpKind} (h : k.bare = k'.bare) :
    k.isAccessor = k'.isAccessor := by
  rw [← isAccessor_bare k, h, isAccessor_bare]

theorem fixedIndex?_eq_none {k : OpKind} (h : k.isAccessor = false) : k.fixedIndex? = none := by
  cases k <;> first | rfl | cases h

/-- A kind without a declaration is what it is without one. -/
theorem eq_of_bare_eq {k k' : OpKind} (h : k.bare = k'.bare) (hk : k.decl? = none) : k = k' := by
  cases k <;> cases k' <;> simp_all [bare, mapDecl, decl?]

/-! ## Shapes -/

/-- The types of operands and results that the builder gives an operation of a kind. Where `strict`
holds, constants and primitives are ground, and an instance has one result for each port. -/
def Shaped (strict : Prop) : OpKind → List Ty → List Ty → Prop
  | wire _, ins, outs => ins = [] ∧ ∃ t, outs = [t]
  | reg _, ins, outs => ∃ c t, ins = [c] ∧ outs = [t]
  | regReset _, ins, outs => ∃ c r i t, ins = [c, r, i] ∧ outs = [t]
  | node _, ins, outs => ∃ a t, ins = [a] ∧ outs = [t] ∧ a.Agree t
  | mem m, ins, outs => ins = [] ∧ outs = m.portTypes
  | inst i, ins, outs => ins = [] ∧ (strict → outs.length = i.ports.length)
  | constant _, ins, outs => ins = [] ∧ ∃ t, outs = [t] ∧ (strict → t.isGround)
  | invalid, ins, outs => ins = [] ∧ ∃ t, outs = [t]
  | subfield i, ins, outs => ∃ fs f, ins = [.bundle fs] ∧ fs[i]? = some f ∧ outs = [f.ty]
  | subindex i, ins, outs => ∃ e n, ins = [.vector e n] ∧ i < n ∧ outs = [e]
  | subaccess, ins, outs => ∃ e n x, ins = [.vector e n, x] ∧ outs = [e]
  | mux, ins, outs => ∃ s h l t, ins = [s, h, l] ∧ outs = [t] ∧ h.Agree t
  | multiMux, ins, outs => ∃ x f rest t, ins = x :: f :: rest ∧ outs = [t] ∧ f.Agree t
  | bitcast, ins, outs => ∃ a t, ins = [a] ∧ outs = [t]
  | unrealizedCast, ins, outs => ∃ a t, ins = [a] ∧ outs = [t]
  | prim _, _, outs => ∃ t, outs = [t] ∧ (strict → t.isGround)
  | connect _, ins, outs => ∃ d s, ins = [d, s] ∧ outs = []
  | when _ _, ins, outs => ∃ c, ins = [c] ∧ outs = []

/-- A rule for the types of operations does not tell agreeing operand types apart. -/
def Stable (T : OpKind → List Ty → List Ty → Prop) : Prop :=
  ∀ {kind ins ins' outs}, List.Forall₂ Ty.Agree ins ins' → T kind ins outs → T kind ins' outs

variable {strict : Prop}

theorem Shaped.mono {strict' : Prop} {kind : OpKind} {ins outs : List Ty}
    (h : kind.Shaped strict ins outs) (hs : strict' → strict) : kind.Shaped strict' ins outs := by
  cases kind with
  | inst _ => exact ⟨h.1, fun h' => h.2 (hs h')⟩
  | constant _ =>
    obtain ⟨hi, t, ho, ht⟩ := h
    exact ⟨hi, t, ho, fun h' => ht (hs h')⟩
  | prim _ =>
    obtain ⟨t, ho, ht⟩ := h
    exact ⟨t, ho, fun h' => ht (hs h')⟩
  | _ => exact h

theorem shaped_stable : Stable (Shaped strict) := by
  intro kind ins ins' outs ha h
  cases kind with
  | wire _ | invalid | constant _ | mem _ | inst _ =>
    obtain ⟨rfl, h⟩ := h
    cases ha
    exact ⟨rfl, h⟩
  | reg _ | bitcast | unrealizedCast =>
    obtain ⟨c, t, rfl, rfl⟩ := h
    cases ha with | cons _ ha => cases ha; exact ⟨_, _, rfl, rfl⟩
  | regReset _ =>
    obtain ⟨c, r, i, t, rfl, rfl⟩ := h
    cases ha with | cons _ ha =>
    cases ha with | cons _ ha =>
    cases ha with | cons _ ha => cases ha; exact ⟨_, _, _, _, rfl, rfl⟩
  | node _ =>
    obtain ⟨a, t, rfl, rfl, hat⟩ := h
    cases ha with | cons h₁ ha => cases ha; exact ⟨_, _, rfl, rfl, h₁.symm.trans hat⟩
  | subfield i =>
    obtain ⟨fs, f, rfl, hf, rfl⟩ := h
    cases ha with | cons h₁ ha => cases ha; exact ⟨fs, f, by rw [h₁.eq_bundle], hf, rfl⟩
  | subindex i =>
    obtain ⟨e, n, rfl, hi, rfl⟩ := h
    cases ha with | cons h₁ ha => cases ha; exact ⟨e, n, by rw [h₁.eq_vector], hi, rfl⟩
  | subaccess =>
    obtain ⟨e, n, x, rfl, rfl⟩ := h
    cases ha with | cons h₁ ha =>
    cases ha with | cons h₂ ha => cases ha; exact ⟨e, n, _, by rw [h₁.eq_vector], rfl⟩
  | mux =>
    obtain ⟨s, h, l, t, rfl, rfl, hht⟩ := h
    cases ha with | cons _ ha =>
    cases ha with | cons h₂ ha =>
    cases ha with | cons _ ha => cases ha; exact ⟨_, _, _, _, rfl, rfl, h₂.symm.trans hht⟩
  | multiMux =>
    obtain ⟨x, f, rest, t, rfl, rfl, hft⟩ := h
    cases ha with | cons _ ha =>
    cases ha with | cons h₂ ha => exact ⟨_, _, _, _, rfl, rfl, h₂.symm.trans hft⟩
  | prim _ => exact h
  | connect _ =>
    obtain ⟨d, s, rfl, rfl⟩ := h
    cases ha with | cons _ ha =>
    cases ha with | cons _ ha => cases ha; exact ⟨_, _, rfl, rfl⟩
  | when _ _ =>
    obtain ⟨c, rfl, rfl⟩ := h
    cases ha with | cons _ ha => cases ha; exact ⟨_, rfl, rfl⟩

theorem shaped_mapDecl {kind : OpKind} {ins outs : List Ty} (f : Decl → Decl)
    (h : kind.Shaped strict ins outs) : (kind.mapDecl f).Shaped strict ins outs := by
  cases kind <;> exact h

theorem shaped_iff_of_bare_eq {k k' : OpKind} {ins outs : List Ty} (h : k.bare = k'.bare) :
    k.Shaped strict ins outs ↔ k'.Shaped strict ins outs := by
  have hb : ∀ k : OpKind, k.bare.Shaped strict ins outs ↔ k.Shaped strict ins outs := fun k => by
    cases k <;> rfl
  rw [← hb k, h, hb]

end OpKind

/-! ## Typing of bodies -/

namespace Body

variable {b b' : Body} {v : ValueId} {vs : List ValueId} {ts : List Ty}

/-- The types of values, in order. -/
def Types (b : Body) (vs : List ValueId) (ts : List Ty) : Prop :=
  List.Forall₂ (fun v t => b.ty? v = some t) vs ts

/-- Every operation that stands keeps the typing rule. -/
def Typed (T : OpKind → List Ty → List Ty → Prop) (b : Body) : Prop :=
  ∀ {o op}, b.op? o = some op → op.erased = false →
    ∃ ins outs, b.Types op.operands ins ∧ b.Types op.results outs ∧ T op.kind ins outs

theorem Types.mono (h : b.Types vs ts) (hb : ∀ v ∈ vs, b'.ty? v = b.ty? v) : b'.Types vs ts := by
  induction h with
  | nil => exact .nil
  | cons hv _ ih =>
    refine .cons ?_ (ih fun v hv => hb v (List.mem_cons_of_mem _ hv))
    rw [hb _ List.mem_cons_self, hv]

theorem Types.unique {ts' : List Ty} (h : b.Types vs ts) (h' : b.Types vs ts') : ts = ts' := by
  induction h generalizing ts' with
  | nil => cases h'; rfl
  | cons hv _ ih =>
    cases h' with
    | cons hv' h' =>
      rw [ih h']
      rw [hv] at hv'
      rw [Option.some.inj hv']

theorem Types.singleton {t : Ty} (h : b.Types vs [t]) : ∃ v, b.ty? v = some t ∧ vs = [v] := by
  cases h with
  | cons hv h =>
    cases h
    exact ⟨_, hv, rfl⟩

theorem Types.pair {s t : Ty} (h : b.Types vs [s, t]) :
    ∃ v w, b.ty? v = some s ∧ b.ty? w = some t ∧ vs = [v, w] := by
  cases h with | cons hv h => cases h with | cons hw h => cases h; exact ⟨_, _, hv, hw, rfl⟩

theorem Types.triple {s t u : Ty} (h : b.Types vs [s, t, u]) :
    ∃ v w x, b.ty? v = some s ∧ b.ty? w = some t ∧ b.ty? x = some u ∧ vs = [v, w, x] := by
  cases h with | cons hv h =>
  obtain ⟨w, x, hw, hx, rfl⟩ := pair h
  exact ⟨_, w, x, hv, hw, hx, rfl⟩

theorem Types.getElem? (h : b.Types vs ts) {i : Nat} (hv : vs[i]? = some v) :
    ∃ t, ts[i]? = some t ∧ b.ty? v = some t := by
  induction h generalizing i with
  | nil => simp at hv
  | cons h₁ _ ih =>
    cases i with
    | zero =>
      obtain rfl : _ = v := by simpa using hv
      exact ⟨_, rfl, h₁⟩
    | succ i => exact ih (by simpa using hv)

theorem Types.lt (h : b.Types vs ts) : ∀ v ∈ vs, v.index < b.values.size := by
  intro v hv
  obtain ⟨i, hi⟩ := List.mem_iff_getElem?.1 hv
  obtain ⟨t, -, ht⟩ := h.getElem? hi
  rw [← isSome_ty?, ht]
  rfl

end Body

end Scalarize
