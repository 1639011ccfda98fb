import Scalarize.Lower.Circuit
import Scalarize.Proofs.Body.Forest
import Scalarize.Proofs.Ports
import Scalarize.Proofs.Stage

/-!
# Lowering a module

* `Body.Input`, `Lowering.start` : what a body must be like for its lowering to start;
* `Module.Input`, `Module.Output`, `Module.lower_ends` : a module before and after.
-/

namespace Scalarize

open Body

variable {q : Setting} {R : OpId → Nat}

/-! ## Bodies -/

theorem le_foldl_max {α : Type} {f : α → Nat} {l : List α} {a : α} (h : a ∈ l) (d : Nat) :
    f a ≤ l.foldl (fun d x => max d (f x)) d := by
  have hmono : ∀ (l : List α) (d : Nat), d ≤ l.foldl (fun d x => max d (f x)) d := by
    intro l
    induction l with
    | nil => exact fun d => Nat.le_refl d
    | cons b l ih => exact fun d => Nat.le_trans (Nat.le_max_left _ _) (ih _)
  induction l generalizing d with
  | nil => cases h
  | cons b l ih =>
    rcases List.mem_cons.1 h with rfl | h
    · exact Nat.le_trans (Nat.le_max_right _ _) (hmono _ _)
    · exact ih h _

/-- No value has a deeper type. -/
theorem Body.depth_le_typeDepth {b : Body} {v : ValueId} {t : Ty} (h : b.ty? v = some t) :
    t.depth ≤ b.typeDepth := by
  obtain ⟨x, hx, rfl⟩ := ty?_eq_some_iff.1 h
  unfold typeDepth
  refine Nat.le_trans ?_ (Nat.le_max_left _ _)
  rw [← Array.foldl_toList]
  exact le_foldl_max (f := fun v : Value => v.ty.depth) (Array.mem_toList_iff.2 (Array.mem_of_getElem? hx)) 0

/-- The data type of a memory is less deep than the deepest type of its body. -/
theorem Body.depth_lt_typeDepth {b : Body} {o : OpId} {op : Operation} {m : Memory}
    (hop : b.op? o = some op) (hk : op.kind = .mem m) : m.dataType.depth < b.typeDepth := by
  have hle : op.kind.portDepth ≤ b.typeDepth := by
    unfold typeDepth
    refine Nat.le_trans ?_ (Nat.le_max_right _ _)
    rw [← Array.foldl_toList]
    exact le_foldl_max (f := fun op : Operation => op.kind.portDepth)
      (Array.mem_toList_iff.2 (Array.mem_of_getElem? hop)) 0
  rw [hk] at hle
  exact hle

/-- A body that may be lowered, where `R` bounds how deep the lowering of each operation nests. -/
structure Body.Input (q : Setting) (R : OpId → Nat) (b : Body) : Prop where
  coherent : b.Coherent
  unerased : ∀ {x op}, b.op? x = some op → op.erased = false
  typed : b.Typed (OpKind.Shaped q.strict)
  closed : q.ordered → ∀ {L}, Unfolds b (b.slotsOf Body.entry) L → b.Closed L
  sized : q.must → ∀ {v t}, b.ty? v = some t → t.lastId?.isSome ∧ t.depth ≤ q.depth
  ready : q.must → ∀ {x op outs}, b.op? x = some op → b.Types op.results outs →
    b.Ready q op.kind op.operands outs ∧ b.Suffices q op.kind op.operands outs (R x)
  nested : q.must → ∀ {x x'}, x' ∈ b.inner x → R x' < R x

/-- All operations of the body are pending. -/
theorem Lowering.start {b : Body} {L : List OpId} (h : b.Input q R)
    (hL : Unfolds b (b.slotsOf Body.entry) L) : Lowering q b R L [] [] where
  coherent := h.coherent
  known {x} hx := h.coherent.isSome_of_unfolds hL x (by simpa using hx)
  tracked hop he := by
    simpa using h.coherent.mem_of_unfolds_entry hL
      (fun hop he => absurd he (by simp [h.unerased hop])) hop he
  nodup := by simpa using h.coherent.nodup_of_unfolds_entry hL
  typed _ hop he := h.typed hop he
  plain hop he := absurd he (by simp [h.unerased hop])
  spent hop he := absurd he (by simp [h.unerased hop])
  settled hx := by cases hx
  closed hord := h.closed hord hL
  sized := h.sized
  ready hm _ _ _ _ hop _ houts := h.ready hm hop houts
  quiet _ _ _ _ _ hx := by cases hx
  nested hm _ _ _ hx' := h.nested hm hx'

/-! ## Modules -/

/-- A module that may be lowered. -/
structure Module.Input (q : Setting) (R : OpId → Nat) (m : Module) : Prop where
  body : ∀ {b}, m.body = some b → b.Input q R ∧ b.Types b.args (m.ports.map (·.ty)) ∧
    (∀ {v}, b.origin? v = some .argument → v ∈ b.args) ∧ (q.must → ∀ x, R x < b.loweringDepth)
  ports : q.must → ∀ p ∈ m.ports, Annotated p.annotations p.ty

/-- What becomes of a module. -/
structure Module.Output (q : Setting) (m m' : Module) : Prop where
  name : m'.name = m.name
  entry : m'.entry = m.entry
  whole : ∀ p ∈ m'.ports, p.Whole (q.cx.options.portsMayPreserve m.entry)
  body : ∀ {b'}, m'.body = some b' → ∃ b R D, b' = b.compact ∧ Lowered q b R D (m'.ports.map (·.ty))

/-- All operations of a body are lowered. -/
theorem Lower.lowerBlock_ends {b : Body} {n : Nat} {y : Symbols} {p : Point} (h : b.Input q R)
    (hm : q.must → ∀ x, R x < n) (hy : b.Tracked y) :
    Runs q.must (Lower.lowerBlock q.cx n Body.entry) ⟨⟨b, p⟩, y⟩ fun _ t =>
      ∃ R' L D, Lowering q t.builder.body R' [] [] D ∧ t.builder.body.Tracked t.symbols ∧
        Local b [Body.entry] L t.builder.body := by
  obtain ⟨L, hL⟩ := h.coherent.exists_unfolds_slotsOf Body.entry
  obtain ⟨blk, hblk, -⟩ := h.coherent.entry
  refine ((Lowering.stages q).lowerBlock_runs (P := []) (L := L) (D := []) (R := R)
    ⟨by simpa using Lowering.start h hL, hy⟩ (by simp [hblk]) (.inl rfl) hL
      fun hmust x _ => hm hmust x).mono ?_
  rintro _ t ⟨C, N, R', -, -, ⟨hlow, htr⟩, hloc, -, -⟩
  exact ⟨R', L, N, by simpa using hlow, htr, hloc⟩

/-- The ports of a module whose body is lowered. -/
theorem Module.lowerPorts_ends {m : Module} {body : Option Body} {y : Symbols} {S : OpId → Nat}
    {D : List OpId} (h : m.Input q R)
    (hholds : (⟨body, y⟩ : PortState).Holds q S D m.isExternal (m.ports.map (·.ty)))
    (htr : (⟨body, y⟩ : PortState).Tracks m.ports) :
    Ends q.must (do
      let (ports, s) ← (Lower.ports (q.cx.options.portsMayPreserve m.entry) m.ports).run ⟨body, y⟩
      return ({ m with ports, body := s.body.map Body.compact }, s.symbols))
      fun r => Module.Output q m r.1 ∧ r.2.Targets (Target.Found r.1.body r.1.ports) := by
  refine Ends.bind (Lower.ports_runs hholds htr h.ports) ?_
  rintro ⟨ports, s⟩ ⟨hholds', htr', hwhole⟩
  refine .pure ⟨⟨rfl, ?_, hwhole, fun {b'} hb' => ?_⟩, Symbols.Targets.mono htr' fun t ht => ?_⟩
  · have hext := hholds'.1
    simp only [Module.isExternal] at hext
    simp [Module.entry, Module.isExternal, hext]
  · obtain ⟨b, hb, rfl⟩ := Option.map_eq_some_iff.1 hb'
    exact ⟨b, S, D, rfl, hholds'.2 b hb⟩
  · unfold Target.Found at ht ⊢
    split
    next o ho =>
      simp only [ho] at ht
      obtain ⟨b, hb, hd⟩ := ht
      exact ⟨b.compact, by simp only [hb]; rfl, hd⟩
    next ho => simpa only [ho] using ht

/-- A module is lowered, and every target is found in it. -/
theorem Module.lower_ends {m : Module} {generated : Nat} (h : m.Input q R) :
    Ends q.must (m.lower q.cx generated) fun r => Module.Output q m r.1 ∧
      r.2.Targets (Target.Found r.1.body r.1.ports) := by
  unfold Module.lower
  dsimp only
  cases hb : m.body with
  | none =>
    have hext : m.isExternal = true := by simp [Module.isExternal, hb]
    refine Module.lowerPorts_ends (S := R) (D := []) h ⟨by simp [hext], fun b hb => by cases hb⟩ ?_
    exact Symbols.targets_ofModule m generated
  | some b =>
    have hext : m.isExternal = false := by simp [Module.isExternal, hb]
    obtain ⟨hin, hargs, hall, hdepth⟩ := h.body hb
    obtain ⟨blk, hblk, -⟩ := hin.coherent.entry
    refine (slotCount_ends (Q := fun _ => True) (fun _ _ => trivial) fun _ => by simp [hblk]).bind
      fun n _ => ?_
    refine Ends.bind (Lower.lowerBlock_ends hin hdepth (Symbols.targets_ofModule m generated)) ?_
    rintro ⟨⟨⟩, t⟩ ⟨R', L, D, hlow, htr, hloc⟩
    dsimp only at hlow htr hloc
    refine Module.lowerPorts_ends (S := R') (D := D) h ⟨by simp [hext], fun b' hb' => ?_⟩ ?_
    · obtain rfl := Option.some.inj hb'
      refine ⟨hlow, ?_, fun {v x} hv hnot _ => hnot ?_⟩
      · rw [hloc.args]
        exact hargs.imp fun v t ht => hloc.ty? ht
      · rw [hloc.args]
        exact hall (hloc.argument hv)
    · refine Symbols.Targets.mono htr fun t' ⟨o, ho, hd⟩ => ?_
      simp only [Target.Found, ho]
      exact ⟨_, rfl, hd⟩

end Scalarize
