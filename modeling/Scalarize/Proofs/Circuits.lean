import Scalarize.Proofs.Modules

/-!
# Lowering a circuit

* `Body.Reannotated`, `Module.Reannotated` : only annotations differ;
* `Circuit.redirectTarget?_spec`, `Circuit.followRenames_ends` : following the renames changes nothing
  else, and succeeds if every target is found;
* `Circuit.lower_ends` : what holds of every module holds of the circuit.
-/

namespace Scalarize

open Body

variable {must : Prop}

/-! ## Other annotations -/

/-- Only the annotations of declarations differ. -/
structure Body.Reannotated (b b' : Body) : Prop where
  values : b'.values = b.values
  blocks : b'.blocks = b.blocks
  args : b'.args = b.args
  op? : ∀ x, ∃ f : List Annotation → List Annotation, b'.op? x = (b.op? x).map fun op =>
    { op with kind := op.kind.mapDecl fun d => { d with annotations := f d.annotations } }

/-- Only the annotations differ. -/
def Port.Reannotated (p p' : Port) : Prop := ∃ annotations, p' = { p with annotations }

/-- Only the annotations of ports and declarations differ. -/
structure Module.Reannotated (m m' : Module) : Prop where
  name : m'.name = m.name
  isPublic : m'.isPublic = m.isPublic
  ports : List.Forall₂ Port.Reannotated m.ports m'.ports
  body : Option.Rel Body.Reannotated m.body m'.body

theorem OpKind.mapDecl_id (k : OpKind) : (k.mapDecl fun d => d) = k := by cases k <;> rfl

theorem OpKind.mapDecl_mapDecl (f g : Decl → Decl) (k : OpKind) :
    (k.mapDecl f).mapDecl g = k.mapDecl fun d => g (f d) := by
  cases k <;> rfl

namespace Body.Reannotated

variable {b b' b'' : Body}

theorem refl (b : Body) : Reannotated b b :=
  ⟨rfl, rfl, rfl, fun x => ⟨id, by cases b.op? x <;> simp [OpKind.mapDecl_id]⟩⟩

theorem trans (h : Reannotated b b') (h' : Reannotated b' b'') : Reannotated b b'' where
  values := h'.values.trans h.values
  blocks := h'.blocks.trans h.blocks
  args := h'.args.trans h.args
  op? x := by
    obtain ⟨f, hf⟩ := h.op? x
    obtain ⟨g, hg⟩ := h'.op? x
    refine ⟨fun a => g (f a), ?_⟩
    rw [hg, hf, Option.map_map]
    simp only [Function.comp_def, OpKind.mapDecl_mapDecl]

theorem modifyDecl (b : Body) (o : OpId) (f : List Annotation → List Annotation) :
    Reannotated b (b.modifyDecl o fun d => { d with annotations := f d.annotations }) where
  values := rfl
  blocks := rfl
  args := rfl
  op? x := by
    by_cases hx : x = o
    · exact ⟨f, by simp [op?_modifyDecl, hx]⟩
    · exact ⟨id, by simp [op?_modifyDecl, hx, OpKind.mapDecl_id]⟩

theorem ty? (h : Reannotated b b') (v : ValueId) : b'.ty? v = b.ty? v := by
  unfold Body.ty? Body.value?
  rw [h.values]

theorem origin? (h : Reannotated b b') (v : ValueId) : b'.origin? v = b.origin? v := by
  unfold Body.origin? Body.value?
  rw [h.values]

theorem op?_some (h : Reannotated b b') {x : OpId} {op : Operation} (hop : b.op? x = some op) :
    ∃ f, b'.op? x = some { op with kind := op.kind.mapDecl f } := by
  obtain ⟨f, hf⟩ := h.op? x
  exact ⟨_, by rw [hf, hop]; rfl⟩

theorem op?_some' (h : Reannotated b b') {x : OpId} {op' : Operation} (hop : b'.op? x = some op') :
    ∃ op f, b.op? x = some op ∧ op' = { op with kind := op.kind.mapDecl f } := by
  obtain ⟨f, hf⟩ := h.op? x
  obtain ⟨op, hop₀, rfl⟩ := Option.map_eq_some_iff.1 (hf.symm.trans hop)
  exact ⟨op, _, hop₀, rfl⟩

theorem declared (h : Reannotated b b') {o : OpId} (ho : b.Declared o) : b'.Declared o := by
  obtain ⟨op, hop, hd⟩ := ho
  obtain ⟨f, hf⟩ := h.op? o
  rw [hop] at hf
  exact ⟨_, hf, by simpa [OpKind.decl?_mapDecl] using hd⟩

end Body.Reannotated

namespace Module.Reannotated

variable {m m' m'' : Module}

theorem refl (m : Module) : Reannotated m m where
  name := rfl
  isPublic := rfl
  ports := List.forall₂_same.2 fun p _ => ⟨p.annotations, rfl⟩
  body := by
    cases m.body with
    | none => exact .none
    | some b => exact .some (.refl b)

theorem trans (h : Reannotated m m') (h' : Reannotated m' m'') : Reannotated m m'' where
  name := h'.name.trans h.name
  isPublic := h'.isPublic.trans h.isPublic
  ports := by
    refine List.forall₂_iff_get.2 ⟨h.ports.length_eq.trans h'.ports.length_eq, fun i h₁ h₃ => ?_⟩
    have h₂ : i < m'.ports.length := h.ports.length_eq ▸ h₁
    obtain ⟨a, ha⟩ := (List.forall₂_iff_get.1 h.ports).2 i h₁ h₂
    obtain ⟨a', ha'⟩ := (List.forall₂_iff_get.1 h'.ports).2 i h₂ h₃
    exact ⟨a', by rw [ha', ha]⟩
  body := by
    have h₁ := h.body
    have h₂ := h'.body
    cases hb : m.body <;> cases hb' : m'.body <;> cases hb'' : m''.body <;>
      rw [hb, hb'] at h₁ <;> rw [hb', hb''] at h₂ <;> cases h₁ <;> cases h₂
    · exact .none
    · exact .some (Body.Reannotated.trans ‹_› ‹_›)

/-- A target is found whatever the annotations are. -/
theorem found (h : Reannotated m m') {t : Target} (ht : t.Found m.body m.ports) :
    t.Found m'.body m'.ports := by
  unfold Target.Found at ht ⊢
  split
  next o ho =>
    simp only [ho] at ht
    obtain ⟨b, hb, hd⟩ := ht
    have hrel := h.body
    rw [hb] at hrel
    cases hb' : m'.body <;> rw [hb'] at hrel <;> cases hrel
    next b' hr => exact ⟨b', rfl, hr.declared hd⟩
  next ho =>
    simp only [ho] at ht
    obtain ⟨p, hp, hg, hs⟩ := ht
    obtain ⟨p', hp', a, rfl⟩ := exists_of_forall₂ h.ports.flip hp
    exact ⟨_, hp', hg, hs⟩

end Module.Reannotated

/-! ## Following the renames -/

/-- The modules of `c'` are those of `c`, up to annotations. -/
structure Circuit.Reannotated (c c' : Circuit) : Prop where
  name : c'.name = c.name
  modules : List.Forall₂ Module.Reannotated c.modules c'.modules

theorem Circuit.Reannotated.refl (c : Circuit) : Reannotated c c :=
  ⟨rfl, List.forall₂_same.2 fun m _ => .refl m⟩

theorem forall₂_set {α : Type} {r : α → α → Prop} (hr : ∀ a, r a a) {l : List α} {i : Nat} {a a' : α}
    (ha : l[i]? = some a) (h : r a a') : List.Forall₂ r l (l.set i a') := by
  induction l generalizing i with
  | nil => simp at ha
  | cons b l ih =>
    cases i with
    | zero =>
      obtain rfl : b = a := by simpa using ha
      exact .cons h (List.forall₂_same.2 fun x _ => hr x)
    | succ i => exact .cons (hr b) (ih (by simpa using ha))

namespace Circuit

variable {c c' : Circuit} {t : Target} {old new : String} {i : Nat} {m : Module}

/-- A target is in the module at the position. -/
def HasTarget (c : Circuit) (i : Nat) (t : Target) : Prop :=
  ∃ m, c.modules[i]? = some m ∧ t.Found m.body m.ports

theorem Reannotated.trans {c'' : Circuit} (h : Reannotated c c') (h' : Reannotated c' c'') :
    Reannotated c c'' where
  name := h'.name.trans h.name
  modules := by
    refine List.forall₂_iff_get.2 ⟨h.modules.length_eq.trans h'.modules.length_eq, fun i h₁ h₃ => ?_⟩
    have h₂ : i < c'.modules.length := h.modules.length_eq ▸ h₁
    exact ((List.forall₂_iff_get.1 h.modules).2 i h₁ h₂).trans
      ((List.forall₂_iff_get.1 h'.modules).2 i h₂ h₃)

theorem Reannotated.hasTarget (h : Reannotated c c') (ht : c.HasTarget i t) : c'.HasTarget i t := by
  obtain ⟨m, hm, hf⟩ := ht
  obtain ⟨hi, rfl⟩ := List.getElem?_eq_some_iff.1 hm
  have hi' : i < c'.modules.length := h.modules.length_eq ▸ hi
  exact ⟨_, List.getElem?_eq_getElem hi', ((List.forall₂_iff_get.1 h.modules).2 i hi hi').found hf⟩

/-- Scoping the annotations of a target anew changes nothing else. -/
theorem redirectTarget?_reannotated (h : c.redirectTarget? i t old new = some c') :
    Reannotated c c' := by
  unfold redirectTarget? at h
  obtain ⟨m, hm, h⟩ := Option.bind_eq_some_iff.1 h
  cases hk : t.kind with
  | operation o =>
    simp only [hk] at h
    obtain ⟨b, hb, h⟩ := Option.bind_eq_some_iff.1 h
    obtain ⟨kind, -, h⟩ := Option.bind_eq_some_iff.1 h
    obtain ⟨_, -, h⟩ := Option.bind_eq_some_iff.1 h
    obtain rfl := Option.some.inj h
    exact ⟨rfl, forall₂_set Module.Reannotated.refl hm
      ⟨rfl, rfl, (Module.Reannotated.refl m).ports, hb ▸ .some (.modifyDecl b o _)⟩⟩
  | port =>
    simp only [hk] at h
    obtain ⟨j, hj, h⟩ := Option.bind_eq_some_iff.1 h
    obtain rfl := Option.some.inj h
    refine ⟨rfl, forall₂_set Module.Reannotated.refl hm
      ⟨rfl, rfl, ?_, (Module.Reannotated.refl m).body⟩⟩
    refine List.forall₂_iff_get.2 ⟨by simp, fun l h₁ h₂ => ?_⟩
    simp only [List.get_eq_getElem, List.getElem_modify]
    split
    · exact ⟨_, rfl⟩
    · exact ⟨_, rfl⟩

/-- A target that is there can be scoped anew. -/
theorem exists_redirectTarget? (h : c.HasTarget i t) (old new : String) :
    ∃ c', c.redirectTarget? i t old new = some c' := by
  obtain ⟨m, hm, hf⟩ := h
  unfold redirectTarget?
  rw [hm]
  unfold Target.Found at hf
  cases hk : t.kind with
  | operation o =>
    simp only [hk] at hf
    obtain ⟨b, hb, op, hop, hd⟩ := hf
    obtain ⟨d, hd⟩ := Option.isSome_iff_exists.1 hd
    have hkind : b.kind? o = some op.kind := by rw [kind?_eq, hop]; rfl
    exact ⟨_, by simp only [Option.bind_eq_bind, Option.bind_some, hb, hkind, hd]; rfl⟩
  | port =>
    simp only [hk] at hf
    obtain ⟨p, hp, -, hs⟩ := hf
    obtain ⟨j, hj⟩ : ∃ j, m.portWithSym? t.sym = some j := by
      refine Option.isSome_iff_exists.1 ?_
      rw [Module.portWithSym?, List.findIdx?_isSome, List.any_eq_true]
      exact ⟨p, hp, by simp [hs]⟩
    exact ⟨_, by simp only [Option.bind_eq_bind, Option.bind_some, hj]; rfl⟩

end Circuit

namespace PathState

variable {c : Circuit} {s : PathState} {r : Renames} {path : HierPath} {sym : String}

/-- The modules are as they were, up to annotations. -/
def Keeps (c : Circuit) (s : PathState) : Prop := c.Reannotated s.circuit

theorem addTarget_ends (h : s.Keeps c) {t : Target × Nat} (hm : must → c.HasTarget r.index t.1) :
    Ends must (addTarget r path s t) (Keeps c) := by
  have hput : ∀ {c'' : Circuit} (p : HierPath), c.Reannotated c'' → c.Reannotated (c''.putPath p) := by
    intro c'' p hc
    unfold Circuit.putPath
    split
    · exact ⟨hc.name, hc.modules⟩
    · exact ⟨hc.name, hc.modules⟩
  unfold addTarget
  dsimp only
  split
  next hnone =>
    refine .throw fun hmust => ?_
    obtain ⟨c', hc'⟩ := Circuit.exists_redirectTarget? (h.hasTarget (hm hmust)) path.name _
    rw [hnone] at hc'
    cases hc'
  next c' hsome => exact .pure (hput _ (h.trans (Circuit.redirectTarget?_reannotated hsome)))

theorem splitPath_ends (h : s.Keeps c) {targets : List Target} {name : String}
    (hm : must → ∀ t ∈ targets, c.HasTarget r.index t) :
    Ends must (splitPath r sym targets s name) (Keeps c) := by
  unfold splitPath
  split
  next => exact .pure h
  next path _ =>
    split
    next => exact .pure h
    next =>
      cases he : s.table.erase s.circuit name with
      | none => exact .pure h
      | some e =>
        obtain ⟨p, table, circuit⟩ := e
        obtain ⟨q, -, he⟩ := Option.map_eq_some_iff.1 he
        obtain rfl := congrArg (·.2.2) he
        have h' : Keeps c { s with circuit := s.circuit.removePath name, table } := ⟨h.name, h.modules⟩
        refine Ends.bind (P := Keeps c) (Ends.foldlM (fun _ => Keeps c) targets.zipIdx h' ?_)
          fun s' hs' => .pure hs'
        rintro done ⟨t, j⟩ rest s' hl hs'
        refine addTarget_ends hs' fun hmust => hm hmust t ?_
        have : (t, j) ∈ targets.zipIdx := hl ▸ List.mem_append_right _ List.mem_cons_self
        exact List.fst_mem_of_mem_zipIdx this

theorem followSymbol_ends (h : s.Keeps c) {e : String × List Target}
    (hm : must → ∀ t ∈ e.2, c.HasTarget r.index t) :
    Ends must (followSymbol r s e) (Keeps c) :=
  Ends.foldlM (fun _ => Keeps c) _ h fun _ _ _ _ _ hs => splitPath_ends hs hm

end PathState

/-- Following the renames changes paths and annotations only. -/
theorem Circuit.followRenames_ends {c : Circuit} {renames : List Renames}
    (hm : must → ∀ r ∈ renames, ∀ e ∈ r.targets, ∀ t ∈ e.2, c.HasTarget r.index t) :
    Ends must (c.followRenames renames) fun r => c.Reannotated r.1 := by
  unfold followRenames
  refine Ends.bind (P := PathState.Keeps c) (Ends.foldlM (fun _ => PathState.Keeps c) _
    (Circuit.Reannotated.refl c) fun done r rest s hl hs => ?_) fun s hs => .pure hs
  refine Ends.foldlM (fun _ => PathState.Keeps c) _ hs fun done' e rest' s' hl' hs' => ?_
  exact PathState.followSymbol_ends hs' fun hmust => hm hmust r
    (hl ▸ List.mem_append_right _ List.mem_cons_self) e
    (hl' ▸ List.mem_append_right _ List.mem_cons_self)

/-! ## All modules -/

namespace Progress

variable {cx : Context} {P : Module → Module → Prop} {p : Progress} {done : List Module} {m : Module}

/-- The modules `done` are lowered, and every target is found where failures are excluded. -/
structure Holds (must : Prop) (P : Module → Module → Prop) (done : List Module) (p : Progress) :
    Prop where
  modules : List.Forall₂ P done p.modules
  targets : must → ∀ r ∈ p.renames, ∀ e ∈ r.targets, ∀ t ∈ e.2, ∃ m, p.modules[r.index]? = some m ∧
    t.Found m.body m.ports

theorem lowerModule_ends (hp : p.Holds must P done)
    (h : Ends must (m.lower cx p.generated) fun r => P m r.1 ∧
      (must → r.2.Targets (Target.Found r.1.body r.1.ports))) :
    Ends must (p.lowerModule cx m) (Holds must P (done ++ [m])) := by
  unfold lowerModule
  refine h.bind ?_
  rintro ⟨m', y⟩ ⟨hP, htargets⟩
  have hold : must → ∀ r ∈ p.renames, ∀ e ∈ r.targets, ∀ t ∈ e.2,
      ∃ m, (p.modules ++ [m'])[r.index]? = some m ∧ t.Found m.body m.ports := by
    intro hm r hr e he t ht
    obtain ⟨m, hm, hf⟩ := hp.targets hm r hr e he t ht
    exact ⟨m, by rw [List.getElem?_append_left (List.getElem?_eq_some_iff.1 hm).1, hm], hf⟩
  refine .pure ⟨List.rel_append hp.modules (.cons hP .nil), fun hm r hr e he t ht => ?_⟩
  dsimp only at hr
  split at hr
  · exact hold hm r hr e he t ht
  · rcases List.mem_append.1 hr with hr | hr
    · exact hold hm r hr e he t ht
    · rw [List.mem_singleton.1 hr] at he ⊢
      exact ⟨m', by simp [Symbols.renames], htargets hm e he t ht⟩

end Progress

/-- What holds of every lowered module holds in the lowered circuit. -/
theorem Circuit.lower_ends {c : Circuit} {options : Options} {generated : Nat}
    {P : Module → Module → Prop} (h : ∀ m ∈ c.modules, ∀ g,
      Ends must (m.lower ⟨options, c.moduleTable⟩ g) fun r => P m r.1 ∧
        (must → r.2.Targets (Target.Found r.1.body r.1.ports))) :
    Ends must (c.lower options generated) fun r => ∃ ms, List.Forall₂ P c.modules ms ∧
      Reannotated { c with modules := ms } r.1 := by
  unfold lower
  refine Ends.bind (Ends.foldlM (Progress.Holds must P) c.modules ⟨.nil, fun _ r hr => by cases hr⟩ ?_) ?_
  · intro done m rest p hl hp
    exact Progress.lowerModule_ends hp (h m (hl ▸ List.mem_append_right _ List.mem_cons_self) _)
  · intro p hp
    refine (Circuit.followRenames_ends hp.targets).bind ?_
    rintro ⟨c', split⟩ hc'
    exact .pure ⟨p.modules, hp.modules, hc'⟩

/-- Every module of a lowered circuit is what became of a module of the circuit. -/
theorem Circuit.output_ends {q : Setting} {c : Circuit} {options : Options} {generated : Nat}
    (hcx : q.cx = ⟨options, c.moduleTable⟩) (h : ∀ m ∈ c.modules, ∃ R, m.Input q R) :
    Ends q.must (c.lower options generated) fun r => ∀ m' ∈ r.1.modules,
      ∃ m ∈ c.modules, ∃ m'', Module.Output q m m'' ∧ m''.Reannotated m' := by
  refine (Circuit.lower_ends (P := fun m m'' => m ∈ c.modules ∧ Module.Output q m m'')
    fun m hm g => ?_).mono ?_
  · obtain ⟨R, hR⟩ := h m hm
    rw [← hcx]
    exact (Module.lower_ends hR).mono fun r hr => ⟨⟨hm, hr.1⟩, fun _ => hr.2⟩
  · rintro r ⟨ms, hms, hre⟩ m' hm'
    obtain ⟨m'', hm'', hr⟩ := exists_of_forall₂ hre.modules hm'
    obtain ⟨m, -, hm, ho⟩ := exists_of_forall₂ hms hm''
    exact ⟨m, hm, m'', ho, hr⟩

end Scalarize
