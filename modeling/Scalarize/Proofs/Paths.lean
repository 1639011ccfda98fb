import Scalarize.Proofs.Carriers
import Scalarize.Proofs.Interfaces

/-!
# Paths and the annotations scoped to them

* `PathTable.Complete` : every path is noted at the modules that it passes through;
* `Carrier.Reannotated`, `Module.Reannotated.carriers` : carriers that differ in their annotations;
* `Circuit.Refers` : a carrier has an annotation scoped to a path; `Circuit.Hosts`, `Circuit.refers_of_redirectTarget?` :
  a target that is there, and what scoping its annotations anew changes.
-/

namespace Scalarize

/-! ## The table -/

namespace PathTable

variable {t : PathTable} {n k : String}

theorem lookup_adjust (t : PathTable) (k k' : String) (f : List String → List String) :
    lookup ⟨t.byModule.adjust k [] f⟩ k' = if k = k' then f (t.lookup k) else t.lookup k' := by
  unfold lookup
  rw [Assoc.adjust, Assoc.get?_put]
  split <;> rfl

/-- Noting a path adds its name at the modules that it passes through. -/
theorem mem_lookup_note {p : HierPath} : n ∈ (t.note p).lookup k ↔
    n ∈ t.lookup k ∨ n = p.name ∧ ∃ s ∈ p.segments, s.moduleName = k := by
  unfold note
  generalize p.segments = ss
  induction ss generalizing t with
  | nil => simp
  | cons s ss ih =>
    rw [List.foldl_cons, ih, lookup_adjust]
    by_cases hk : s.moduleName = k
    · subst hk
      by_cases hn : p.name ∈ t.lookup s.moduleName
      · rw [if_pos rfl, if_pos hn]
        constructor
        · rintro (h | ⟨rfl, -⟩)
          exacts [.inl h, .inl hn]
        · rintro (h | ⟨rfl, -⟩)
          exacts [.inl h, .inl hn]
      · simp only [if_pos, if_neg hn, List.mem_append, List.mem_cons, exists_eq_or_imp]
        tauto
    · simp [hk]

/-- Taking a path out leaves the names of the others. -/
theorem mem_lookup_erase {c c' : Circuit} {t' : PathTable} {name : String} {p : HierPath}
    (h : t.erase c name = some (p, t', c')) (hn : n ∈ t.lookup k) (hne : n ≠ name) : n ∈ t'.lookup k := by
  obtain ⟨q, -, heq⟩ := Option.map_eq_some_iff.1 h
  obtain rfl := congrArg (·.1) heq
  obtain rfl := congrArg (·.2.1) heq
  dsimp only
  generalize q.segments = ss
  clear heq h
  induction ss generalizing t with
  | nil => exact hn
  | cons s ss ih =>
    rw [List.foldl_cons]
    refine ih ?_
    rw [lookup_adjust]
    split
    next hk =>
      subst hk
      exact List.mem_filter.2 ⟨hn, by simpa using hne⟩
    next => exact hn

/-- Every path is noted at all modules that it passes through. -/
def Complete (t : PathTable) (ps : List HierPath) : Prop :=
  ∀ p ∈ ps, ∀ s ∈ p.segments, p.name ∈ t.lookup s.moduleName

theorem Complete.note {ps : List HierPath} (h : t.Complete ps) (p : HierPath) : (t.note p).Complete (ps ++ [p]) := by
  intro q hq s hs
  rcases List.mem_append.1 hq with hq | hq
  · exact mem_lookup_note.2 (.inl (h q hq s hs))
  · obtain rfl := List.mem_singleton.1 hq
    exact mem_lookup_note.2 (.inr ⟨rfl, s, hs, rfl⟩)

theorem complete_ofCircuit (c : Circuit) : (ofCircuit c).Complete c.paths := by
  unfold ofCircuit
  suffices ∀ (ps done : List HierPath) (t : PathTable), t.Complete done → (ps.foldl note t).Complete (done ++ ps) from
    this c.paths [] {} nofun
  intro ps
  induction ps with
  | nil =>
    intro done t ht
    rwa [List.append_nil]
  | cons p ps ih =>
    intro done t ht
    have h := ih (done ++ [p]) (t.note p) (ht.note p)
    rwa [List.append_assoc] at h

end PathTable

/-! ## Carriers and their annotations -/

/-- Only the annotations differ. -/
def Carrier.Reannotated (e e' : Carrier) : Prop := ∃ annotations, e' = { e with annotations }

theorem forall₂_filterMap {α β : Type} {R : β → β → Prop} {f g : α → Option β} {l : List α}
    (h : ∀ a ∈ l, Option.Rel R (f a) (g a)) : List.Forall₂ R (l.filterMap f) (l.filterMap g) := by
  induction l with
  | nil => exact .nil
  | cons a l ih =>
    have ih := ih fun a' ha' => h a' (List.mem_cons_of_mem _ ha')
    have ha := h a List.mem_cons_self
    rw [List.filterMap_cons, List.filterMap_cons]
    generalize f a = b, g a = b' at ha
    cases ha with
    | none => exact ih
    | some hb => exact .cons hb ih

/-- Modules that differ in annotations have carriers that differ in annotations. -/
theorem Module.Reannotated.carriers {m m' : Module} (h : m.Reannotated m') (options : Options) :
    List.Forall₂ Carrier.Reannotated (m.carriers options) (m'.carriers options) := by
  have hbody := h.body
  have hentry : m'.entry = m.entry := by
    unfold Module.entry Module.isExternal
    rw [h.isPublic]
    generalize m.body = o, m'.body = o' at hbody
    cases hbody <;> rfl
  unfold Module.carriers
  rw [hentry]
  refine List.rel_append ?_ ?_
  · refine List.forall₂_map_left_iff.2 (List.forall₂_map_right_iff.2 (h.ports.imp ?_))
    rintro p _ ⟨as, rfl⟩
    exact ⟨as, rfl⟩
  · generalize m.body = o, m'.body = o' at hbody
    cases hbody with
    | none => exact .nil
    | @some b b' hb =>
      dsimp only
      rw [hb.walk]
      refine forall₂_filterMap fun x _ => ?_
      obtain ⟨f, hf⟩ := hb.op? x
      unfold Body.carrier?
      rw [hf]
      cases b.op? x with
      | none => exact .none
      | some op =>
        simp only [Option.map_some, Option.bind_some]
        split
        · exact .none
        · unfold OpKind.carrier?
          rw [OpKind.decl?_mapDecl, OpKind.holds?_mapDecl, OpKind.keeps_mapDecl]
          rw [show b'.ty? = b.ty? from funext hb.ty?]
          cases op.kind.decl? with
          | none => exact .none
          | some d => exact .some ⟨_, rfl⟩

theorem Carrier.Reannotated.symm {e e' : Carrier} (h : e.Reannotated e') : e'.Reannotated e := by
  obtain ⟨as, rfl⟩ := h
  exact ⟨e.annotations, rfl⟩

namespace Circuit

variable {options : Options} {c c' : Circuit} {i j : Nat} {t : Target} {sym? : Option String} {place : TargetKind}
  {old new n n' : String} {p q : HierPath}

/-- A carrier with this symbol at this place, in the module at the position, has an annotation that is scoped to
the path. -/
def Refers (options : Options) (c : Circuit) (i : Nat) (sym? : Option String) (place : TargetKind)
    (n : String) : Prop :=
  ∃ m, c.modules[i]? = some m ∧ ∃ e ∈ m.carriers options, e.sym = sym? ∧ e.place = place ∧
    ∃ a ∈ e.annotations, a.path = some n

/-- A target is the symbol of a carrier of the module at the position. -/
def Hosts (options : Options) (c : Circuit) (i : Nat) (t : Target) : Prop :=
  ∃ m, c.modules[i]? = some m ∧ (m.ports.filterMap (·.sym)).Nodup ∧
    ∃ e ∈ m.carriers options, e.sym = some t.sym ∧ e.place = t.kind

theorem Reannotated.getElem? (h : c.Reannotated c') {m m' : Module} (hm : c.modules[i]? = some m)
    (hm' : c'.modules[i]? = some m') : m.Reannotated m' := by
  obtain ⟨hi, rfl⟩ := List.getElem?_eq_some_iff.1 hm
  obtain ⟨hi', rfl⟩ := List.getElem?_eq_some_iff.1 hm'
  exact (List.forall₂_iff_get.1 h.modules).2 i hi hi'

theorem Reannotated.hosts (h : c.Reannotated c') (ht : c.Hosts options i t) : c'.Hosts options i t := by
  obtain ⟨m, hm, hnd, e, he, hs, hp⟩ := ht
  obtain ⟨hi, rfl⟩ := List.getElem?_eq_some_iff.1 hm
  have hi' : i < c'.modules.length := h.modules.length_eq ▸ hi
  have hr := (List.forall₂_iff_get.1 h.modules).2 i hi hi'
  obtain ⟨e', he', as, rfl⟩ := exists_of_forall₂ (hr.carriers options).flip he
  refine ⟨_, List.getElem?_eq_getElem hi', ?_, _, he', hs, hp⟩
  have hsyms : ∀ {ps ps' : List Port}, List.Forall₂ Port.Reannotated ps ps' →
      ps'.filterMap (·.sym) = ps.filterMap (·.sym) := by
    intro ps ps' hps
    induction hps with
    | nil => rfl
    | cons hp _ ih =>
      obtain ⟨as, rfl⟩ := hp
      rw [List.filterMap_cons, List.filterMap_cons, ih]
  exact hsyms hr.ports ▸ hnd

end Circuit

theorem redirect_path {as : List Annotation} {a : Annotation} {old new n' : String}
    (ha : a ∈ redirect old new as) (hp : a.path = some n') :
    ∃ a₀ ∈ as, ∃ n, a₀.path = some n ∧ n' = if n = old then new else n := by
  obtain ⟨a₀, ha₀, rfl⟩ := List.mem_map.1 ha
  unfold Annotation.redirect at hp
  split at hp
  next hold => exact ⟨a₀, ha₀, old, hold, by simpa using hp.symm⟩
  next hold =>
    refine ⟨a₀, ha₀, n', hp, (if_neg ?_).symm⟩
    rintro rfl
    exact hold hp

theorem Body.carrier?_reannotate (b : Body) (o : OpId) (f : List Annotation → List Annotation) (keep : Bool)
    (x : OpId) : (b.modifyDecl o fun d => { d with annotations := f d.annotations }).carrier? keep x =
      (b.carrier? keep x).map fun e => if x = o then { e with annotations := f e.annotations } else e := by
  unfold carrier?
  rw [op?_modifyDecl]
  cases b.op? x with
  | none => rfl
  | some op =>
    simp only [Option.map_some, Option.bind_some]
    by_cases hx : x = o
    · simp only [hx, if_pos]
      split
      · rfl
      · unfold OpKind.carrier?
        rw [OpKind.decl?_mapDecl, OpKind.holds?_mapDecl, OpKind.keeps_mapDecl]
        cases op.kind.decl? <;> rfl
    · simp only [hx, if_neg, not_false_eq_true, Option.map_id_fun', id_eq]
      rfl

namespace Circuit

variable {options : Options} {c c' : Circuit} {i j : Nat} {t : Target} {sym? : Option String} {place : TargetKind}
  {old new n n' : String}

/-- Scoping the annotations of a target anew changes the carrier of its symbol. -/
theorem exists_of_redirectTarget? (h : c.redirectTarget? i t old new = some c') (ht : c.Hosts options i t) :
    ∃ m m', c.modules[i]? = some m ∧ c' = { c with modules := c.modules.set i m' } ∧
      ∀ e' ∈ m'.carriers options, ∃ e ∈ m.carriers options, e'.sym = e.sym ∧ e'.place = e.place ∧
        e'.annotations =
          if e.sym = some t.sym ∧ e.place = t.kind then redirect old new e.annotations else e.annotations := by
  obtain ⟨m, hm, hnd, e₀, he₀, hs₀, hp₀⟩ := ht
  unfold redirectTarget? at h
  obtain ⟨m₁, hm₁, h⟩ := Option.bind_eq_some_iff.1 h
  obtain rfl := Option.some.inj (hm.symm.trans hm₁)
  refine ⟨m, ?_⟩
  cases hk : t.kind with
  | operation o =>
    simp only [hk] at h
    obtain ⟨b, hb, h⟩ := Option.bind_eq_some_iff.1 h
    obtain ⟨kind, -, h⟩ := Option.bind_eq_some_iff.1 h
    obtain ⟨_, -, h⟩ := Option.bind_eq_some_iff.1 h
    refine ⟨_, hm, (Option.some.inj h).symm, fun e' he' => ?_⟩
    rcases List.mem_append.1 he' with he' | he'
    · -- ports are as they were
      obtain ⟨p, hp, rfl⟩ := List.mem_map.1 he'
      refine ⟨p.carrier (options.portsMayPreserve m.entry), List.mem_append_left _ ?_, rfl, rfl, ?_⟩
      · exact List.mem_map_of_mem hp
      · exact (if_neg (by simp [Port.carrier])).symm
    · dsimp only at he'
      rw [(Body.Reannotated.modifyDecl b o (redirect old new)).walk] at he'
      obtain ⟨x, hx, hcarrier⟩ := List.mem_filterMap.1 he'
      rw [Body.carrier?_reannotate] at hcarrier
      obtain ⟨e, he, rfl⟩ := Option.map_eq_some_iff.1 hcarrier
      have hmem : ∀ {x' e'}, x' ∈ b.walk → b.carrier? options.preserveAggregate x' = some e' →
          e' ∈ m.carriers options := fun hx' he' => by
        unfold Module.carriers
        rw [hb]
        exact List.mem_append_right _ (List.mem_filterMap.2 ⟨_, hx', he'⟩)
      refine ⟨e, hmem hx he, by split <;> rfl, by split <;> rfl, ?_⟩
      have hplace := Body.place_of_carrier? he
      by_cases hxo : x = o
      · -- the symbol is that of the target
        subst hxo
        rw [hk] at hp₀
        have heq : e₀ = e := by
          unfold Module.carriers at he₀
          rw [hb] at he₀
          rcases List.mem_append.1 he₀ with he₀ | he₀
          · obtain ⟨p, -, rfl⟩ := List.mem_map.1 he₀
            cases hp₀
          · obtain ⟨x', -, hx'⟩ := List.mem_filterMap.1 he₀
            rw [Body.place_of_carrier? hx', TargetKind.operation.injEq] at hp₀
            subst hp₀
            exact Option.some.inj (hx'.symm.trans he)
        rw [if_pos rfl, if_pos ⟨heq ▸ hs₀, hplace⟩]
      · rw [if_neg hxo, if_neg]
        rintro ⟨-, hp⟩
        exact hxo (TargetKind.operation.inj (hplace.symm.trans hp))
  | port =>
    simp only [hk] at h
    obtain ⟨l, hl, h⟩ := Option.bind_eq_some_iff.1 h
    refine ⟨_, hm, (Option.some.inj h).symm, fun e' he' => ?_⟩
    obtain ⟨hlt, hsym, -⟩ := List.findIdx?_eq_some_iff_getElem.1 hl
    rcases List.mem_append.1 he' with he' | he'
    · obtain ⟨p', hp', rfl⟩ := List.mem_map.1 he'
      obtain ⟨k, hk'⟩ := List.mem_iff_getElem?.1 hp'
      dsimp only at hk'
      rw [List.getElem?_modify] at hk'
      obtain ⟨p, hp, rfl⟩ := Option.map_eq_some_iff.1 hk'
      refine ⟨p.carrier (options.portsMayPreserve m.entry), List.mem_append_left _ ?_, by split <;> rfl,
        by split <;> rfl, ?_⟩
      · exact List.mem_map_of_mem (List.mem_of_getElem? hp)
      by_cases hlk : l = k
      · subst hlk
        obtain rfl : m.ports[l] = p := by simpa [hlt] using hp
        rw [if_pos rfl, if_pos ⟨by simpa [Port.carrier] using hsym, rfl⟩]
        rfl
      · rw [if_neg hlk, if_neg]
        · rfl
        · rintro ⟨hs, -⟩
          -- no other port has the symbol
          have hne := List.pairwise_iff_getElem.1 (List.pairwise_filterMap.1 hnd)
          obtain ⟨hklt, rfl⟩ := List.getElem?_eq_some_iff.1 hp
          have hsl : m.ports[l].sym = some t.sym := by simpa using hsym
          rcases Nat.lt_or_gt_of_ne hlk with hlt' | hlt'
          · exact hne _ _ hlt hklt hlt' _ hsl _ hs rfl
          · exact hne _ _ hklt hlt hlt' _ hs _ hsl rfl
    · refine ⟨e', List.mem_append_right _ he', rfl, rfl, ?_⟩
      rw [if_neg]
      rintro ⟨-, hp⟩
      dsimp only at he'
      cases hb : m.body with
      | none => rw [hb] at he'; cases he'
      | some b =>
        rw [hb] at he'
        obtain ⟨x, -, hx⟩ := List.mem_filterMap.1 he'
        rw [Body.place_of_carrier? hx] at hp
        cases hp

/-- Scoping the annotations of a target anew leaves the paths, and it leaves all annotations but those of the
target that are scoped to the former path. -/
theorem refers_of_redirectTarget? (h : c.redirectTarget? i t old new = some c') (ht : c.Hosts options i t) :
    c'.paths = c.paths ∧ ∀ {j sym? place n'}, c'.Refers options j sym? place n' →
      ∃ n, c.Refers options j sym? place n ∧
        n' = if j = i ∧ sym? = some t.sym ∧ place = t.kind ∧ n = old then new else n := by
  obtain ⟨m, m', hm, rfl, hcarriers⟩ := exists_of_redirectTarget? h ht
  refine ⟨rfl, fun {j sym? place n'} hr => ?_⟩
  obtain ⟨m₁, hm₁, e', he', hsym, hplace, a, ha, hpath⟩ := hr
  dsimp only at hm₁
  rw [List.getElem?_set] at hm₁
  split at hm₁
  next hj =>
    subst hj
    rw [if_pos (List.getElem?_eq_some_iff.1 hm).1] at hm₁
    obtain rfl := Option.some.inj hm₁
    obtain ⟨e, he, hs, hpl, hann⟩ := hcarriers e' he'
    rw [hann] at ha
    by_cases hcase : e.sym = some t.sym ∧ e.place = t.kind
    · rw [if_pos hcase] at ha
      obtain ⟨a₀, ha₀, n, hn, rfl⟩ := redirect_path ha hpath
      refine ⟨n, ⟨m, hm, e, he, hs ▸ hsym, hpl ▸ hplace, a₀, ha₀, hn⟩, ?_⟩
      simp [← hsym, ← hplace, hs, hpl, hcase]
    · rw [if_neg hcase] at ha
      refine ⟨n', ⟨m, hm, e, he, hs ▸ hsym, hpl ▸ hplace, a, ha, hpath⟩, ?_⟩
      rw [if_neg]
      rintro ⟨-, hs', hp', -⟩
      exact hcase ⟨hs ▸ hsym ▸ hs', hpl ▸ hplace ▸ hp'⟩
  next hj =>
    exact ⟨n', ⟨m₁, hm₁, e', he', hsym, hplace, a, ha, hpath⟩, (if_neg fun hc => hj hc.1.symm).symm⟩

end Circuit

end Scalarize
