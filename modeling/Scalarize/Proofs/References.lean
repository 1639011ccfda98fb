import Scalarize.Proofs.Following
import Scalarize.Proofs.Inheritance

/-!
# References to the symbols of a lowered circuit

* `LoweredEach` : the modules of a circuit, lowered, and what was renamed in each;
* `Circuit.Lowers`, `Circuit.exists_lowers` : the modules are lowered, and the paths follow;
* `Circuit.exists_derived` : each path stays, or it gives way to a path for each target;
* `Circuit.scoped_of_lower` : annotations agree with the paths that they are scoped to.
-/

namespace Scalarize

/-! ## All modules -/

/-- What was renamed in each module. -/
def Symbols.allRenames (ys : List Symbols) : List Renames :=
  (ys.zipIdx.map fun e => e.1.renames e.2).filter fun r => !r.targets.isEmpty

theorem renamed_allRenames {ys : List Symbols} {ref : InnerRef} {i : Nat} {ts : List Target} :
    Renamed (Symbols.allRenames ys) ref i ts ↔
      ∃ y, ys[i]? = some y ∧ y.moduleName = ref.moduleName ∧ (ref.sym, ts) ∈ y.targets := by
  unfold Renamed Symbols.allRenames
  constructor
  · rintro ⟨r, hr, hname, rfl, hts⟩
    obtain ⟨e, he, rfl⟩ := List.mem_map.1 (List.mem_filter.1 hr).1
    exact ⟨e.1, List.mem_zipIdx_iff_getElem?.1 he, hname, hts⟩
  · rintro ⟨y, hy, hname, hts⟩
    refine ⟨y.renames i, List.mem_filter.2 ⟨List.mem_map.2 ⟨(y, i), List.mem_zipIdx_iff_getElem?.2 hy, rfl⟩, ?_⟩,
      hname, rfl, hts⟩
    show (!y.targets.isEmpty) = true
    cases htargets : y.targets with
    | nil => rw [htargets] at hts; cases hts
    | cons => rfl

/-- The modules `ms'` are the modules `ms` after lowering, `ys` the symbols at the end of each. -/
structure LoweredEach (cx : Context) (ms ms' : List Module) (ys : List Symbols) : Prop where
  length : ms'.length = ms.length ∧ ys.length = ms.length
  each : ∀ {i : Nat} {m m' : Module} {y : Symbols}, ms[i]? = some m → ms'[i]? = some m' → ys[i]? = some y →
    (∃ generated, m.lower cx generated = .ok (m', y)) ∧ m.Inherits cx.options m' y

/-- Where a symbol is recorded, there is a module that it belongs to. -/
theorem LoweredEach.get {cx : Context} {ms ms' : List Module} {ys : List Symbols} (h : LoweredEach cx ms ms' ys)
    {i : Nat} (hi : i < ms.length) : ∃ m m' y, ms[i]? = some m ∧ ms'[i]? = some m' ∧ ys[i]? = some y :=
  ⟨_, _, _, List.getElem?_eq_getElem hi, List.getElem?_eq_getElem (h.length.1 ▸ hi),
    List.getElem?_eq_getElem (h.length.2 ▸ hi)⟩

namespace Progress

variable {cx : Context} {done : List Module} {p : Progress} {m : Module}

/-- The modules `done` are lowered, and everything is recorded that was renamed in them. -/
structure Records (cx : Context) (done : List Module) (p : Progress) (ys : List Symbols) : Prop where
  lowered : LoweredEach cx done p.modules ys
  renames : p.renames = Symbols.allRenames ys

theorem Records.lowerModule_ends {ys : List Symbols} (h : Records cx done p ys)
    (hm : Ends False (m.lower cx p.generated) fun r => m.Inherits cx.options r.1 r.2) :
    Ends False (p.lowerModule cx m) fun p' => ∃ ys', Records cx (done ++ [m]) p' ys' := by
  unfold lowerModule
  refine hm.with_ok.bind ?_
  rintro ⟨m', y⟩ ⟨hok, hinherits⟩
  obtain ⟨hms, hys⟩ := h.lowered.length
  refine .pure ⟨ys ++ [y], ⟨⟨by simp [hms], by simp [hys]⟩, fun {i m₁ m₁' y₁} h₁ h₁' hy₁ => ?_⟩, ?_⟩
  · dsimp only at h₁'
    rcases Nat.lt_or_ge i done.length with hlt | hge
    · rw [List.getElem?_append_left hlt] at h₁
      rw [List.getElem?_append_left (hms ▸ hlt)] at h₁'
      rw [List.getElem?_append_left (hys ▸ hlt)] at hy₁
      exact h.lowered.each h₁ h₁' hy₁
    · rw [List.getElem?_append_right hge] at h₁
      rw [List.getElem?_append_right (hms ▸ hge)] at h₁'
      rw [List.getElem?_append_right (hys ▸ hge)] at hy₁
      obtain rfl := List.mem_singleton.1 (List.mem_of_getElem? h₁)
      obtain rfl := List.mem_singleton.1 (List.mem_of_getElem? h₁')
      obtain rfl := List.mem_singleton.1 (List.mem_of_getElem? hy₁)
      exact ⟨⟨_, hok⟩, hinherits⟩
  · dsimp only
    unfold Symbols.allRenames
    rw [List.zipIdx_append, List.map_append, List.filter_append, ← Symbols.allRenames, ← h.renames, hms, ← hys]
    cases htargets : y.targets with
    | nil => simp [Symbols.renames, htargets]
    | cons => simp [Symbols.renames, htargets]

end Progress

/-! ## What is recorded of a symbol -/

section

variable {options : Options} {m m' : Module} {y : Symbols} {r s : String} {ts : List Target} {e : Carrier}

/-- No symbol that gave way is carried any more. -/
theorem Module.Inherits.not_givesWay (h : m.Inherits options m' y) (he : e ∈ m'.carriers options)
    (hs : e.sym = some s) : ¬m.GivesWay options s := by
  rintro ⟨e₀, he₀, hs₀, hsplits⟩
  cases h.descent.stem he hs with
  | first hfirst => exact (h.whole e he).not_splits (h.descent.single hfirst he₀ hs hs₀ ▸ hsplits)
  | anew _ _ hnone =>
    obtain ⟨t, ht, -⟩ := hsplits
    rw [hnone e₀ he₀ hs₀] at ht
    cases ht
  | descends _ hnone => exact hnone e₀ he₀ hs₀

/-- A carrier whose symbol descends from one that was carried at first has this symbol, or the symbol gave way. -/
theorem Module.Inherits.root_cases (h : m.Inherits options m' y) (he : e ∈ m'.carriers options)
    (hs : e.sym = some s) {e₀ : Carrier} (he₀ : e₀ ∈ m.carriers options) (hs₀ : e₀.sym = some (y.root s)) :
    s = y.root s ∨ e.ty.isSome ∧ m.GivesWay options (y.root s) := by
  cases h.descent.stem he hs with
  | first hfirst => exact .inl (h.descent.own hfirst hs).2.1.symm
  | anew _ hroot => exact .inl hroot.symm
  | descends hty _ hroot => exact .inr ⟨hty, hroot.resolve_right (h.descent.own he₀ hs₀).2.2⟩

end

namespace Circuit

variable {options : Options} {c : Circuit} {ms : List Module} {ys : List Symbols} {generated : Nat}

/-- A circuit whose names and symbols refer to one thing each. -/
structure Distinct (c : Circuit) : Prop where
  modules : (c.modules.map (·.name)).Nodup
  syms : ∀ m ∈ c.modules, m.syms.Nodup
  paths : (c.paths.map (·.name)).Nodup

theorem Distinct.index_eq (h : c.Distinct) {i j : Nat} {m m' : Module} (hm : c.modules[i]? = some m)
    (hm' : c.modules[j]? = some m') (hname : m.name = m'.name) : i = j := by
  obtain ⟨hi, rfl⟩ := List.getElem?_eq_some_iff.1 hm
  obtain ⟨hj, rfl⟩ := List.getElem?_eq_some_iff.1 hm'
  refine (@List.Nodup.getElem_inj_iff _ _ h.modules i (by simpa using hi) j (by simpa using hj)).1 ?_
  rw [List.getElem_map, List.getElem_map, hname]

end Circuit

section

variable {cx : Context} {c : Circuit} {ms : List Module} {ys : List Symbols} {ref : InnerRef} {i i' : Nat}
  {ts ts' : List Target}

/-- Whatever is recorded of a symbol is recorded in the module that it belongs to. -/
theorem LoweredEach.of_renamed (h : LoweredEach cx c.modules ms ys)
    (hr : Renamed (Symbols.allRenames ys) ref i ts) : ∃ m m' y, c.modules[i]? = some m ∧ ms[i]? = some m' ∧
      ys[i]? = some y ∧ m.name = ref.moduleName ∧ y.targets.get? ref.sym = some ts := by
  obtain ⟨y, hy, hname, hts⟩ := renamed_allRenames.1 hr
  obtain ⟨m, m', y', hm, hm', hy'⟩ := h.get (h.length.2 ▸ (List.getElem?_eq_some_iff.1 hy).1)
  obtain rfl := Option.some.inj (hy.symm.trans hy')
  obtain ⟨-, hinherits⟩ := h.each hm hm' hy
  exact ⟨m, m', y, hm, hm', hy, hinherits.descent.moduleName.symm.trans hname,
    (Assoc.get?_eq_some_iff hinherits.descent.keys).2 hts⟩

/-- A symbol is recorded once. -/
theorem LoweredEach.renamed_unique (h : LoweredEach cx c.modules ms ys) (hc : c.Distinct)
    (hr : Renamed (Symbols.allRenames ys) ref i ts) (hr' : Renamed (Symbols.allRenames ys) ref i' ts') :
    i' = i ∧ ts' = ts := by
  obtain ⟨m, m', y, hm, -, hy, hname, hts⟩ := h.of_renamed hr
  obtain ⟨m₁, m₁', y₁, hm₁, -, hy₁, hname₁, hts₁⟩ := h.of_renamed hr'
  obtain rfl := hc.index_eq hm₁ hm (hname₁.trans hname.symm)
  obtain rfl := Option.some.inj (hy.symm.trans hy₁)
  exact ⟨rfl, Option.some.inj (hts₁.symm.trans hts)⟩

/-- Targets are there when the paths follow, and they are not renamed. -/
theorem LoweredEach.prepared (h : LoweredEach cx c.modules ms ys) (hc : c.Distinct) :
    Circuit.Prepared cx.options { c with modules := ms } (Symbols.allRenames ys) where
  hosts {ref i ts} hr := by
    obtain ⟨m, m', y, hm, hm', hy, -, hts⟩ := h.of_renamed hr
    obtain ⟨-, hinherits⟩ := h.each hm hm' hy
    obtain ⟨-, -, hnd, haims⟩ := hinherits.descent.targets hts
    refine ⟨hnd, fun t ht => ⟨m', hm', hinherits.nodup, ?_⟩⟩
    obtain ⟨-, e, he, hs, hp, -⟩ := haims t ht
    exact ⟨e, he, hs, hp⟩
  final {ref i ts t} hr ht i' ts' hr' := by
    obtain ⟨m, m', y, hm, hm', hy, hname, hts⟩ := h.of_renamed hr
    obtain ⟨m₁, m₁', y₁, hm₁, hm₁', hy₁, hname₁, hts₁⟩ := h.of_renamed hr'
    obtain rfl := hc.index_eq hm₁ hm (hname₁.trans hname.symm)
    obtain rfl := Option.some.inj (hy.symm.trans hy₁)
    obtain ⟨-, hinherits⟩ := h.each hm hm' hy
    obtain ⟨-, -, -, haims⟩ := hinherits.descent.targets hts
    obtain ⟨-, e, he, hs, -⟩ := haims t ht
    exact hinherits.not_givesWay he hs (hinherits.descent.targets hts₁).1

end

namespace Circuit

variable {options : Options} {c : Circuit} {generated : Nat}

/-- The modules of `c` are lowered to `ms`, with the symbols `ys` at the end of each, and the paths follow. -/
structure Lowers (options : Options) (c c' : Circuit) (ms : List Module) (ys : List Symbols) : Prop where
  each : LoweredEach ⟨options, c.moduleTable⟩ c.modules ms ys
  reannotated : Reannotated { c with modules := ms } c'
  parts : Relation.ReflTransGen (Parts options (Symbols.allRenames ys)) { c with modules := ms } c'
  nodup : (c'.paths.map (·.name)).Nodup
  /-- No path ends at a symbol that was split among targets. -/
  clear : ∀ p ∈ c'.paths, ∀ ref i ts, p.target? = some ref → ¬Renamed (Symbols.allRenames ys) ref i ts

theorem exists_lowers (hb : c.Built) (hc : c.Distinct) {r : Circuit × Stats × Nat}
    (h : c.lower options generated = .ok r) : ∃ ms ys, c.Lowers options r.1 ms ys := by
  suffices hends : Ends False (c.lower options generated) fun r => ∃ ms ys, c.Lowers options r.1 ms ys from
    hends.of_ok h
  unfold lower
  refine Ends.bind (P := fun p => ∃ ys, Progress.Records ⟨options, c.moduleTable⟩ c.modules p ys)
    (Ends.foldlM (fun done p => ∃ ys, Progress.Records ⟨options, c.moduleTable⟩ done p ys) c.modules
      ⟨[], ⟨⟨rfl, rfl⟩, nofun⟩, rfl⟩ ?_) ?_
  · rintro done m rest p hl ⟨ys, hp⟩
    have hm : m ∈ c.modules := hl ▸ List.mem_append_right _ List.mem_cons_self
    have hinput : m.Input (.lax ⟨options, c.moduleTable⟩) fun _ => 0 := Module.Built.input (hb m hm) nofun id id
    exact hp.lowerModule_ends (Module.inherits_lower hinput (hc.syms m hm))
  · rintro p ⟨ys, hlowered, hrenames⟩
    rw [hrenames]
    refine Ends.bind (P := fun f => followRenames { c with modules := p.modules } (Symbols.allRenames ys) = .ok f)
      (Ends.intro (fun _ h => h) nofun) fun f hf => .pure ?_
    obtain ⟨hre, hparts, hnodup, hclear⟩ := followRenames_parts (hlowered.prepared hc) hc.paths hf
    exact ⟨p.modules, ys, hlowered, hre, hparts, hnodup, hclear⟩

/-! ## What becomes of each path -/

theorem filter_name_perm {l A B : List HierPath} {p : HierPath} (h : l.Perm (A ++ p :: B))
    (hnd : (l.map (·.name)).Nodup) : (l.filter (·.name != p.name)).Perm (A ++ B) := by
  have hnd' : ((A ++ p :: B).map (·.name)).Nodup := (h.map _).nodup_iff.1 hnd
  rw [List.map_append, List.map_cons, List.nodup_middle, List.nodup_cons, ← List.map_append] at hnd'
  refine (h.filter _).trans (.of_eq ?_)
  rw [List.filter_append, List.filter_cons_of_neg (by simp), ← List.filter_append, List.filter_eq_self]
  intro q hq
  rw [bne_iff_ne]
  exact fun hname => hnd'.1 (hname ▸ List.mem_map_of_mem hq)

/-- Where paths of `c` were split, one after the other, each of them stayed as it is or was split among the targets
of the symbol at its end. -/
theorem exists_derived {c c' : Circuit} {renames : List Renames} (hc : c.Prepared options renames)
    (hnd : (c.paths.map (·.name)).Nodup) (h : Relation.ReflTransGen (Parts options renames) c c') :
    (c'.paths.map (·.name)).Nodup ∧ ∃ derived : HierPath → List HierPath, c'.paths.Perm (c.paths.flatMap derived) ∧
      ∀ p ∈ c.paths, derived p = [p] ∨ ∃ ref i ts, p.target? = some ref ∧ Renamed renames ref i ts ∧
        ∃ named : List (Target × String), named.map (·.1) = ts ∧ (∀ e, named[0]? = some e → e.2 = p.name) ∧
          derived p = named.map fun e => p.retarget e.2 ⟨ref.moduleName, e.1.sym⟩ := by
  induction h with
  | refl => exact ⟨hnd, fun p => [p], .of_eq (by simp), fun _ _ => .inl rfl⟩
  | @tail c₁ c₂ _ hstep ih =>
    obtain ⟨hnd₁, derived, hperm, hderived⟩ := ih
    obtain ⟨p, hp, ref, i, ts, named, htarget, hren, hnamed, hd⟩ := hstep
    obtain ⟨p₀, hp₀, hmem⟩ := List.mem_flatMap.1 (hperm.mem_iff.1 hp)
    rcases hderived p₀ hp₀ with heq | ⟨ref₀, i₀, ts₀, -, hren₀, named₀, hnamed₀, -, heq⟩
    · obtain rfl := List.mem_singleton.1 (heq ▸ hmem)
      obtain ⟨A, B, hAB⟩ := List.append_of_mem hp₀
      rw [hAB, List.map_append, List.map_cons, List.nodup_middle, List.nodup_cons, ← List.map_append] at hnd
      have hother : ∀ q ∈ A ++ B, q ≠ p := fun q hq heq => hnd.1 (heq ▸ List.mem_map_of_mem hq)
      refine ⟨hd.nodup, fun q => if q = p then named.map fun e => p.retarget e.2 ⟨ref.moduleName, e.1.sym⟩
        else derived q, ?_, fun q hq => ?_⟩
      · have hrest : ∀ l ⊆ A ++ B, (l.flatMap fun q => if q = p then
            named.map fun e => p.retarget e.2 ⟨ref.moduleName, e.1.sym⟩ else derived q) = l.flatMap derived :=
          fun l hl => List.flatMap_congr fun q hq => if_neg (hother q (hl hq))
        rw [hAB, List.flatMap_append, List.flatMap_cons, heq, List.singleton_append] at hperm
        rw [hd.paths, hAB, List.flatMap_append, List.flatMap_cons, if_pos rfl,
          hrest A (List.subset_append_left _ _), hrest B (List.subset_append_right _ _)]
        refine ((filter_name_perm hperm hnd₁).append_right _).trans ?_
        rw [List.append_assoc]
        exact (List.perm_append_comm).append_left _
      · by_cases hqp : q = p
        · subst hqp
          exact .inr ⟨ref, i, ts, htarget, hren, named, hnamed, hd.head, if_pos rfl⟩
        · simp only [if_neg hqp]
          exact hderived q hq
    · -- a path to a target is not split again
      rw [heq] at hmem
      obtain ⟨e, he, rfl⟩ := List.mem_map.1 hmem
      rw [HierPath.target?_retarget] at htarget
      obtain rfl := Option.some.inj htarget
      exact absurd hren (hc.final hren₀ (hnamed₀ ▸ List.mem_map_of_mem he) i ts)

/-! ## Annotations and their paths -/

/-- Every annotation of a port or declaration that is scoped to a path is on one with a symbol, at which the path
ends. -/
def AnnotationsScoped (options : Options) (c : Circuit) : Prop :=
  ∀ m ∈ c.modules, ∀ e ∈ m.carriers options, ∀ a ∈ e.annotations, ∀ n ∈ a.path, ∃ sym ∈ e.sym, ∃ p ∈ c.paths,
    p.name = n ∧ p.target? = some ⟨m.name, sym⟩

instance (options : Options) (c : Circuit) : Decidable (c.AnnotationsScoped options) := by
  unfold AnnotationsScoped
  infer_instance

/-- While paths are split, annotations are scoped to paths that end at the symbol of what they are on, or at the one
that it is a target of. -/
def Follows (options : Options) (renames : List Renames) (ms : List Module) (c : Circuit) : Prop :=
  ∀ j m sym? place n, ms[j]? = some m → c.Refers options j sym? place n → ∃ sym, sym? = some sym ∧
    ∃ p ∈ c.paths, p.name = n ∧
      ((p.target? = some ⟨m.name, sym⟩ ∧ ∀ i ts, ¬Renamed renames ⟨m.name, sym⟩ i ts) ∨
        ∃ root ts, p.target? = some ⟨m.name, root⟩ ∧ Renamed renames ⟨m.name, root⟩ j ts ∧ ⟨sym, place⟩ ∈ ts)

theorem Follows.parts {c c' : Circuit} {renames : List Renames} {ms : List Module}
    (hu : ∀ {ref i i' ts ts'}, Renamed renames ref i ts → Renamed renames ref i' ts' → i' = i ∧ ts' = ts)
    (hfinal : ∀ {ref i ts t}, Renamed renames ref i ts → t ∈ ts → ∀ i' ts', ¬Renamed renames ⟨ref.moduleName, t.sym⟩ i' ts')
    (hf : Follows options renames ms c) (hnd : (c.paths.map (·.name)).Nodup)
    (h : c.Parts options renames c') : Follows options renames ms c' := by
  obtain ⟨p, hp, ref, i, ts, named, htarget, hren, hnamed, hd⟩ := h
  intro j m sym? place n' hm hr
  obtain ⟨n, hr, hn⟩ := hd.refers hr
  obtain ⟨sym, rfl, q, hq, hname, hends⟩ := hf j m sym? place n hm hr
  refine ⟨sym, rfl, ?_⟩
  by_cases hqp : n = p.name
  · -- the annotation is scoped to the path that is split
    obtain rfl := List.inj_on_of_nodup_map hnd hq hp (hname.trans hqp)
    rcases hends with ⟨hqt, hnot⟩ | ⟨root, ts', hqt, hren', ht⟩
    · obtain rfl := Option.some.inj (hqt.symm.trans htarget)
      exact absurd hren (hnot i ts)
    · obtain rfl := Option.some.inj (hqt.symm.trans htarget)
      obtain ⟨rfl, rfl⟩ := hu hren hren'
      obtain ⟨e, he, hte⟩ := List.mem_map.1 (hnamed ▸ ht)
      rcases hn with ⟨-, -, e', he', hs, -, rfl⟩ | ⟨-, hnot⟩
      · refine ⟨q.retarget e'.2 ⟨m.name, e'.1.sym⟩, ?_, rfl, .inl ⟨?_, fun i' ts' => ?_⟩⟩
        · rw [hd.paths]
          exact List.mem_append_right _ (List.mem_map_of_mem he')
        · rw [HierPath.target?_retarget, Option.some.inj hs]
        · rw [Option.some.inj hs]
          exact hfinal hren (hnamed ▸ List.mem_map_of_mem he') i' ts'
      · exact absurd ⟨hqp, rfl, e, he, by rw [hte], by rw [hte]⟩ hnot
  · rcases hn with ⟨hcontra, -⟩ | ⟨rfl, -⟩
    · exact absurd hcontra hqp
    · refine ⟨q, ?_, hname, hends⟩
      rw [hd.paths]
      exact List.mem_append_left _ (List.mem_filter.2 ⟨hq, by simpa [hname] using hqp⟩)

theorem Follows.trans {c c' : Circuit} {renames : List Renames} {ms : List Module}
    (hu : ∀ {ref i i' ts ts'}, Renamed renames ref i ts → Renamed renames ref i' ts' → i' = i ∧ ts' = ts)
    (hc : c.Prepared options renames) (hf : Follows options renames ms c) (hnd : (c.paths.map (·.name)).Nodup)
    (h : Relation.ReflTransGen (Parts options renames) c c') : Follows options renames ms c' := by
  suffices Follows options renames ms c' ∧ (c'.paths.map (·.name)).Nodup from this.1
  induction h with
  | refl => exact ⟨hf, hnd⟩
  | tail _ hstep ih =>
    obtain ⟨hf₁, hnd₁⟩ := ih
    refine ⟨hf₁.parts hu hc.final hnd₁ hstep, ?_⟩
    obtain ⟨_, _, _, _, _, _, _, _, _, hd⟩ := hstep
    exact hd.nodup

end Circuit

/-! ## Nothing kept -/

/-- Where nothing is kept, what stands after lowering is ground, or an instance. -/
theorem Module.Inherits.ground {options : Options} {m m' : Module} {y : Symbols} {e : Carrier}
    (h : m.Inherits options m' y) (hoff : options.preserveAggregate = false) (he : e ∈ m'.carriers options)
    (hty : e.ty.isSome) : e.ground = true := by
  obtain ⟨t, ht⟩ := Option.isSome_iff_exists.1 hty
  rw [Carrier.ground, ht, Option.any_some]
  refine (h.whole e he t ht).resolve_right ?_
  rintro ⟨hkeep, -⟩
  rw [Module.keep_eq_false hoff he] at hkeep
  cases hkeep

namespace Circuit

variable {options : Options} {c : Circuit} {ms : List Module} {ys : List Symbols}

/-- Once the modules are lowered, annotations are scoped to paths that end at the symbol of what they are on, or at
the one that it is a target of. -/
theorem AnnotationsScoped.follows (h : c.AnnotationsScoped options) (hc : c.Distinct) (hoff : options.preserveAggregate = false)
    (hl : LoweredEach ⟨options, c.moduleTable⟩ c.modules ms ys) :
    Follows options (Symbols.allRenames ys) ms { c with modules := ms } := by
  rintro j m' sym? place n hm' ⟨m₁, hm₁, e, he, rfl, rfl, a, ha, hpath⟩
  obtain rfl := Option.some.inj (hm'.symm.trans hm₁)
  obtain ⟨m, m'', y, hm, hm'', hy⟩ := hl.get (hl.length.1 ▸ (List.getElem?_eq_some_iff.1 hm').1)
  obtain rfl := Option.some.inj (hm'.symm.trans hm'')
  obtain ⟨-, hinherits⟩ := hl.each hm hm' hy
  obtain ⟨e₀, he₀, ⟨a₀, ha₀, hpath₀⟩, hsym₀⟩ := hinherits.descent.annotated he ha hpath
  obtain ⟨s₀, hs₀, p, hp, hpn, hpt⟩ := h m (List.mem_of_getElem? hm) e₀ he₀ a₀ ha₀ n hpath₀
  -- it descends from what the annotation was on
  have hroot : e.sym.map y.root = some s₀ := by
    rcases hsym₀ with hnone | hsome
    · rw [hs₀] at hnone
      cases hnone
    · rw [← hsome, hs₀]
  obtain ⟨s, hs, rfl⟩ := Option.map_eq_some_iff.1 hroot
  refine ⟨s, hs, p, hp, hpn, ?_⟩
  rw [hinherits.name]
  rcases hinherits.root_cases he hs he₀ hs₀ with heq | ⟨hty, hgives⟩
  · refine .inl ⟨heq ▸ hpt, fun i ts hr => ?_⟩
    obtain ⟨m₂, m₂', y₂, hm₂, hm₂', hy₂, hname, hts⟩ := hl.of_renamed hr
    obtain rfl := hc.index_eq hm₂ hm hname
    obtain rfl := Option.some.inj (hy.symm.trans hy₂)
    exact hinherits.not_givesWay he hs (hinherits.descent.targets hts).1
  · obtain ⟨ts, hts, ht⟩ := hinherits.descent.complete he hs (hinherits.ground hoff he hty) hgives
    exact .inr ⟨_, ts, hpt, renamed_allRenames.2 ⟨y, hy, hinherits.descent.moduleName, (Assoc.get?_eq_some_iff hinherits.descent.keys).1 hts⟩, ht⟩

/-- Annotations keep agreeing with the paths that they are scoped to, where no aggregate is kept. -/
theorem scoped_of_lower (hb : c.Built) (hc : c.Distinct) (h : c.AnnotationsScoped options)
    (hoff : options.preserveAggregate = false) {generated : Nat} {r : Circuit × Stats × Nat}
    (hr : c.lower options generated = .ok r) : r.1.AnnotationsScoped options := by
  obtain ⟨ms, ys, hl⟩ := exists_lowers hb hc hr
  have hf := (h.follows hc hoff hl.each).trans (hl.each.renamed_unique hc) (hl.each.prepared hc) hc.paths hl.parts
  intro m' hm' e he a ha n hpath
  obtain ⟨j, hj⟩ := List.mem_iff_getElem?.1 hm'
  obtain ⟨hj', -⟩ := List.getElem?_eq_some_iff.1 hj
  obtain ⟨m, hm⟩ : ∃ m, ms[j]? = some m := ⟨_, List.getElem?_eq_getElem (hl.reannotated.modules.length_eq ▸ hj')⟩
  have hmod : m.Reannotated m' := hl.reannotated.getElem? hm hj
  obtain ⟨sym, hsym, p, hp, hname, hends⟩ := hf j m e.sym e.place n hm ⟨m', hj, e, he, rfl, rfl, a, ha, hpath⟩
  refine ⟨sym, hsym, p, hp, hname, ?_⟩
  rcases hends with ⟨ht, -⟩ | ⟨root, ts, ht, hren, -⟩
  · rw [hmod.name]
    exact ht
  · exact absurd hren (hl.clear p hp _ j ts ht)

/-- What a computation gives can be decided. -/
theorem exists_ok_of_any {ε α : Type} {m : Except ε α} {p : α → Prop} [DecidablePred p]
    (h : (m.toOption.any fun a => decide (p a)) = true) : ∃ a, m = .ok a ∧ p a := by
  cases m with
  | error e => cases h
  | ok a => exact ⟨a, rfl, of_decide_eq_true h⟩

/-- A port of one field with a symbol, and an annotation of the port that is scoped to the path to it. -/
def portCircuit : Circuit where
  name := "M"
  modules := [⟨"M", true, [⟨"a", .bundle [⟨"x", false, .uint 1⟩], .input, some "s",
    [⟨"c", none, some "p", []⟩]⟩], [], none⟩]
  paths := [⟨"p", [.inner ⟨"M", "s"⟩]⟩]

theorem portCircuit_built : portCircuit.Built := by
  rintro m hm b hb
  obtain rfl := List.mem_singleton.1 hm
  cases hb

theorem portCircuit_distinct : portCircuit.Distinct := ⟨by decide, by decide, by decide⟩

theorem scoped_of_lower_port : ∃ r, portCircuit.lower {} 0 = .ok r ∧ r.1.AnnotationsScoped {} := by
  have hok : (portCircuit.lower {} 0).isOk := by decide +kernel
  cases hr : portCircuit.lower {} 0 with
  | error => rw [hr] at hok; cases hok
  | ok r => exact ⟨r, rfl, scoped_of_lower portCircuit_built portCircuit_distinct (by decide) rfl hr⟩

/-- A node whose result is not of the type of its operand. -/
def mistypedCircuit : Circuit where
  name := "M"
  modules := [⟨"M", true, [⟨"a", .bundle [⟨"a", false, .uint 1⟩], .input, none, []⟩], [], some {
    values := #[⟨.bundle [⟨"a", false, .uint 1⟩], .argument, [⟨⟨0⟩, 0⟩]⟩,
      ⟨.bundle [⟨"a", false, .bundle [⟨"x", false, .uint 1⟩]⟩], .result ⟨0⟩ 0, []⟩]
    ops := #[⟨.node { name := some "n", sym := some "s", annotations := [⟨"c", none, some "p", []⟩] },
      [⟨0⟩], [⟨1⟩], Body.entry, false⟩]
    blocks := #[⟨[⟨0⟩], none⟩]
    args := [⟨0⟩] }⟩]
  paths := [⟨"p", [.inner ⟨"M", "s"⟩]⟩]

/-- Where types are not as they should be, a ground part is not recorded, and its path does not follow. -/
theorem mistypedCircuit_not_scoped : mistypedCircuit.Distinct ∧ mistypedCircuit.AnnotationsScoped {} ∧
    ∃ r, mistypedCircuit.lower {} 0 = .ok r ∧ ¬r.1.AnnotationsScoped {} := by
  exact ⟨⟨by decide, by decide, by decide⟩, by decide, exists_ok_of_any (by decide +kernel)⟩

end Circuit

end Scalarize
