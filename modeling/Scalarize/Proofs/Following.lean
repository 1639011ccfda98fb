import Mathlib.Logic.Relation
import Scalarize.Proofs.Paths

/-!
# Following the renames

* `Renamed` : a symbol was split, and these are its targets; `HierPath.retarget` : a path with another end;
* `PathState.Sound` : paths have names of their own, and the table knows all of them;
* `Circuit.Parts` : one path gives way to a path for each target, and the annotations of the targets follow;
* `Circuit.followRenames_parts` : following the renames is one such step after another, until no path is left
  that ends at a renamed symbol.
-/

namespace Scalarize

/-- A symbol was split in the module at the position `i`, and the targets `ts` stand for it now. -/
def Renamed (renames : List Renames) (ref : InnerRef) (i : Nat) (ts : List Target) : Prop :=
  ∃ r ∈ renames, r.moduleName = ref.moduleName ∧ r.index = i ∧ (ref.sym, ts) ∈ r.targets

/-- The path under another name, with another inner symbol at its end. -/
def HierPath.retarget (p : HierPath) (name : String) (ref : InnerRef) : HierPath :=
  ⟨name, p.segments.dropLast ++ [.inner ref]⟩

@[simp] theorem HierPath.target?_retarget (p : HierPath) (name : String) (ref : InnerRef) :
    (p.retarget name ref).target? = some ref := by simp [target?, retarget]

/-- A path that ends at an inner symbol passes through its module. -/
theorem HierPath.mem_segments_of_target? {p : HierPath} {ref : InnerRef} (h : p.target? = some ref) :
    .inner ref ∈ p.segments := by
  unfold target? at h
  split at h
  next ref' hlast =>
    obtain rfl := Option.some.inj h
    exact List.mem_of_getLast? hlast
  next => cases h

namespace PathState

/-- Paths have names of their own, which are taken, and the table knows all of them. -/
structure Sound (s : PathState) : Prop where
  nodup : (s.circuit.paths.map (·.name)).Nodup
  taken : ∀ p ∈ s.circuit.paths, p.name ∈ s.names.taken
  table : s.table.Complete s.circuit.paths

end PathState

namespace Circuit

variable {options : Options} {c c' : Circuit} {p q : HierPath} {ref : InnerRef} {i : Nat} {ts : List Target}

theorem path?_eq_some_iff (h : (c.paths.map (·.name)).Nodup) {name : String} :
    c.path? name = some p ↔ p ∈ c.paths ∧ p.name = name := by
  unfold path?
  constructor
  · intro hp
    exact ⟨List.mem_of_find?_eq_some hp, by simpa using List.find?_some hp⟩
  · rintro ⟨hp, rfl⟩
    cases hfind : c.paths.find? (·.name == p.name) with
    | none => exact absurd (List.find?_eq_none.1 hfind p hp) (by simp)
    | some q =>
      have hname : q.name = p.name := by simpa using List.find?_some hfind
      exact congrArg some (List.inj_on_of_nodup_map h (List.mem_of_find?_eq_some hfind) hp hname)

/-- One path gives way to one path for each of the targets: `named` lists the targets, each with the name of its
path. Annotations of a target that were scoped to the path are scoped to the path of the target. -/
structure Divides (options : Options) (c : Circuit) (p : HierPath) (moduleName : String) (i : Nat)
    (named : List (Target × String)) (c' : Circuit) : Prop where
  head : ∀ e, named[0]? = some e → e.2 = p.name
  paths : c'.paths = c.paths.filter (·.name != p.name) ++
    named.map fun e => p.retarget e.2 ⟨moduleName, e.1.sym⟩
  nodup : (c'.paths.map (·.name)).Nodup
  refers : ∀ {j sym? place n'}, c'.Refers options j sym? place n' → ∃ n, c.Refers options j sym? place n ∧
    ((n = p.name ∧ j = i ∧ ∃ e ∈ named, sym? = some e.1.sym ∧ place = e.1.kind ∧ e.2 = n') ∨
      n' = n ∧ ¬(n = p.name ∧ j = i ∧ ∃ e ∈ named, sym? = some e.1.sym ∧ place = e.1.kind))

/-- One path that ends at a renamed symbol gives way to one path for each target. -/
def Parts (options : Options) (renames : List Renames) (c c' : Circuit) : Prop :=
  ∃ p ∈ c.paths, ∃ ref i ts named, p.target? = some ref ∧ Renamed renames ref i ts ∧
    named.map (·.1) = ts ∧ c.Divides options p ref.moduleName i named c'

end Circuit

namespace PathState

variable {options : Options} {c : Circuit} {s s' : PathState} {r : Renames} {p : HierPath} {sym name : String}
  {ts : List Target} {named : List (Target × String)}

/-- The targets `named` of the path got their paths so far. -/
structure Divided (options : Options) (s : PathState) (r : Renames) (p : HierPath)
    (named : List (Target × String)) (s' : PathState) : Prop where
  sound : s'.Sound
  reannotated : s.circuit.Reannotated s'.circuit
  taken : ∀ n ∈ s.names.taken, n ∈ s'.names.taken
  divides : s.circuit.Divides options p r.moduleName r.index named s'.circuit

/-- A path is taken out, before any target gets its own. -/
theorem Sound.divided (h : s.Sound) (hp : p ∈ s.circuit.paths) {table : PathTable} {circuit : Circuit}
    {p' : HierPath} (he : s.table.erase s.circuit p.name = some (p', table, circuit)) :
    p' = p ∧ Divided options s r p [] { s with circuit, table } := by
  have hlookup : ∀ {n k}, n ∈ s.table.lookup k → n ≠ p.name → n ∈ table.lookup k :=
    fun hn hne => PathTable.mem_lookup_erase he hn hne
  obtain ⟨q, hq, heq⟩ := Option.map_eq_some_iff.1 he
  obtain rfl := congrArg (·.1) heq
  obtain rfl := congrArg (·.2.2) heq
  have hsub : List.Sublist (s.circuit.paths.filter (·.name != p.name)) s.circuit.paths := List.filter_sublist
  refine ⟨Option.some.inj (hq.symm.trans ((Circuit.path?_eq_some_iff h.nodup).2 ⟨hp, rfl⟩)),
    ⟨h.nodup.sublist (hsub.map _), fun q hq => h.taken q (hsub.subset hq), fun q hq seg hseg => ?_⟩,
    ⟨rfl, (Circuit.Reannotated.refl s.circuit).modules⟩, fun _ hn => hn, nofun, (List.append_nil _).symm, h.nodup.sublist (hsub.map _), ?_⟩
  · obtain ⟨hq', hne⟩ := List.mem_filter.1 hq
    exact hlookup (h.table q hq' seg hseg) (by simpa using hne)
  · exact fun hr => ⟨_, hr, .inr ⟨rfl, by simp⟩⟩

/-- The next target gets its path. -/
theorem Divided.addTarget (h : s.Divided options r p named s') (hp : p.name ∈ s.names.taken) {t : Target}
    (hnew : t.sym ∉ named.map (·.1.sym)) (ht : s.circuit.Hosts options r.index t) :
    Ends False (s'.addTarget r p (t, named.length)) fun s'' => ∃ name,
      s.Divided options r p (named ++ [(t, name)]) s'' := by
  unfold PathState.addTarget
  dsimp only
  -- the name is that of the path, which was taken out, or it is new
  obtain ⟨name, names, hname, hfresh, htaken, hmem, hhead⟩ : ∃ name names,
      (if named.length = 0 then (p.name, s'.names) else s'.names.fresh p.name) = (name, names) ∧
        name ∉ s'.circuit.paths.map (·.name) ∧ (∀ n ∈ s'.names.taken, n ∈ names.taken) ∧ name ∈ names.taken ∧
        (named = [] → name = p.name) := by
    split
    next hnil =>
      rw [List.length_eq_zero_iff] at hnil
      refine ⟨_, _, rfl, ?_, fun _ hn => hn, h.taken _ hp, fun _ => rfl⟩
      rw [h.divides.paths, hnil, List.map_nil, List.append_nil]
      simp
    next hcons =>
      refine ⟨(s'.names.fresh p.name).1, (s'.names.fresh p.name).2, rfl, fun hmem => ?_, fun n hn => ?_, ?_,
        fun hnil => absurd (by simp [hnil]) hcons⟩
      · obtain ⟨q, hq, hname⟩ := List.mem_map.1 hmem
        exact s'.names.fresh_not_mem p.name (hname ▸ h.sound.taken q hq)
      · rw [NamePool.taken_fresh]
        exact List.mem_cons_of_mem _ hn
      · rw [NamePool.taken_fresh]
        exact List.mem_cons_self
  rw [hname]
  dsimp only
  split
  next => exact .throw id
  next c' hc' =>
    obtain ⟨hpaths, hrefers⟩ := Circuit.refers_of_redirectTarget? hc' (h.reannotated.hosts ht)
    have hre := h.reannotated.trans (Circuit.redirectTarget?_reannotated hc')
    have hput : c'.putPath (p.retarget name ⟨r.moduleName, t.sym⟩) =
        { c' with paths := s'.circuit.paths ++ [p.retarget name ⟨r.moduleName, t.sym⟩] } := by
      unfold Circuit.putPath
      rw [if_neg, hpaths]
      simpa [List.any_eq_true, HierPath.retarget, hpaths] using hfresh
    refine .pure ⟨name, ?_⟩
    unfold PathTable.add
    rw [show (⟨name, p.segments.dropLast ++ [.inner ⟨r.moduleName, t.sym⟩]⟩ : HierPath) =
      p.retarget name ⟨r.moduleName, t.sym⟩ from rfl, hput]
    have hnodup : ((s'.circuit.paths ++ [p.retarget name ⟨r.moduleName, t.sym⟩]).map (·.name)).Nodup := by
      rw [List.map_append, List.nodup_append]
      refine ⟨h.sound.nodup, List.nodup_singleton _, ?_⟩
      rintro n hn _ hn' rfl
      obtain rfl : n = name := List.mem_singleton.1 hn'
      exact hfresh hn
    refine ⟨⟨hnodup, fun q hq => ?_, h.sound.table.note _⟩, ⟨hre.name, hre.modules⟩,
      fun n hn => htaken n (h.taken n hn), ?_, ?_, hnodup, fun {j sym? place n'} hr => ?_⟩
    · rcases List.mem_append.1 hq with hq | hq
      · exact htaken _ (h.sound.taken q hq)
      · rw [List.mem_singleton.1 hq]
        exact hmem
    · intro e he
      cases named with
      | nil =>
        obtain rfl := Option.some.inj he
        exact hhead rfl
      | cons e₀ rest => exact h.divides.head e he
    · dsimp only
      rw [h.divides.paths, List.map_append, List.append_assoc]
      rfl
    -- an annotation of the target follows, all others stay
    · obtain ⟨n, hbefore, hn⟩ := hrefers hr
      obtain ⟨n₀, hn₀, hcases⟩ := h.divides.refers hbefore
      refine ⟨n₀, hn₀, ?_⟩
      rcases hcases with ⟨hpn, hj, e, he, hs, hpl, hen⟩ | ⟨rfl, hnot⟩
      · -- a former target, which is another one
        refine .inl ⟨hpn, hj, e, List.mem_append_left _ he, hs, hpl, hen.trans ?_⟩
        rw [hn, if_neg]
        rintro ⟨-, hs', -⟩
        exact hnew (List.mem_map.2 ⟨e, he, Option.some.inj (hs.symm.trans hs')⟩)
      · by_cases hcase : j = r.index ∧ sym? = some t.sym ∧ place = t.kind ∧ n = p.name
        · rw [if_pos hcase] at hn
          obtain ⟨hj, hs, hpl, hpn⟩ := hcase
          exact .inl ⟨hpn, hj, (t, name), List.mem_append_right _ List.mem_cons_self, hs, hpl, hn.symm⟩
        · rw [if_neg hcase] at hn
          refine .inr ⟨hn, ?_⟩
          rintro ⟨hpn, hj, e, he, hs, hpl⟩
          rcases List.mem_append.1 he with he | he
          · exact hnot ⟨hpn, hj, e, he, hs, hpl⟩
          · rw [List.mem_singleton.1 he] at hs hpl
            exact hcase ⟨hj, hs, hpl, hpn⟩

/-- A path is split if it ends at the symbol, and stays as it is otherwise. -/
theorem Sound.splitPath_ends (h : s.Sound) (hts : (ts.map (·.sym)).Nodup)
    (hhosts : ∀ t ∈ ts, s.circuit.Hosts options r.index t) :
    Ends False (s.splitPath r sym ts name) fun s' =>
      (s' = s ∧ ∀ p ∈ s.circuit.paths, p.name = name → p.target? ≠ some ⟨r.moduleName, sym⟩) ∨
      ∃ p ∈ s.circuit.paths, p.name = name ∧ p.target? = some ⟨r.moduleName, sym⟩ ∧
        ∃ named, named.map (·.1) = ts ∧ s.Divided options r p named s' := by
  unfold PathState.splitPath
  split
  next hnone =>
    refine .pure (.inl ⟨rfl, fun p hp hname => ?_⟩)
    rw [(Circuit.path?_eq_some_iff h.nodup).2 ⟨hp, hname⟩] at hnone
    cases hnone
  next p hsome =>
    obtain ⟨hp, rfl⟩ := (Circuit.path?_eq_some_iff h.nodup).1 hsome
    split
    next hne =>
      refine .pure (.inl ⟨rfl, fun q hq hname => ?_⟩)
      obtain rfl := List.inj_on_of_nodup_map h.nodup hq hp hname
      exact hne
    next htarget =>
      rw [ne_eq, not_not] at htarget
      cases he : s.table.erase s.circuit p.name with
      | none =>
        obtain hcontra := Option.map_eq_none_iff.1 he
        rw [hsome] at hcontra
        cases hcontra
      | some e =>
        obtain ⟨p', table, circuit⟩ := e
        obtain ⟨rfl, hstart⟩ : p' = p ∧ Divided options s r p [] { s with circuit, table } := h.divided hp he
        dsimp only
        refine Ends.bind (P := fun s' => ∃ named, named.map (·.1) = ts ∧ s.Divided options r p' named s') ?_
          fun s' hs' => .pure (.inr ⟨p', hp, rfl, htarget, ?_⟩)
        · refine (Ends.foldlM (fun done s' => ∃ named : List (Target × String),
            named.map (·.1) = done.map (·.1) ∧ s.Divided options r p' named s') ts.zipIdx ⟨[], rfl, hstart⟩ ?_).mono
            fun s' ⟨named, hn, hd⟩ => ⟨named, by rw [hn, List.zipIdx_map_fst], hd⟩
          rintro done ⟨t, j⟩ rest s' hl ⟨named, hnamed, hd⟩
          have hmap := congrArg (List.map (·.1)) hl
          rw [List.zipIdx_map_fst, List.map_append, List.map_cons] at hmap
          have hlen : named.length = done.length := by simpa using congrArg List.length hnamed
          obtain rfl : j = named.length := by
            have hget : ts.zipIdx[done.length]? = some (t, j) := by rw [hl]; simp
            rw [List.getElem?_zipIdx, Nat.zero_add] at hget
            obtain ⟨_, _, heq⟩ := Option.map_eq_some_iff.1 hget
            exact hlen ▸ (congrArg Prod.snd heq).symm
          refine (hd.addTarget (h.taken p' hp) ?_ (hhosts t (hmap ▸ List.mem_append_right _ List.mem_cons_self))).mono
            fun s'' ⟨n, hn⟩ => ⟨_, by simp [hnamed], hn⟩
          rw [hmap, List.map_append, List.map_cons, List.nodup_middle] at hts
          have hnot := (List.nodup_cons.1 hts).1
          rw [← hnamed] at hnot
          rw [show named.map (·.1.sym) = (named.map (·.1)).map (·.sym) by rw [List.map_map]; rfl]
          exact fun hmem => hnot (List.mem_append_left _ hmem)
        · obtain ⟨named, hn, hd⟩ := hs'
          exact ⟨named, hn, ⟨hd.sound.nodup, hd.sound.taken, hd.sound.table⟩, ⟨hd.reannotated.name,
            hd.reannotated.modules⟩, hd.taken, hd.divides⟩

end PathState

/-! ## All renames -/

/-- Symbols are renamed to targets that are there, each symbol once, and targets are not renamed themselves. -/
structure Circuit.Prepared (options : Options) (c : Circuit) (renames : List Renames) : Prop where
  hosts : ∀ {ref i ts}, Renamed renames ref i ts → (ts.map (·.sym)).Nodup ∧ ∀ t ∈ ts, c.Hosts options i t
  final : ∀ {ref i ts t}, Renamed renames ref i ts → t ∈ ts →
    ∀ i' ts', ¬Renamed renames ⟨ref.moduleName, t.sym⟩ i' ts'

namespace PathState

variable {options : Options} {c : Circuit} {s s' : PathState} {r : Renames} {renames : List Renames}

/-- Paths that end at renamed symbols were split, one after the other. -/
structure Follows (options : Options) (c : Circuit) (renames : List Renames) (s : PathState) : Prop where
  sound : s.Sound
  reannotated : c.Reannotated s.circuit
  parts : Relation.ReflTransGen (Circuit.Parts options renames) c s.circuit

/-- No path ends at one of the symbols. -/
def Clear (s : PathState) (moduleName : String) (syms : List String) : Prop :=
  ∀ p ∈ s.circuit.paths, ∀ sym ∈ syms, p.target? ≠ some ⟨moduleName, sym⟩

/-- When a path is split, no path comes that ends at a renamed symbol. -/
theorem Divided.target? {p q : HierPath} {sym : String} {ts : List Target} {named : List (Target × String)}
    (hc : c.Prepared options renames) (hd : s.Divided options r p named s') (hr : r ∈ renames)
    (hts : (sym, ts) ∈ r.targets) (hnamed : named.map (·.1) = ts) (hq : q ∈ s'.circuit.paths) :
    q ∈ s.circuit.paths ∧ q.name ≠ p.name ∨
      ∀ ref i ts, q.target? = some ref → ¬Renamed renames ref i ts := by
  rw [hd.divides.paths] at hq
  rcases List.mem_append.1 hq with hq | hq
  · exact .inl ⟨(List.mem_filter.1 hq).1, by simpa using (List.mem_filter.1 hq).2⟩
  · obtain ⟨e, he, rfl⟩ := List.mem_map.1 hq
    refine .inr fun ref i ts' href => ?_
    rw [HierPath.target?_retarget] at href
    obtain rfl := Option.some.inj href
    have hrenamed : Renamed renames ⟨r.moduleName, sym⟩ r.index ts := ⟨r, hr, rfl, rfl, hts⟩
    exact hc.final hrenamed (hnamed ▸ List.mem_map.2 ⟨e, he, rfl⟩) i ts'

/-- All paths are split that end at one symbol, and none is left then. -/
theorem Follows.followSymbol_ends (hc : c.Prepared options renames) (hs : Follows options c renames s)
    (hr : r ∈ renames) {e : String × List Target} (he : e ∈ r.targets) :
    Ends False (s.followSymbol r e) fun s' => Follows options c renames s' ∧ s'.Clear r.moduleName [e.1] ∧
      ∀ name syms, (∀ sym ∈ syms, ∃ i ts, Renamed renames ⟨name, sym⟩ i ts) → s.Clear name syms →
        s'.Clear name syms := by
  obtain ⟨sym, ts⟩ := e
  have hren : Renamed renames ⟨r.moduleName, sym⟩ r.index ts := ⟨r, hr, rfl, rfl, he⟩
  unfold followSymbol
  refine (Ends.foldlM (fun done s' => Follows options c renames s' ∧
    (∀ p ∈ s'.circuit.paths, p.target? = some ⟨r.moduleName, sym⟩ →
      p ∈ s.circuit.paths ∧ p.name ∉ done) ∧
    ∀ name syms, (∀ sym ∈ syms, ∃ i ts, Renamed renames ⟨name, sym⟩ i ts) → s.Clear name syms →
      s'.Clear name syms) _ ⟨hs, fun p hp _ => ⟨hp, nofun⟩, fun _ _ _ h => h⟩ ?_).mono ?_
  · rintro done name rest s' - ⟨hs', hleft, hclear⟩
    refine (hs'.sound.splitPath_ends (hc.hosts hren).1 fun t ht => hs'.reannotated.hosts ((hc.hosts hren).2 t ht)).mono
      fun s'' hs'' => ?_
    rcases hs'' with ⟨rfl, hnot⟩ | ⟨p, hp, rfl, htarget, named, hnamed, hd⟩
    · refine ⟨hs', fun p hp hpt => ⟨(hleft p hp hpt).1, ?_⟩, hclear⟩
      simp only [List.mem_append, List.mem_singleton, not_or]
      exact ⟨(hleft p hp hpt).2, fun hname => hnot p hp hname hpt⟩
    · have hcases := fun q (hq : q ∈ s''.circuit.paths) => hd.target? hc hr he hnamed hq
      refine ⟨⟨hd.sound, hs'.reannotated.trans hd.reannotated, hs'.parts.tail
        ⟨p, hp, _, _, ts, named, htarget, hren, hnamed, hd.divides⟩⟩, fun q hq hqt => ?_,
        fun name syms hsyms h q hq u hu => ?_⟩
      · rcases hcases q hq with ⟨hq', hne⟩ | hfinal
        · refine ⟨(hleft q hq' hqt).1, ?_⟩
          simp only [List.mem_append, List.mem_singleton, not_or]
          exact ⟨(hleft q hq' hqt).2, hne⟩
        · exact absurd hren (hfinal _ _ _ hqt)
      · rcases hcases q hq with ⟨hq', -⟩ | hfinal
        · exact hclear name syms hsyms h q hq' u hu
        · obtain ⟨i, us, hus⟩ := hsyms u hu
          exact fun hqt => hfinal _ i us hqt hus
  · rintro s' ⟨hs', hleft, hclear⟩
    refine ⟨hs', fun p hp u hu hpt => ?_, hclear⟩
    obtain rfl := List.mem_singleton.1 hu
    -- the table knew the path
    obtain ⟨hp₀, hnot⟩ := hleft p hp hpt
    exact hnot (hs.sound.table p hp₀ _ (HierPath.mem_segments_of_target? hpt))

end PathState

namespace Circuit

variable {options : Options} {c c' : Circuit} {renames : List Renames} {n : Nat}

/-- Following the renames splits paths that end at renamed symbols, one after the other, until none is left. -/
theorem followRenames_parts (hc : c.Prepared options renames) (hnames : (c.paths.map (·.name)).Nodup)
    (h : c.followRenames renames = .ok (c', n)) :
    c.Reannotated c' ∧ Relation.ReflTransGen (Parts options renames) c c' ∧ (c'.paths.map (·.name)).Nodup ∧
      ∀ p ∈ c'.paths, ∀ ref i ts, p.target? = some ref → ¬Renamed renames ref i ts := by
  have hstart : PathState.Follows options c renames { circuit := c, table := .ofCircuit c, names := c.namePool } := by
    refine ⟨⟨hnames, fun p hp => ?_, PathTable.complete_ofCircuit c⟩, .refl c, .refl⟩
    refine NamePool.mem_foldl_reserve.2 (.inl ?_)
    simp only [List.cons_append, List.mem_cons, List.mem_append, List.mem_map]
    exact .inr (.inr ⟨p, hp, rfl⟩)
  suffices Ends False (renames.foldlM (fun s r => r.targets.foldlM (PathState.followSymbol r) s)
      { circuit := c, table := .ofCircuit c, names := c.namePool }) fun s => PathState.Follows options c renames s ∧
        ∀ r ∈ renames, s.Clear r.moduleName (r.targets.map (·.1)) by
    have hends : Ends False (c.followRenames renames) fun r => c.Reannotated r.1 ∧
        Relation.ReflTransGen (Parts options renames) c r.1 ∧ (r.1.paths.map (·.name)).Nodup ∧
          ∀ p ∈ r.1.paths, ∀ ref i ts, p.target? = some ref → ¬Renamed renames ref i ts := by
      refine this.bind fun s ⟨hs, hclear⟩ => .pure ⟨hs.reannotated, hs.parts, hs.sound.nodup, ?_⟩
      rintro p hp ref i ts hpt ⟨r, hr, hm, -, hts⟩
      refine hclear r hr p hp ref.sym (List.mem_map.2 ⟨_, hts, rfl⟩) ?_
      rw [hpt, hm]
    exact hends.of_ok h
  -- symbols that were followed stay clear, in this module and in all others
  refine Ends.foldlM (fun done s => PathState.Follows options c renames s ∧
    ∀ r ∈ done, s.Clear r.moduleName (r.targets.map (·.1))) renames ⟨hstart, nofun⟩ ?_
  rintro done r rest s rfl ⟨hs, hclear⟩
  have hr : r ∈ done ++ r :: rest := List.mem_append_right _ List.mem_cons_self
  refine (Ends.foldlM (fun done' s => PathState.Follows options c (done ++ r :: rest) s ∧
    s.Clear r.moduleName (done'.map (·.1)) ∧ ∀ r ∈ done, s.Clear r.moduleName (r.targets.map (·.1)))
    r.targets ⟨hs, nofun, hclear⟩ ?_).mono ?_
  · rintro done' e rest' s hl ⟨hs, hdone, hclear⟩
    have he : e ∈ r.targets := hl ▸ List.mem_append_right _ List.mem_cons_self
    have hrenamed : ∀ r' ∈ done ++ r :: rest, ∀ es ⊆ r'.targets, ∀ u ∈ es.map (·.1),
        ∃ i ts, Renamed (done ++ r :: rest) ⟨r'.moduleName, u⟩ i ts := by
      intro r' hr' es hes u hu
      obtain ⟨e', he', rfl⟩ := List.mem_map.1 hu
      exact ⟨r'.index, e'.2, r', hr', rfl, rfl, hes he'⟩
    refine (hs.followSymbol_ends hc hr he).mono fun s' ⟨hs', hsym, hkeep⟩ => ⟨hs', fun p hp u hu => ?_,
      fun r' hr' => hkeep _ _ (hrenamed r' (List.mem_append_left _ hr') _ (List.Subset.refl _)) (hclear r' hr')⟩
    rw [List.map_append, List.mem_append] at hu
    rcases hu with hu | hu
    · exact hkeep _ _ (hrenamed r hr done' (hl ▸ List.subset_append_left _ _)) hdone p hp u hu
    · exact hsym p hp u hu
  · rintro s ⟨hs, hdone, hclear⟩
    refine ⟨hs, fun r' hr' => ?_⟩
    rcases List.mem_append.1 hr' with hr' | hr'
    · exact hclear r' hr'
    · rw [List.mem_singleton.1 hr']
      exact hdone

end Circuit

end Scalarize
