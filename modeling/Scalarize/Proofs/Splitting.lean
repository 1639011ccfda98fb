import Scalarize.Proofs.Following
import Scalarize.Proofs.Provenance
import Scalarize.Proofs.References

/-!
# Which paths are split, and into what

* `Renames.targets?`, `HierPath.recorded?` : the targets that are recorded for the symbol at which a path ends;
* `HierPath.parts`, `Circuit.Splitting` : the paths that a path gives way to, and what becomes of all paths;
* `PathState.Dividing`, `PathState.Splitting` : one path is under way, and all paths are;
* `Circuit.followRenames_splitting` : following the renames splits exactly the paths that end at renamed symbols;
* `Circuit.splitting_of_lowerModules` : so it is for the renames that lowering the modules records, without failure.
-/

namespace Scalarize

/-! ## What is recorded -/

/-- The targets that are recorded for a symbol. -/
def Renames.targets? (renames : List Renames) (ref : InnerRef) : Option (List Target) :=
  (renames.find? (·.moduleName == ref.moduleName)).bind (·.targets.get? ref.sym)

namespace HierPath

/-- The targets that are recorded for the symbol at which the path ends. -/
def recorded? (renames : List Renames) (p : HierPath) : Option (List Target) :=
  p.target?.bind (Renames.targets? renames)

/-- The paths to targets of the symbol at which the path ends, each target with the name of its path. -/
def parts (p : HierPath) (named : List (Target × String)) : List HierPath :=
  p.target?.elim [] fun ref => named.map fun e => p.retarget e.2 ⟨ref.moduleName, e.1.sym⟩

end HierPath

/-- The names of a circuit, its modules and its paths. -/
def Circuit.names (c : Circuit) : List String := c.name :: c.modules.map (·.name) ++ c.paths.map (·.name)

/-- The names that were made for the paths that were split. -/
def freshNames (splits : List (HierPath × List (Target × String))) : List String :=
  splits.flatMap fun e => e.2.tail.map (·.2)

/-- The paths of `c` that end at symbols with recorded targets gave way to one path for each target, in the order of
`splits`, where each target has the name of its path; all other paths are as they were. -/
structure Circuit.Splitting (c : Circuit) (renames : List Renames)
    (splits : List (HierPath × List (Target × String))) (c' : Circuit) : Prop where
  originals : (splits.map (·.1)).Perm (c.paths.filter fun p => (p.recorded? renames).isSome)
  targets : ∀ e ∈ splits, e.1.recorded? renames = some (e.2.map (·.1))
  first : ∀ e ∈ splits, e.2.head?.map (·.2) = some e.1.name
  fresh : (freshNames splits).Nodup ∧ ∀ n ∈ freshNames splits, n ∉ c.names
  paths : c'.paths = (c.paths.filter fun p => (p.recorded? renames).isNone) ++ splits.flatMap fun e => e.1.parts e.2
  nodup : (c'.paths.map (·.name)).Nodup

/-! ## One path -/

theorem Circuit.paths_redirectTarget? {c c' : Circuit} {i : Nat} {t : Target} {old new : String}
    (h : c.redirectTarget? i t old new = some c') : c'.paths = c.paths := by
  unfold redirectTarget? at h
  obtain ⟨m, -, h⟩ := Option.bind_eq_some_iff.1 h
  cases hk : t.kind with
  | operation o =>
    simp only [hk] at h
    obtain ⟨b, -, h⟩ := Option.bind_eq_some_iff.1 h
    obtain ⟨kind, -, h⟩ := Option.bind_eq_some_iff.1 h
    obtain ⟨_, -, h⟩ := Option.bind_eq_some_iff.1 h
    exact (congrArg Circuit.paths (Option.some.inj h)).symm
  | port =>
    simp only [hk] at h
    obtain ⟨j, -, h⟩ := Option.bind_eq_some_iff.1 h
    exact (congrArg Circuit.paths (Option.some.inj h)).symm

namespace PathState

variable {s s' : PathState} {r : Renames} {p : HierPath} {sym name : String} {ts : List Target}
  {named : List (Target × String)}

/-- The targets `named` of the path, which was taken out of `s`, got their paths so far. -/
structure Dividing (s : PathState) (r : Renames) (p : HierPath) (named : List (Target × String))
    (s' : PathState) : Prop where
  sound : s'.Sound
  taken : ∀ n ∈ s.names.taken, n ∈ s'.names.taken
  first : ∀ e, named.head? = some e → e.2 = p.name
  fresh : (named.tail.map (·.2)).Nodup ∧ ∀ n ∈ named.tail.map (·.2), n ∈ s'.names.taken ∧ n ∉ s.names.taken
  paths : s'.circuit.paths = s.circuit.paths.filter (·.name != p.name) ++
    named.map fun e => p.retarget e.2 ⟨r.moduleName, e.1.sym⟩
  split : s'.split = s.split

/-- A path is taken out, before any target gets its own. -/
theorem Sound.dividing (h : s.Sound) (hp : p ∈ s.circuit.paths) {table : PathTable} {circuit : Circuit}
    {p' : HierPath} (he : s.table.erase s.circuit p.name = some (p', table, circuit)) :
    p' = p ∧ Dividing s r p [] { s with circuit, table } := by
  have hlookup : ∀ {n k}, n ∈ s.table.lookup k → n ≠ p.name → n ∈ table.lookup k :=
    fun hn hne => PathTable.mem_lookup_erase he hn hne
  obtain ⟨q, hq, heq⟩ := Option.map_eq_some_iff.1 he
  obtain rfl := congrArg (·.1) heq
  obtain rfl := congrArg (·.2.2) heq
  have hsub : List.Sublist (s.circuit.paths.filter (·.name != p.name)) s.circuit.paths := List.filter_sublist
  refine ⟨Option.some.inj (hq.symm.trans ((Circuit.path?_eq_some_iff h.nodup).2 ⟨hp, rfl⟩)),
    ⟨h.nodup.sublist (hsub.map _), fun q hq => h.taken q (hsub.subset hq), fun q hq seg hseg => ?_⟩,
    fun _ hn => hn, nofun, ⟨List.nodup_nil, nofun⟩, (List.append_nil _).symm, rfl⟩
  obtain ⟨hq', hne⟩ := List.mem_filter.1 hq
  exact hlookup (h.table q hq' seg hseg) (by simpa using hne)

/-- The name of the path to the next target: that of the path that is split for the first one, and a new one for all
others. -/
theorem Dividing.exists_name (h : s.Dividing r p named s') (hs : s.Sound) (hp : p ∈ s.circuit.paths) :
    ∃ name names, (if named.length = 0 then (p.name, s'.names) else s'.names.fresh p.name) = (name, names) ∧
      name ∉ s'.circuit.paths.map (·.name) ∧ (∀ n ∈ s'.names.taken, n ∈ names.taken) ∧ name ∈ names.taken ∧
      (named = [] → name = p.name) ∧ (named ≠ [] → name ∉ s'.names.taken) := by
  by_cases hnil : named = []
  · subst hnil
    refine ⟨_, _, if_pos rfl, ?_, fun _ hn => hn, h.taken _ (hs.taken p hp), fun _ => rfl, fun hne => absurd rfl hne⟩
    rw [h.paths, List.map_nil, List.append_nil]
    simp
  · have hfresh : (s'.names.fresh p.name).1 ∉ s'.names.taken := s'.names.fresh_not_mem p.name
    refine ⟨(s'.names.fresh p.name).1, (s'.names.fresh p.name).2, if_neg (by simpa using hnil), fun hmem => ?_,
      fun n hn => ?_, ?_, fun h => absurd h hnil, fun _ => hfresh⟩
    · obtain ⟨q, hq, hname⟩ := List.mem_map.1 hmem
      exact hfresh (hname ▸ h.sound.taken q hq)
    · rw [NamePool.taken_fresh]
      exact List.mem_cons_of_mem _ hn
    · rw [NamePool.taken_fresh]
      exact List.mem_cons_self

/-- The next target gets its path. -/
theorem Dividing.addTarget (h : s.Dividing r p named s') (hs : s.Sound) (hp : p ∈ s.circuit.paths) (t : Target) :
    Ends False (s'.addTarget r p (t, named.length)) fun s'' => ∃ name,
      s.Dividing r p (named ++ [(t, name)]) s'' := by
  obtain ⟨name, names, hname, hnot, htaken, hmem, hfirst, hfresh⟩ := h.exists_name hs hp
  unfold PathState.addTarget
  dsimp only
  rw [hname]
  dsimp only
  split
  next => exact .throw id
  next c' hc' =>
    have hpaths : c'.paths = s'.circuit.paths := Circuit.paths_redirectTarget? hc'
    have hput : c'.putPath (p.retarget name ⟨r.moduleName, t.sym⟩) =
        { c' with paths := s'.circuit.paths ++ [p.retarget name ⟨r.moduleName, t.sym⟩] } := by
      unfold Circuit.putPath
      rw [if_neg, hpaths]
      simpa [List.any_eq_true, HierPath.retarget, hpaths] using hnot
    refine .pure ⟨name, ?_⟩
    unfold PathTable.add
    rw [show (⟨name, p.segments.dropLast ++ [.inner ⟨r.moduleName, t.sym⟩]⟩ : HierPath) =
      p.retarget name ⟨r.moduleName, t.sym⟩ from rfl, hput]
    refine ⟨⟨?_, fun q hq => ?_, h.sound.table.note _⟩, fun n hn => htaken n (h.taken n hn), fun e he => ?_, ?_, ?_,
      h.split⟩
    · change ((s'.circuit.paths ++ [p.retarget name ⟨r.moduleName, t.sym⟩]).map (·.name)).Nodup
      rw [List.map_append]
      exact List.nodup_append'.2 ⟨h.sound.nodup, List.nodup_singleton _, List.disjoint_singleton.2 hnot⟩
    · rcases List.mem_append.1 hq with hq | hq
      · exact htaken _ (h.sound.taken q hq)
      · rw [List.mem_singleton.1 hq]
        exact hmem
    · cases named with
      | nil =>
        obtain rfl := Option.some.inj he
        exact hfirst rfl
      | cons e₀ rest => exact h.first e he
    · cases named with
      | nil => exact ⟨List.nodup_nil, fun n hn => absurd hn List.not_mem_nil⟩
      | cons e₀ rest =>
        have hnew := hfresh (List.cons_ne_nil _ _)
        obtain ⟨hnodup, hall⟩ := h.fresh
        rw [List.cons_append, List.tail_cons, List.map_append]
        refine ⟨List.nodup_append'.2 ⟨hnodup, List.nodup_singleton _, List.disjoint_singleton.2 fun hmem =>
          hnew (hall _ hmem).1⟩, fun n hn => ?_⟩
        rcases List.mem_append.1 hn with hn | hn
        · exact (hall n hn).imp_left (htaken n)
        · obtain rfl := List.mem_singleton.1 hn
          exact ⟨hmem, fun hold => hnew (h.taken _ hold)⟩
    · dsimp only
      rw [h.paths, List.map_append, List.append_assoc]
      rfl

/-- A path is split if it ends at the symbol, and stays as it is otherwise. -/
theorem Sound.splitPath_dividing (h : s.Sound) :
    Ends False (s.splitPath r sym ts name) fun s' =>
      (s' = s ∧ ∀ p ∈ s.circuit.paths, p.name = name → p.target? ≠ some ⟨r.moduleName, sym⟩) ∨
      ∃ p ∈ s.circuit.paths, p.name = name ∧ p.target? = some ⟨r.moduleName, sym⟩ ∧
        ∃ named s₁, named.map (·.1) = ts ∧ s.Dividing r p named s₁ ∧ s' = { s₁ with split := s₁.split + 1 } := by
  unfold PathState.splitPath
  split
  next hnone =>
    refine .pure (.inl ⟨rfl, fun p hp hname => ?_⟩)
    rw [(Circuit.path?_eq_some_iff h.nodup).2 ⟨hp, hname⟩] at hnone
    cases hnone
  next p hsome =>
    obtain ⟨hp, rfl⟩ := (Circuit.path?_eq_some_iff h.nodup).1 hsome
    split
    next hne =>
      refine .pure (.inl ⟨rfl, fun q hq hname => ?_⟩)
      obtain rfl := List.inj_on_of_nodup_map h.nodup hq hp hname
      exact hne
    next htarget =>
      rw [ne_eq, not_not] at htarget
      cases he : s.table.erase s.circuit p.name with
      | none =>
        have hcontra := Option.map_eq_none_iff.1 he
        rw [hsome] at hcontra
        cases hcontra
      | some e =>
        obtain ⟨p', table, circuit⟩ := e
        obtain ⟨rfl, hstart⟩ : p' = p ∧ s.Dividing r p [] { s with circuit, table } := h.dividing hp he
        dsimp only
        refine Ends.bind (P := fun s' => ∃ named, named.map (·.1) = ts ∧ s.Dividing r p' named s') ?_
          fun s' ⟨named, hnamed, hd⟩ => .pure (.inr ⟨p', hp, rfl, htarget, named, s', hnamed, hd, rfl⟩)
        -- `named` lists the targets so far, each at its own position
        refine (Ends.foldlM (fun done s' => ∃ named : List (Target × String),
          named.map (·.1) = done.map (·.1) ∧ s.Dividing r p' named s') ts.zipIdx ⟨[], rfl, hstart⟩ ?_).mono
          fun s' ⟨named, hn, hd⟩ => ⟨named, by rw [hn, List.zipIdx_map_fst], hd⟩
        rintro done ⟨t, j⟩ rest s' hl ⟨named, hnamed, hd⟩
        have hlen : named.length = done.length := by simpa using congrArg List.length hnamed
        obtain rfl : j = named.length := by
          have hget : ts.zipIdx[done.length]? = some (t, j) := by rw [hl]; simp
          rw [List.getElem?_zipIdx, Nat.zero_add] at hget
          obtain ⟨_, _, heq⟩ := Option.map_eq_some_iff.1 hget
          exact hlen ▸ (congrArg Prod.snd heq).symm
        exact (hd.addTarget h hp t).mono fun s'' ⟨n, hn⟩ => ⟨_, by simp [hnamed], hn⟩

end PathState

/-! ## All paths -/

namespace Renames

variable {renames : List Renames} {ref : InnerRef} {ts : List Target}

theorem mem_of_targets? (h : targets? renames ref = some ts) :
    ∃ r ∈ renames, r.moduleName = ref.moduleName ∧ (ref.sym, ts) ∈ r.targets := by
  obtain ⟨r, hr, hts⟩ := Option.bind_eq_some_iff.1 h
  exact ⟨r, List.mem_of_find?_eq_some hr, by simpa using List.find?_some hr, Assoc.mem_of_get? hts⟩

/-- What is recorded for a symbol is found again, there are targets, and these are not renamed themselves. -/
structure Settled (renames : List Renames) : Prop where
  unique : ∀ r ∈ renames, ∀ e ∈ r.targets, targets? renames ⟨r.moduleName, e.1⟩ = some e.2
  nonempty : ∀ {ref ts}, targets? renames ref = some ts → ts ≠ []
  final : ∀ {ref ts}, targets? renames ref = some ts → ∀ t ∈ ts, targets? renames ⟨ref.moduleName, t.sym⟩ = none

end Renames

namespace PathState

variable {c : Circuit} {renames : List Renames} {s s' s'' : PathState} {r : Renames} {p q : HierPath}
  {splits : List (HierPath × List (Target × String))}

/-- The paths `splits` of `c` were split so far. -/
structure Splitting (c : Circuit) (renames : List Renames) (splits : List (HierPath × List (Target × String)))
    (s : PathState) : Prop where
  sound : s.Sound
  taken : ∀ n ∈ c.names, n ∈ s.names.taken
  originals : (splits.map (·.1)).Nodup
  mem : ∀ e ∈ splits, e.1 ∈ c.paths
  targets : ∀ e ∈ splits, e.1.recorded? renames = some (e.2.map (·.1))
  first : ∀ e ∈ splits, e.2.head?.map (·.2) = some e.1.name
  fresh : (freshNames splits).Nodup ∧ ∀ n ∈ freshNames splits, n ∈ s.names.taken ∧ n ∉ c.names
  paths : s.circuit.paths = (c.paths.filter fun p => p ∉ splits.map (·.1)) ++ splits.flatMap fun e => e.1.parts e.2
  split : s.split = splits.length

/-- Paths that end at renamed symbols may have gone, but none came. -/
def Fewer (renames : List Renames) (s s' : PathState) : Prop :=
  ∀ q ∈ s'.circuit.paths, (q.recorded? renames).isSome → q ∈ s.circuit.paths

theorem Fewer.trans (h : Fewer renames s s') (h' : Fewer renames s' s'') : Fewer renames s s'' :=
  fun q hq hsome => h q (h' q hq hsome) hsome

/-- Paths to targets do not end at renamed symbols. -/
theorem recorded?_retarget (hr : Renames.Settled renames) {ref : InnerRef} {ts : List Target}
    (hts : Renames.targets? renames ref = some ts) {t : Target} (ht : t ∈ ts) (p : HierPath) (name : String) :
    (p.retarget name ⟨ref.moduleName, t.sym⟩).recorded? renames = none := by
  unfold HierPath.recorded?
  rw [HierPath.target?_retarget]
  exact hr.final hts t ht

namespace Splitting

/-- A path that ends at a renamed symbol is one of those at first, which was not split. -/
theorem mem_of_recorded? (h : Splitting c renames splits s) (hr : Renames.Settled renames)
    (hq : q ∈ s.circuit.paths) (hsome : (q.recorded? renames).isSome) :
    q ∈ c.paths.filter fun p => p ∉ splits.map (·.1) := by
  rw [h.paths] at hq
  rcases List.mem_append.1 hq with hq | hq
  · exact hq
  · obtain ⟨e, he, hqe⟩ := List.mem_flatMap.1 hq
    have hrec := h.targets e he
    unfold HierPath.recorded? at hrec
    obtain ⟨ref, href, hts⟩ := Option.bind_eq_some_iff.1 hrec
    unfold HierPath.parts at hqe
    rw [href] at hqe
    obtain ⟨t, ht, rfl⟩ := List.mem_map.1 hqe
    rw [recorded?_retarget hr hts (List.mem_map_of_mem ht)] at hsome
    cases hsome

/-- One path more is split. -/
theorem divided (h : Splitting c renames splits s) (hr : Renames.Settled renames) {ref : InnerRef}
    {named : List (Target × String)} (hp : p ∈ s.circuit.paths) (htarget : p.target? = some ref)
    (hrec : Renames.targets? renames ref = some (named.map (·.1))) (hname : r.moduleName = ref.moduleName)
    (hd : s.Dividing r p named s') :
    Splitting c renames (splits ++ [(p, named)]) { s' with split := s'.split + 1 } ∧
      Fewer renames s { s' with split := s'.split + 1 } := by
  have hprec : p.recorded? renames = some (named.map (·.1)) := by
    unfold HierPath.recorded?
    rw [htarget]
    exact hrec
  have hmem := h.mem_of_recorded? hr hp (by rw [hprec]; rfl)
  obtain ⟨hpc, hnot⟩ := List.mem_filter.1 hmem
  have hnot : p ∉ splits.map (·.1) := by simpa using hnot
  have hparts : p.parts named = named.map fun e => p.retarget e.2 ⟨r.moduleName, e.1.sym⟩ := by
    unfold HierPath.parts
    rw [htarget, hname]
    rfl
  have hfresh : freshNames (splits ++ [(p, named)]) = freshNames splits ++ named.tail.map (·.2) := by
    unfold freshNames
    rw [List.flatMap_append, List.flatMap_singleton]
  refine ⟨⟨⟨hd.sound.nodup, hd.sound.taken, hd.sound.table⟩, fun n hn => hd.taken n (h.taken n hn), ?_, fun e he => ?_,
    fun e he => ?_, fun e he => ?_, ?_, ?_, ?_⟩, fun q hq hsome => ?_⟩
  · rw [List.map_append]
    exact List.nodup_append'.2 ⟨h.originals, List.nodup_singleton _, List.disjoint_singleton.2 hnot⟩
  · rcases List.mem_append.1 he with he | he
    · exact h.mem e he
    · rw [List.mem_singleton.1 he]
      exact hpc
  · rcases List.mem_append.1 he with he | he
    · exact h.targets e he
    · rw [List.mem_singleton.1 he]
      exact hprec
  · rcases List.mem_append.1 he with he | he
    · exact h.first e he
    · rw [List.mem_singleton.1 he]
      cases hn : named with
      | nil => exact absurd (by rw [hn]; rfl) (hr.nonempty hrec)
      | cons e₀ rest =>
        rw [hn] at hd
        exact congrArg some (hd.first e₀ rfl)
  · rw [hfresh]
    obtain ⟨hnodup, hall⟩ := h.fresh
    obtain ⟨hnodup', hall'⟩ := hd.fresh
    refine ⟨List.nodup_append'.2 ⟨hnodup, hnodup', fun n hn hn' => (hall' n hn').2 (hall n hn).1⟩, fun n hn => ?_⟩
    rcases List.mem_append.1 hn with hn | hn
    · exact (hall n hn).imp_left (hd.taken n)
    · exact ⟨(hall' n hn).1, fun hold => (hall' n hn).2 (h.taken n hold)⟩
  · -- no path has the name of another
    have hnodup := h.sound.nodup
    rw [h.paths, List.map_append, List.nodup_append'] at hnodup
    obtain ⟨hnd, -, hdisj⟩ := hnodup
    have hrest : (splits.flatMap fun e => e.1.parts e.2).filter (·.name != p.name) =
        splits.flatMap fun e => e.1.parts e.2 := List.filter_eq_self.2 fun q hq => bne_iff_ne.2 fun heq =>
      hdisj (List.mem_map_of_mem hmem) (heq ▸ List.mem_map_of_mem (f := (·.name)) hq)
    have hkeep : (c.paths.filter fun q => q ∉ splits.map (·.1)).filter (·.name != p.name) =
        c.paths.filter fun q => q ∉ (splits ++ [(p, named)]).map (·.1) := by
      rw [List.filter_filter]
      refine List.filter_congr fun q hq => ?_
      by_cases hqs : q ∈ splits.map (·.1)
      · simp [hqs]
      · have hiff : q.name = p.name ↔ q = p :=
          ⟨fun heq => List.inj_on_of_nodup_map hnd (List.mem_filter.2 ⟨hq, by simpa using hqs⟩) hmem heq,
            fun heq => heq ▸ rfl⟩
        rw [Bool.eq_iff_iff]
        simp only [List.map_append, List.mem_append, hqs, List.map_cons, List.map_nil, List.mem_singleton, false_or,
          Bool.and_eq_true, bne_iff_ne, ne_eq, hiff, decide_eq_true_eq, not_false_eq_true, and_true]
    dsimp only
    rw [hd.paths, h.paths, List.filter_append, hrest, hkeep, List.append_assoc, List.flatMap_append,
      List.flatMap_singleton, hparts]
  · dsimp only
    rw [hd.split, h.split, List.length_append]
    rfl
  · have hq : q ∈ s'.circuit.paths := hq
    rw [hd.paths] at hq
    rcases List.mem_append.1 hq with hq | hq
    · exact (List.mem_filter.1 hq).1
    · obtain ⟨e, he, rfl⟩ := List.mem_map.1 hq
      rw [hname, recorded?_retarget hr hrec (List.mem_map_of_mem he)] at hsome
      cases hsome

/-- All paths are split that end at one symbol, and none is left then. -/
theorem followSymbol_ends (h : ∃ splits, Splitting c renames splits s) (hr : Renames.Settled renames)
    (hmem : r ∈ renames) {e : String × List Target} (he : e ∈ r.targets) :
    Ends False (s.followSymbol r e) fun s' => (∃ splits, Splitting c renames splits s') ∧ Fewer renames s s' ∧
      ∀ q ∈ s'.circuit.paths, q.target? ≠ some ⟨r.moduleName, e.1⟩ := by
  have hrec := hr.unique r hmem e he
  have hsome : ∀ {q : HierPath}, q.target? = some ⟨r.moduleName, e.1⟩ → (q.recorded? renames).isSome := fun hq => by
    unfold HierPath.recorded?
    rw [hq, Option.bind_some, hrec]
    rfl
  unfold followSymbol
  refine (Ends.foldlM (fun done s' => (∃ splits, Splitting c renames splits s') ∧ Fewer renames s s' ∧
    ∀ q ∈ s'.circuit.paths, q.target? = some ⟨r.moduleName, e.1⟩ → q.name ∉ done) _
    ⟨h, fun q hq _ => hq, fun _ _ _ => List.not_mem_nil⟩ ?_).mono ?_
  · rintro done name rest s₁ - ⟨⟨splits, hs⟩, hfewer, hleft⟩
    refine hs.sound.splitPath_dividing.mono fun s₂ hs₂ => ?_
    rcases hs₂ with ⟨rfl, hnot⟩ | ⟨p, hp, rfl, htarget, named, s₃, hnamed, hd, rfl⟩
    · refine ⟨⟨splits, hs⟩, hfewer, fun q hq hqt => ?_⟩
      rw [List.mem_append, List.mem_singleton, not_or]
      exact ⟨hleft q hq hqt, fun hname => hnot q hq hname hqt⟩
    · obtain ⟨hs', hfewer'⟩ := hs.divided hr hp htarget (hnamed ▸ hrec) rfl hd
      refine ⟨⟨_, hs'⟩, hfewer.trans hfewer', fun q hq hqt => ?_⟩
      have hqs := hfewer' q hq (hsome hqt)
      rw [List.mem_append, List.mem_singleton, not_or]
      refine ⟨hleft q hqs hqt, fun hname => ?_⟩
      -- the path was taken out
      obtain rfl := List.inj_on_of_nodup_map hs.sound.nodup hqs hp hname
      have hgone := (List.mem_filter.1 (hs'.mem_of_recorded? hr hq (hsome hqt))).2
      simp at hgone
  · rintro s' ⟨hs, hfewer, hleft⟩
    refine ⟨hs, hfewer, fun q hq hqt => hleft q hq hqt ?_⟩
    -- the table knew the path
    obtain ⟨splits, h⟩ := h
    exact h.sound.table q (hfewer q hq (hsome hqt)) _ (HierPath.mem_segments_of_target? hqt)

end Splitting

end PathState

namespace PathState

variable {c : Circuit} {renames : List Renames} {s : PathState}

/-- Before any path is split. -/
theorem Splitting.start (hnd : (c.paths.map (·.name)).Nodup) :
    Splitting c renames [] { circuit := c, table := .ofCircuit c, names := c.namePool } := by
  have htaken : ∀ n ∈ c.names, n ∈ c.namePool.taken := fun n hn => NamePool.mem_foldl_reserve.2 (.inl hn)
  refine ⟨⟨hnd, fun p hp => htaken _ ?_, PathTable.complete_ofCircuit c⟩, htaken, List.nodup_nil, nofun, nofun, nofun,
    ⟨List.nodup_nil, nofun⟩, ?_, rfl⟩
  · exact List.mem_append_right _ (List.mem_map_of_mem hp)
  · simp

/-- Once no path ends at a renamed symbol, exactly those were split that did. -/
theorem Splitting.done {splits : List (HierPath × List (Target × String))} (h : Splitting c renames splits s)
    (hnd : (c.paths.map (·.name)).Nodup) (hdone : ∀ q ∈ s.circuit.paths, q.recorded? renames = none) :
    c.Splitting renames splits s.circuit := by
  have hiff : ∀ p ∈ c.paths, p ∈ splits.map (·.1) ↔ (p.recorded? renames).isSome := fun p hp => by
    constructor
    · intro hmem
      obtain ⟨e, he, rfl⟩ := List.mem_map.1 hmem
      rw [h.targets e he]
      rfl
    · intro hsome
      by_contra hnot
      have hq : p ∈ s.circuit.paths := by
        rw [h.paths]
        exact List.mem_append_left _ (List.mem_filter.2 ⟨hp, by simpa using hnot⟩)
      rw [hdone p hq] at hsome
      cases hsome
  refine ⟨?_, h.targets, h.first, ⟨h.fresh.1, fun n hn => (h.fresh.2 n hn).2⟩, ?_, h.sound.nodup⟩
  · refine (List.perm_ext_iff_of_nodup h.originals ((List.Nodup.of_map _ hnd).filter _)).2 fun p => ?_
    rw [List.mem_filter]
    constructor
    · intro hmem
      obtain ⟨e, he, rfl⟩ := List.mem_map.1 hmem
      exact ⟨h.mem e he, (hiff _ (h.mem e he)).1 hmem⟩
    · exact fun ⟨hp, hsome⟩ => (hiff p hp).2 hsome
  · rw [h.paths]
    congr 1
    refine List.filter_congr fun p hp => ?_
    rw [Bool.eq_iff_iff, decide_eq_true_iff, hiff p hp, Bool.not_eq_true, Option.isNone_iff_eq_none,
      Option.isSome_eq_false_iff, Option.isNone_iff_eq_none]

end PathState

namespace Circuit

variable {c c' : Circuit} {renames : List Renames} {n : Nat}

open PathState in
/-- Following the renames splits the paths that end at renamed symbols, and counts them. -/
theorem followRenames_splitting (hr : Renames.Settled renames) (hnd : (c.paths.map (·.name)).Nodup)
    (h : c.followRenames renames = .ok (c', n)) : ∃ splits, c.Splitting renames splits c' ∧ n = splits.length := by
  suffices Ends False (renames.foldlM (fun s r => r.targets.foldlM (followSymbol r) s)
      { circuit := c, table := .ofCircuit c, names := c.namePool }) fun s =>
        (∃ splits, PathState.Splitting c renames splits s) ∧ ∀ q ∈ s.circuit.paths, q.recorded? renames = none by
    have hends : Ends False (c.followRenames renames) fun e =>
        ∃ splits, c.Splitting renames splits e.1 ∧ e.2 = splits.length :=
      this.bind fun s ⟨⟨splits, hs⟩, hdone⟩ => .pure ⟨splits, hs.done hnd hdone, hs.split⟩
    exact hends.of_ok h
  -- symbols that were followed stay without paths
  refine (Ends.foldlM (fun done s => (∃ splits, PathState.Splitting c renames splits s) ∧
    ∀ r ∈ done, ∀ e ∈ r.targets, ∀ q ∈ s.circuit.paths, q.target? ≠ some ⟨r.moduleName, e.1⟩) renames
    ⟨⟨[], .start hnd⟩, nofun⟩ ?_).mono ?_
  · rintro done r rest s hl ⟨hs, hdone⟩
    have hmem : r ∈ renames := hl ▸ List.mem_append_right _ List.mem_cons_self
    have hsome : ∀ {r' : Renames} {e : String × List Target} {q : HierPath}, r' ∈ renames → e ∈ r'.targets →
        q.target? = some ⟨r'.moduleName, e.1⟩ → (q.recorded? renames).isSome := fun hr' he hq => by
      unfold HierPath.recorded?
      rw [hq, Option.bind_some, hr.unique _ hr' _ he]
      rfl
    refine (Ends.foldlM (fun done' s' => (∃ splits, PathState.Splitting c renames splits s') ∧ Fewer renames s s' ∧
      ∀ e ∈ done', ∀ q ∈ s'.circuit.paths, q.target? ≠ some ⟨r.moduleName, e.1⟩) r.targets
      ⟨hs, fun _ hq _ => hq, nofun⟩ ?_).mono ?_
    · rintro done' e rest' s₁ hl' ⟨hs₁, hfewer, hdone'⟩
      have hsub : ∀ e' ∈ done' ++ [e], e' ∈ r.targets := fun e' he' => by
        rw [hl', List.append_cons]
        exact List.mem_append_left _ he'
      refine (PathState.Splitting.followSymbol_ends hs₁ hr hmem (hsub e (by simp))).mono
        fun s₂ ⟨hs₂, hfewer', hlast⟩ => ⟨hs₂, hfewer.trans hfewer', fun e' he' q hq hqt => ?_⟩
      rcases List.mem_append.1 he' with he | he
      · exact hdone' e' he q (hfewer' q hq (hsome hmem (hsub e' he') hqt)) hqt
      · rw [List.mem_singleton.1 he] at hqt
        exact hlast q hq hqt
    · rintro s' ⟨hs', hfewer, hdone'⟩
      refine ⟨hs', fun r' hr' e he q hq hqt => ?_⟩
      rcases List.mem_append.1 hr' with hr' | hr'
      · have hmem' : r' ∈ renames := hl ▸ List.mem_append_left _ hr'
        exact hdone r' hr' e he q (hfewer q hq (hsome hmem' he hqt)) hqt
      · rw [List.mem_singleton.1 hr'] at he hqt
        exact hdone' e he q hq hqt
  · rintro s ⟨hs, hdone⟩
    refine ⟨hs, fun q hq => ?_⟩
    cases hrec : q.recorded? renames with
    | none => rfl
    | some ts =>
      obtain ⟨ref, href, hts⟩ := Option.bind_eq_some_iff.1 hrec
      obtain ⟨r, hrm, hname, he⟩ := Renames.mem_of_targets? hts
      exact absurd (href.trans (by rw [hname])) (hdone r hrm _ he q hq)

end Circuit

/-! ## What lowering the modules records -/

namespace Progress

variable {cx : Context} {c : Circuit} {done : List Module} {p : Progress} {m : Module} {r : Renames}

/-- The record `r` of the module `m`, which became `m'`: its symbols at the end recorded it. -/
def RecordOf (r : Renames) (m m' : Module) : Prop :=
  ∃ y : Symbols, y.Recorded m (Target.Found m'.body m'.ports) ∧ r = y.renames r.index

/-- The modules `done` are lowered, and each record is one of them. -/
structure RecordsEach (done : List Module) (p : Progress) : Prop where
  names : p.modules.map (·.name) = done.map (·.name)
  records : ∀ r ∈ p.renames, ∃ m m', done[r.index]? = some m ∧ p.modules[r.index]? = some m' ∧ RecordOf r m m'
  indices : (p.renames.map (·.index)).Nodup

theorem RecordsEach.lowerModule_ends (h : p.RecordsEach done) (hm : m.Reachable) :
    Ends False (p.lowerModule cx m) (RecordsEach (done ++ [m])) := by
  have hlen : p.modules.length = done.length := by simpa using congrArg List.length h.names
  unfold lowerModule
  refine (Module.recorded_lower hm).bind ?_
  rintro ⟨m', y⟩ ⟨hname, hrec⟩
  have hold : ∀ r ∈ p.renames, r.index < done.length ∧ ∃ m₁ m₁', (done ++ [m])[r.index]? = some m₁ ∧
      (p.modules ++ [m'])[r.index]? = some m₁' ∧ RecordOf r m₁ m₁' := fun r hr => by
    obtain ⟨m₁, m₁', h₁, h₁', hof⟩ := h.records r hr
    have hlt := (List.getElem?_eq_some_iff.1 h₁).1
    exact ⟨hlt, m₁, m₁', by rw [List.getElem?_append_left hlt, h₁],
      by rw [List.getElem?_append_left (hlen ▸ hlt), h₁'], hof⟩
  refine .pure ⟨?_, fun r hr => ?_, ?_⟩
  · change (p.modules ++ [m']).map (·.name) = _
    rw [List.map_append, List.map_append, h.names, List.map_singleton, List.map_singleton, hname]
  · dsimp only at hr
    split at hr
    · exact (hold r hr).2
    · rcases List.mem_append.1 hr with hr | hr
      · exact (hold r hr).2
      · obtain rfl := List.mem_singleton.1 hr
        exact ⟨m, m', by simp [Symbols.renames, hlen], by simp [Symbols.renames], y, hrec, rfl⟩
  · dsimp only
    split
    · exact h.indices
    · rw [List.map_append]
      refine List.nodup_append'.2 ⟨h.indices, List.nodup_singleton _, List.disjoint_singleton.2 fun hmem => ?_⟩
      obtain ⟨r, hr, hindex⟩ := List.mem_map.1 hmem
      have hlt := (hold r hr).1
      rw [hindex] at hlt
      exact absurd hlt (by simp [Symbols.renames, hlen])

/-- Every module of a circuit is lowered. -/
theorem recordsEach_foldlM (hc : c.Reachable) {generated : Nat}
    (h : c.modules.foldlM (Progress.lowerModule cx) { generated } = .ok p) : p.RecordsEach c.modules := by
  have hends : Ends False (c.modules.foldlM (Progress.lowerModule cx) { generated }) (RecordsEach c.modules) :=
    Ends.foldlM (fun done (p : Progress) => p.RecordsEach done) c.modules ⟨rfl, nofun, List.nodup_nil⟩ fun done m rest p hl hp =>
      hp.lowerModule_ends (hc m (hl ▸ List.mem_append_right _ List.mem_cons_self))
  exact hends.of_ok h

namespace RecordsEach

variable {ref : InnerRef} {ts : List Target}

/-- A record is found again by the name of its module. -/
theorem find?_eq (h : p.RecordsEach c.modules) (hc : c.Distinct) (hr : r ∈ p.renames) {moduleName : String}
    (hname : r.moduleName = moduleName) : p.renames.find? (·.moduleName == moduleName) = some r := by
  cases hfind : p.renames.find? (·.moduleName == moduleName) with
  | none => exact absurd (List.find?_eq_none.1 hfind r hr) (by simpa using hname)
  | some r' =>
    have hr' := List.mem_of_find?_eq_some hfind
    have hname' : r'.moduleName = moduleName := by simpa using List.find?_some hfind
    obtain ⟨m, _, hm, -, y, hrec, hry⟩ := h.records r hr
    obtain ⟨m', _, hm', -, y', hrec', hry'⟩ := h.records r' hr'
    have hnames : m.name = m'.name := calc
      m.name = r.moduleName := hrec.moduleName.symm.trans (congrArg Renames.moduleName hry).symm
      _ = r'.moduleName := hname.trans hname'.symm
      _ = m'.name := (congrArg Renames.moduleName hry').trans hrec'.moduleName
    exact congrArg some (List.inj_on_of_nodup_map h.indices hr' hr (hc.index_eq hm' hm hnames.symm))

/-- What is recorded for a symbol belongs to the module, which carried the symbol and none of the targets. -/
theorem of_targets? (h : p.RecordsEach c.modules) (hts : Renames.targets? p.renames ref = some ts) :
    ∃ m ∈ c.modules, ∃ r ∈ p.renames, r.moduleName = ref.moduleName ∧ r.targets.get? ref.sym = some ts ∧
      ts ≠ [] ∧ ∀ t ∈ ts, t.sym ∉ m.syms ∧ ∀ s ts', r.targets.get? s = some ts' → s ∈ m.syms := by
  obtain ⟨r, hr, hget⟩ := Option.bind_eq_some_iff.1 hts
  have hmem := List.mem_of_find?_eq_some hr
  obtain ⟨m, m', hm, -, y, hrec, hry⟩ := h.records r hmem
  have htargets : r.targets = y.targets := congrArg Renames.targets hry
  rw [htargets] at hget
  obtain ⟨-, hne, -, hall⟩ := hrec.targets hget
  refine ⟨m, List.mem_of_getElem? hm, r, hmem, by simpa using List.find?_some hr, htargets ▸ hget, hne,
    fun t ht => ⟨(hall t ht).2.2, fun s ts' hs => ?_⟩⟩
  exact (hrec.targets (htargets ▸ hs)).1

theorem settled (h : p.RecordsEach c.modules) (hc : c.Distinct) : Renames.Settled p.renames where
  unique r hr e he := by
    obtain ⟨m, m', -, -, y, hrec, hry⟩ := h.records r hr
    have htargets : r.targets = y.targets := congrArg Renames.targets hry
    unfold Renames.targets?
    rw [h.find?_eq hc hr rfl, Option.bind_some, htargets]
    exact (Assoc.get?_eq_some_iff hrec.keys).2 (htargets ▸ he)
  nonempty hts := by
    obtain ⟨-, -, -, -, -, -, hne, -⟩ := h.of_targets? hts
    exact hne
  final {ref ts} hts t ht := by
    obtain ⟨m, -, r, hr, hname, -, -, hall⟩ := h.of_targets? hts
    cases hget : Renames.targets? p.renames ⟨ref.moduleName, t.sym⟩ with
    | none => rfl
    | some ts' =>
      obtain ⟨r', hr', hts'⟩ := Option.bind_eq_some_iff.1 hget
      rw [h.find?_eq hc hr hname] at hr'
      obtain rfl := Option.some.inj hr'
      exact absurd ((hall t ht).2 _ _ hts') (hall t ht).1

/-- Every target is found in its module. -/
theorem hasTarget (h : p.RecordsEach c.modules) (hr : r ∈ p.renames) {e : String × List Target} (he : e ∈ r.targets)
    {t : Target} (ht : t ∈ e.2) : Circuit.HasTarget { c with modules := p.modules } r.index t := by
  obtain ⟨m, m', -, hm', y, hrec, hry⟩ := h.records r hr
  have htargets : r.targets = y.targets := congrArg Renames.targets hry
  obtain ⟨-, -, -, hall⟩ := hrec.targets ((Assoc.get?_eq_some_iff hrec.keys).2 (htargets ▸ he))
  exact ⟨m', hm', (hall t ht).1⟩

end RecordsEach

end Progress

namespace Circuit

variable {options : Options} {c : Circuit} {p : Progress} {generated : Nat}

/-- Once the modules of a circuit are lowered, its paths follow the renames without failure: exactly the paths that end
at renamed symbols are split, each among the targets that are recorded for its symbol, and they are counted. -/
theorem splitting_of_lowerModules (hr : c.Reachable) (hc : c.Distinct)
    (h : c.modules.foldlM (Progress.lowerModule ⟨options, c.moduleTable⟩) { generated } = .ok p) :
    ∃ c' splits, { c with modules := p.modules }.followRenames p.renames = .ok (c', splits.length) ∧
      c.Splitting p.renames splits c' := by
  have hp : p.RecordsEach c.modules := Progress.recordsEach_foldlM hr h
  have hends : Ends True (followRenames { c with modules := p.modules } p.renames) _ :=
    followRenames_ends fun _ r hmem e he t ht => hp.hasTarget hmem he ht
  obtain ⟨⟨c', n⟩, hok, -⟩ := hends.exists_ok trivial
  obtain ⟨splits, hs, hn⟩ := followRenames_splitting (c := { c with modules := p.modules }) (hp.settled hc) hc.paths hok
  subst hn
  have hnames : Circuit.names { c with modules := p.modules } = c.names := by
    unfold names
    dsimp only
    rw [hp.names]
  exact ⟨c', splits, hok, hs.originals, hs.targets, hs.first, hnames ▸ hs.fresh, hs.paths, hs.nodup⟩

/-- A port of two fields with a symbol at which two paths end; a third path has the name that the part of the first
would get. -/
def sharedCircuit : Circuit where
  name := "M"
  modules := [⟨"M", true, [⟨"a", .bundle [⟨"x", false, .uint 1⟩, ⟨"y", true, .uint 2⟩], .input, some "s", []⟩], [],
    none⟩]
  paths := [⟨"p", [.inner ⟨"M", "s"⟩]⟩, ⟨"p_0", [.whole "M"]⟩, ⟨"q", [.inner ⟨"M", "s"⟩, .inner ⟨"M", "s"⟩]⟩]

theorem splitting_of_lowerModules_shared : ∃ p,
    sharedCircuit.modules.foldlM (Progress.lowerModule ⟨{}, sharedCircuit.moduleTable⟩) ⟨[], [], 0⟩ = .ok p ∧
      ∃ c' splits, { sharedCircuit with modules := p.modules }.followRenames p.renames = .ok (c', splits.length) ∧
        sharedCircuit.Splitting p.renames splits c' := by
  have hok : (sharedCircuit.modules.foldlM (Progress.lowerModule ⟨{}, sharedCircuit.moduleTable⟩)
    ⟨[], [], 0⟩).isOk := by decide +kernel
  have hreach : sharedCircuit.Reachable := fun m hm b hb => by
    obtain rfl := List.mem_singleton.1 hm
    cases hb
  cases hp : sharedCircuit.modules.foldlM (Progress.lowerModule ⟨{}, sharedCircuit.moduleTable⟩) ⟨[], [], 0⟩ with
  | error => rw [hp] at hok; cases hok
  | ok p => exact ⟨p, rfl, splitting_of_lowerModules hreach ⟨by decide, by decide, by decide⟩ hp⟩

/-- The part of the path `p` that ends at the second field is called `p_1`, for `p_0` was taken. -/
example : (sharedCircuit.lower {} 0).toOption.map (fun r => (r.1.paths.map (·.name), r.2.1.pathsSplit)) =
    some (["p_0", "p", "p_1", "q", "q_2"], 2) := by decide +kernel

end Circuit

end Scalarize
