import Scalarize.Proofs.Following

/-!
# Tables that mirror a circuit

* `HierPath.passes`, `Circuit.pathsThrough` : the paths that pass through a module, in order;
* `PathTable.Mirrors` : the table lists exactly these;
* `PathTable.Call`, `PathTable.Fits` : calls that change table and circuit, and those that keep them in agreement;
* `PathTable.mirrors_foldl` : any number of fitting calls; `PathTable.not_mirrors_stalePath` : one that does not fit.
-/

namespace Scalarize

/-- The path has a step in the module. -/
def HierPath.passes (p : HierPath) (k : String) : Bool := p.segments.any (·.moduleName == k)

/-- Names of the paths that pass through a module, in the order of the circuit. -/
def Circuit.pathsThrough (c : Circuit) (k : String) : List String :=
  (c.paths.filter (·.passes k)).map (·.name)

namespace PathTable

variable {t : PathTable} {c : Circuit} {p q : HierPath} {k n : String}

/-- The table lists for every module the names of the paths that pass through it, in the order of the circuit. -/
def Mirrors (t : PathTable) (c : Circuit) : Prop := ∀ k, t.lookup k = c.pathsThrough k

/-- Noting a path adds its name once at each module that it passes through. -/
theorem lookup_note (t : PathTable) (p : HierPath) (k : String) : (t.note p).lookup k =
    if p.passes k ∧ p.name ∉ t.lookup k then t.lookup k ++ [p.name] else t.lookup k := by
  unfold note HierPath.passes
  generalize p.segments = ss
  induction ss generalizing t with
  | nil => simp
  | cons s ss ih =>
    rw [List.foldl_cons, ih, lookup_adjust]
    by_cases hk : s.moduleName = k
    · subst hk
      by_cases hn : p.name ∈ t.lookup s.moduleName <;> simp [hn]
    · simp [hk]

/-- Taking a path out takes its name out at each module that it passes through. -/
theorem lookup_erase {t' : PathTable} {c' : Circuit} (h : t.erase c n = some (p, t', c')) (k : String) :
    t'.lookup k = if p.passes k then (t.lookup k).filter (· != n) else t.lookup k := by
  obtain ⟨q, -, heq⟩ := Option.map_eq_some_iff.1 h
  obtain rfl := congrArg (·.1) heq
  obtain rfl := congrArg (·.2.1) heq
  unfold HierPath.passes
  dsimp only
  generalize q.segments = ss
  clear heq h
  induction ss generalizing t with
  | nil => simp
  | cons s ss ih =>
    rw [List.foldl_cons, ih, lookup_adjust]
    by_cases hk : s.moduleName = k
    · subst hk
      by_cases hss : ss.any (·.moduleName == s.moduleName) <;>
        simp only [if_true, List.any_cons, hss, beq_self_eq_true, Bool.or_true, Bool.true_or, List.filter_filter,
          Bool.and_self, if_neg, Bool.false_eq_true, not_false_eq_true]
    · simp [hk]

/-! ## The circuit -/

theorem mem_pathsThrough : n ∈ c.pathsThrough k ↔ ∃ p ∈ c.paths, p.passes k ∧ p.name = n := by
  simp [Circuit.pathsThrough, and_assoc]

/-- No name is listed twice. -/
theorem nodup_pathsThrough (h : (c.paths.map (·.name)).Nodup) (k : String) : (c.pathsThrough k).Nodup :=
  h.sublist (List.filter_sublist.map _)

/-- A path with a new name comes last at the modules that it passes through. -/
theorem pathsThrough_putPath_new (h : ∀ q ∈ c.paths, q.name ≠ p.name) (k : String) :
    (c.putPath p).pathsThrough k = c.pathsThrough k ++ if p.passes k then [p.name] else [] := by
  have hput : c.putPath p = { c with paths := c.paths ++ [p] } := by
    unfold Circuit.putPath
    rw [if_neg (by simpa [List.any_eq_true] using h)]
  rw [hput]
  unfold Circuit.pathsThrough
  rw [List.filter_append, List.map_append, List.filter_singleton]
  by_cases hk : p.passes k <;> simp [hk]

/-- A path that passes through the same modules as the one with its name takes its place everywhere. -/
theorem pathsThrough_putPath_same (hn : p.name ∈ c.paths.map (·.name))
    (h : ∀ q ∈ c.paths, q.name = p.name → q.passes = p.passes) (k : String) :
    (c.putPath p).pathsThrough k = c.pathsThrough k := by
  have hput : c.putPath p = { c with paths := c.paths.map fun q => if q.name = p.name then p else q } := by
    unfold Circuit.putPath
    rw [if_pos (by simpa [List.any_eq_true] using hn)]
  rw [hput]
  unfold Circuit.pathsThrough
  dsimp only
  rw [List.filter_map, List.map_map]
  have hfilter : c.paths.filter ((·.passes k) ∘ fun q => if q.name = p.name then p else q) =
      c.paths.filter (·.passes k) := List.filter_congr fun q hq => by
    by_cases hname : q.name = p.name
    · simp [hname, h q hq hname]
    · simp [hname]
  rw [hfilter]
  refine List.map_congr_left fun q _ => ?_
  by_cases hname : q.name = p.name <;> simp [hname]

theorem names_putPath (c : Circuit) (p : HierPath) : (c.putPath p).paths.map (·.name) =
    if p.name ∈ c.paths.map (·.name) then c.paths.map (·.name) else c.paths.map (·.name) ++ [p.name] := by
  unfold Circuit.putPath
  by_cases hn : p.name ∈ c.paths.map (·.name)
  · rw [if_pos hn, if_pos (by simpa [List.any_eq_true] using hn)]
    dsimp only
    rw [List.map_map]
    refine List.map_congr_left fun q _ => ?_
    by_cases hname : q.name = p.name <;> simp [hname]
  · rw [if_neg hn, if_neg (by simpa [List.any_eq_true] using hn), List.map_append]
    rfl

/-! ## Calls -/

/-- A call that changes table and circuit. -/
inductive Call where
  | add (p : HierPath)
  | erase (name : String)

/-- Table and circuit after a call; a path that is not there cannot be erased. -/
def call (s : PathTable × Circuit) : Call → PathTable × Circuit
  | .add p => s.1.add s.2 p
  | .erase name => ((s.1.erase s.2 name).map (·.2)).getD s

/-- The call puts no path in the place of one that passes through other modules. -/
def Fits (c : Circuit) : Call → Prop
  | .add p => ∀ q ∈ c.paths, q.name = p.name → q.passes = p.passes
  | .erase _ => True

/-- Each call fits the circuit that the calls before it lead to. -/
def AllFit (s : PathTable × Circuit) (calls : List Call) : Prop :=
  ∀ done d rest, calls = done ++ d :: rest → Fits (done.foldl call s).2 d

theorem Mirrors.add (h : t.Mirrors c) (hp : Fits c (.add p)) : (t.note p).Mirrors (c.putPath p) := by
  intro k
  rw [lookup_note, h k]
  by_cases hn : p.name ∈ c.paths.map (·.name)
  · rw [pathsThrough_putPath_same hn hp, if_neg]
    rintro ⟨hk, hnot⟩
    obtain ⟨q, hq, hname⟩ := List.mem_map.1 hn
    exact hnot (mem_pathsThrough.2 ⟨q, hq, by rwa [hp q hq hname], hname⟩)
  · have hnew : ∀ q ∈ c.paths, q.name ≠ p.name := fun q hq hname => hn (List.mem_map.2 ⟨q, hq, hname⟩)
    have hnot : p.name ∉ c.pathsThrough k := fun hmem => by
      obtain ⟨q, hq, -, hname⟩ := mem_pathsThrough.1 hmem
      exact hnew q hq hname
    rw [pathsThrough_putPath_new hnew]
    by_cases hk : p.passes k <;> simp [hk, hnot]

theorem Mirrors.erase (h : t.Mirrors c) (hnd : (c.paths.map (·.name)).Nodup) {t' : PathTable} {c' : Circuit}
    (he : t.erase c n = some (p, t', c')) : t'.Mirrors c' := by
  intro k
  rw [lookup_erase he, h k]
  obtain ⟨q, hq, heq⟩ := Option.map_eq_some_iff.1 he
  obtain rfl := congrArg (·.1) heq
  obtain rfl := congrArg (·.2.2) heq
  obtain ⟨hmem, hname⟩ := (Circuit.path?_eq_some_iff hnd).1 hq
  have hrest : (c.removePath n).pathsThrough k = (c.pathsThrough k).filter (· != n) := by
    unfold Circuit.pathsThrough Circuit.removePath
    rw [List.filter_map, List.filter_filter, List.filter_filter]
    simp only [Function.comp_def, Bool.and_comm]
  rw [hrest]
  split
  next => rfl
  next hk =>
    -- the erased path is the only one with its name, and it is not listed here
    refine (List.filter_eq_self.2 fun name hlist => ?_).symm
    obtain ⟨r, hr, hpass, rfl⟩ := mem_pathsThrough.1 hlist
    refine bne_iff_ne.2 fun hname' => hk ?_
    rwa [← List.inj_on_of_nodup_map hnd hr hmem (hname'.trans hname.symm)]

/-! ## Runs -/

theorem mirrors_ofCircuit (h : (c.paths.map (·.name)).Nodup) : (ofCircuit c).Mirrors c := by
  unfold ofCircuit
  suffices ∀ (ps done : List HierPath) (t : PathTable), ((done ++ ps).map (·.name)).Nodup →
      t.Mirrors { c with paths := done } → (ps.foldl note t).Mirrors { c with paths := done ++ ps } from
    this c.paths [] {} (by simpa using h) fun _ => rfl
  intro ps
  induction ps with
  | nil =>
    intro done t _ ht
    rwa [List.append_nil]
  | cons p ps ih =>
    intro done t hnd ht
    rw [List.append_cons] at hnd ⊢
    refine ih (done ++ [p]) (t.note p) hnd ?_
    have hnew : ∀ q ∈ done, q.name ≠ p.name := fun q hq hname => by
      rw [List.map_append, List.map_append] at hnd
      exact (List.nodup_append'.1 (List.nodup_append'.1 hnd).1).2.2 (List.mem_map_of_mem hq)
        (by simp [hname])
    have hput : Circuit.putPath { c with paths := done } p = { c with paths := done ++ [p] } := by
      unfold Circuit.putPath
      rw [if_neg (by simpa [List.any_eq_true] using hnew)]
    exact hput ▸ ht.add fun q hq hname => absurd hname (hnew q hq)

/-- One fitting call keeps table and circuit in agreement, and the names of the paths apart. -/
theorem Mirrors.call {s : PathTable × Circuit} (h : s.1.Mirrors s.2) (hnd : (s.2.paths.map (·.name)).Nodup)
    {d : Call} (hd : Fits s.2 d) : (call s d).1.Mirrors (call s d).2 ∧ ((call s d).2.paths.map (·.name)).Nodup := by
  cases d with
  | add p =>
    refine ⟨h.add hd, ?_⟩
    change ((s.2.putPath p).paths.map (·.name)).Nodup
    rw [names_putPath]
    split
    next => exact hnd
    next hn => exact List.nodup_append'.2 ⟨hnd, List.nodup_singleton _, List.disjoint_singleton.2 hn⟩
  | erase n =>
    change (((s.1.erase s.2 n).map (·.2)).getD s).1.Mirrors (((s.1.erase s.2 n).map (·.2)).getD s).2 ∧
      ((((s.1.erase s.2 n).map (·.2)).getD s).2.paths.map (·.name)).Nodup
    cases he : s.1.erase s.2 n with
    | none => exact ⟨h, hnd⟩
    | some e =>
      obtain ⟨p, t', c'⟩ := e
      refine ⟨h.erase hnd he, ?_⟩
      obtain ⟨q, -, heq⟩ := Option.map_eq_some_iff.1 he
      obtain rfl : s.2.removePath n = c' := congrArg (·.2.2) heq
      exact hnd.sublist (List.filter_sublist.map _)

/-- After any number of fitting calls the table of a circuit lists, for every module, the names of the current paths
that pass through it, each once and in the order of the circuit. -/
theorem mirrors_foldl (hnd : (c.paths.map (·.name)).Nodup) {calls : List Call} {s : PathTable × Circuit}
    (hs : calls.foldl call (ofCircuit c, c) = s) (hfit : AllFit (ofCircuit c, c) calls) (k : String) :
    s.1.lookup k = s.2.pathsThrough k ∧ (s.1.lookup k).Nodup := by
  suffices ∀ (calls : List Call) (s₀ : PathTable × Circuit), s₀.1.Mirrors s₀.2 → (s₀.2.paths.map (·.name)).Nodup →
      AllFit s₀ calls → (calls.foldl call s₀).1.Mirrors (calls.foldl call s₀).2 ∧
        ((calls.foldl call s₀).2.paths.map (·.name)).Nodup by
    obtain ⟨hm, hn⟩ := this calls _ (mirrors_ofCircuit hnd) hnd hfit
    rw [hs] at hm hn
    exact ⟨hm k, hm k ▸ nodup_pathsThrough hn k⟩
  clear hfit hs hnd
  intro calls
  induction calls with
  | nil => exact fun s₀ hm hn _ => ⟨hm, hn⟩
  | cons d calls ih =>
    intro s₀ hm hn hfit
    obtain ⟨hm', hn'⟩ := hm.call hn (hfit [] d calls rfl)
    exact ih (PathTable.call s₀ d) hm' hn' fun done e rest heq =>
      hfit (d :: done) e rest (by rw [heq, List.cons_append])

/-- A path that takes the place of one through another module leaves the name of that one at the other module. -/
theorem not_mirrors_stalePath :
    ¬ ∀ (c : Circuit) (calls : List Call), (c.paths.map (·.name)).Nodup →
      (calls.foldl call (ofCircuit c, c)).1.Mirrors (calls.foldl call (ofCircuit c, c)).2 := fun h =>
  absurd (h ⟨"A", [], []⟩ [.add ⟨"p", [.whole "A"]⟩, .add ⟨"p", [.whole "B"]⟩] List.nodup_nil "A") (by decide)

end PathTable

end Scalarize
