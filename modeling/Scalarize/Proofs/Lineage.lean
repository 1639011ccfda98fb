import Scalarize.Proofs.Symbols
import Scalarize.Proofs.Descent

/-!
# Lineage of symbols

Symbols are derived from those that a module carried at first, from others that were derived, or from none. What is
recorded for the symbols of the module follows from the calls alone.

* `Symbols.Call`, `Symbols.Made`, `Symbols.Run` : any number of calls on the symbols of a module, and their log;
* `Symbols.Descends`, `Symbols.origin` : chains of derivations in the log, and where they start;
* `Symbols.group` : targets in the order in which they were made, by root symbol;
* `Symbols.Tracked`, `Symbols.Run.tracked` : the state after any number of calls;
* `Symbols.Run.lineage` : what is recorded in the end.
-/

namespace Scalarize

/-! ## Targets by root symbol -/

namespace Assoc

variable {κ ν : Type} [DecidableEq κ]

theorem get?_map_mk (ks : List κ) (f : κ → ν) (k : κ) :
    get? (ks.map fun j => (j, f j)) k = if k ∈ ks then some (f k) else none := by
  induction ks with
  | nil => rfl
  | cons j ks ih =>
    rw [List.map_cons, get?, ih]
    by_cases hj : j = k
    · simp [hj]
    · simp [hj, Ne.symm hj]

theorem put_map_mk {ks : List κ} (h : ks.Nodup) (f : κ → ν) (k : κ) (v : ν) :
    put (ks.map fun j => (j, f j)) k v =
      (if k ∈ ks then ks else ks ++ [k]).map fun j => (j, if j = k then v else f j) := by
  induction ks with
  | nil => simp [put]
  | cons j ks ih =>
    obtain ⟨hj, hks⟩ := List.nodup_cons.1 h
    rw [List.map_cons, put]
    split
    next heq =>
      subst heq
      have hrest : ∀ i ∈ ks, i ≠ j := fun i hi heq => hj (heq ▸ hi)
      simp +contextual [hrest]
    next hne =>
      rw [ih hks]
      by_cases hk : k ∈ ks <;> simp [hk, hne, Ne.symm hne]

end Assoc

/-- A key that comes last is new or known. -/
theorem eraseDups_concat {α : Type} [DecidableEq α] (l : List α) (a : α) :
    (l ++ [a]).eraseDups = if a ∈ l then l.eraseDups else l.eraseDups ++ [a] := by
  rw [List.eraseDups_append]
  by_cases ha : a ∈ l <;> simp [List.removeAll, ha, List.eraseDups_cons]

theorem nodup_eraseDups {α : Type} [DecidableEq α] (l : List α) : l.eraseDups.Nodup := by
  induction l using List.reverseRecOn with
  | nil => exact List.nodup_nil
  | append_singleton l a ih =>
    rw [eraseDups_concat]
    split
    · exact ih
    next ha =>
      refine List.nodup_append'.2 ⟨ih, List.nodup_singleton a, List.disjoint_singleton.2 fun hmem => ha ?_⟩
      exact List.mem_eraseDups.1 hmem

namespace Symbols

/-- Targets by root symbol, for the root symbols in a list: in the order of their first targets. -/
def group (roots : List String) (found : List (String × Target)) : Assoc String (List Target) :=
  ((found.map (·.1)).filter (· ∈ roots)).eraseDups.map fun s => (s, (found.filter (·.1 = s)).map (·.2))

section

variable {roots : List String} {found : List (String × Target)} {r : String} {t : Target}

theorem keys_group (roots : List String) (found : List (String × Target)) :
    (group roots found).keys = ((found.map (·.1)).filter (· ∈ roots)).eraseDups := by
  simp [group, Assoc.keys, Function.comp_def]

theorem group_concat_of_mem (hr : r ∈ roots) :
    group roots (found ++ [(r, t)]) = (group roots found).adjust r [] (· ++ [t]) := by
  -- what was found for a symbol that is no key yet is nothing
  have hnone : r ∉ (found.map (·.1)).filter (· ∈ roots) → (found.filter (·.1 = r)).map (·.2) = [] := fun hnot => by
    rw [List.map_eq_nil_iff, List.filter_eq_nil_iff]
    intro e he heq
    refine hnot (List.mem_filter.2 ⟨List.mem_map.2 ⟨e, he, by simpa using heq⟩, by simpa using hr⟩)
  have hget : ((group roots found).get? r).getD [] = (found.filter (·.1 = r)).map (·.2) := by
    rw [group, Assoc.get?_map_mk]
    split
    · rfl
    next hnot => rw [hnone fun hmem => hnot (List.mem_eraseDups.2 hmem)]; rfl
  rw [Assoc.adjust, hget, group, group, Assoc.put_map_mk (nodup_eraseDups _)]
  simp only [List.map_append, List.filter_append, List.map_cons, List.map_nil, List.filter_cons, hr, decide_true,
    if_true, List.filter_nil, eraseDups_concat, List.mem_eraseDups]
  refine List.map_congr_left fun s _ => ?_
  by_cases hs : s = r
  · simp [hs]
  · simp [hs, Ne.symm hs]

theorem group_concat_of_not_mem (hr : r ∉ roots) : group roots (found ++ [(r, t)]) = group roots found := by
  unfold group
  simp only [List.map_append, List.filter_append, List.map_cons, List.map_nil, List.filter_cons, hr, decide_false,
    Bool.false_eq_true, if_false, List.filter_nil, List.append_nil]
  refine List.map_congr_left fun s hs => ?_
  have hne : r ≠ s := by
    rintro rfl
    exact hr (by simpa using (List.mem_filter.1 (List.mem_eraseDups.1 hs)).2)
  simp [hne]

end

/-! ## Calls -/

/-- A call that makes a symbol. -/
inductive Call where
  | fresh (text : String)
  | derive (base suffix : String) (ground : Bool) (kind : TargetKind)
  | detached (name : Option String) (suffix : String)
  deriving DecidableEq

/-- The symbol that a call makes, and the symbols after it. -/
def call (y : Symbols) : Call → String × Symbols
  | .fresh text => y.fresh text
  | .derive base suffix ground kind => y.derive base suffix ground kind
  | .detached name suffix => y.detached name suffix

/-- The symbol from which a call derives. -/
def Call.base? : Call → Option String
  | .derive base _ _ _ => some base
  | _ => none

/-- A call, and the symbol that it made. -/
structure Made where
  call : Call
  sym : String
  deriving DecidableEq

/-- A call derives from a symbol of the module, or from a symbol that an earlier call derived or detached. -/
def Call.Follows (m : Module) (log : List Made) (c : Call) : Prop :=
  ∀ base, c.base? = some base → base ∈ m.syms ∨ ∃ e ∈ log, e.sym = base ∧ ∀ text, e.call ≠ .fresh text

/-- Calls on the symbols of a module, in the order of the log. Other modules may generate names in between. -/
inductive Run (m : Module) : List Made → Symbols → Prop
  | start (generated : Nat) : Run m [] (ofModule m generated)
  | call {log : List Made} {y : Symbols} (h : Run m log y) (c : Call) (hc : c.Follows m log) :
    Run m (log ++ [⟨c, (y.call c).1⟩]) (y.call c).2
  | elsewhere {log : List Made} {y : Symbols} (h : Run m log y) (generated : Nat) : Run m log { y with generated }

/-- A chain of derivations leads from a symbol to another. -/
inductive Descends (log : List Made) (s : String) : String → Prop
  | self : Descends log s s
  | derived {e : Made} {base : String} (h : Descends log s base) (he : e ∈ log) (hb : e.call.base? = some base) :
    Descends log s e.sym

/-- The call derives a symbol for a ground part, which descends from `s`. -/
def Made.PieceOf (log : List Made) (s : String) (e : Made) : Prop :=
  ∃ base suffix kind, e.call = .derive base suffix true kind ∧ Descends log s base

/-! ## Where chains start -/

/-- The symbol at which the chain of derivations that leads to a symbol starts. -/
def origin (log : List Made) : String → String :=
  log.foldl (fun before e => match e.call.base? with
    | some base => fun s => if s = e.sym then before base else before s
    | none => before) id

/-- The target that a call makes, with the symbol at which its chain starts. -/
def Made.target? (log : List Made) (e : Made) : Option (String × Target) :=
  match e.call with
  | .derive base _ true kind => some (origin log base, ⟨e.sym, kind⟩)
  | _ => none

variable {m : Module} {log : List Made} {y y' : Symbols} {e : Made} {s a base : String}

theorem origin_concat_of_base (hb : e.call.base? = some base) (a : String) :
    origin (log ++ [e]) a = if a = e.sym then origin log base else origin log a := by
  simp [origin, hb]

theorem origin_concat_of_none (hb : e.call.base? = none) : origin (log ++ [e]) = origin log := by
  simp [origin, hb]

theorem origin_concat_of_ne (ha : a ≠ e.sym) : origin (log ++ [e]) a = origin log a := by
  cases hb : e.call.base? with
  | none => rw [origin_concat_of_none hb]
  | some base => rw [origin_concat_of_base hb, if_neg ha]

/-- What earlier calls made stays the same, where the new symbol is no base of theirs. -/
theorem target?_concat {e' : Made} (h : e'.call.base? ≠ some e.sym) : e'.target? (log ++ [e]) = e'.target? log := by
  unfold Made.target?
  split
  next base _ kind hcall =>
    rw [origin_concat_of_ne]
    rintro rfl
    exact h (by rw [hcall]; rfl)
  next => rfl

theorem target?_eq_some_iff {t : Target} : e.target? log = some (s, t) ↔
    ∃ base suffix, e.call = .derive base suffix true t.kind ∧ origin log base = s ∧ e.sym = t.sym := by
  obtain ⟨sym, kind⟩ := t
  unfold Made.target?
  split
  next base suffix kind' hcall => simp [hcall]; grind
  next hnot =>
    refine ⟨nofun, ?_⟩
    rintro ⟨base, suffix, hcall, -⟩
    exact absurd hcall (hnot base suffix kind)

/-- All targets that calls make. -/
def found (log : List Made) : List (String × Target) := log.filterMap (·.target? log)

theorem found_concat (h : ∀ e' ∈ log ++ [e], e'.call.base? ≠ some e.sym) :
    found (log ++ [e]) = found log ++ (e.target? log).toList := by
  have hold : log.filterMap (·.target? (log ++ [e])) = log.filterMap (·.target? log) :=
    List.filterMap_congr fun e' he' => target?_concat (h e' (List.mem_append_left _ he'))
  unfold found
  rw [List.filterMap_append, hold, List.filterMap_cons, target?_concat (h e (by simp))]
  cases e.target? log <;> rfl

/-! ## The state after calls -/

/-- The state agrees with the log of the calls that led to it. -/
structure Tracked (m : Module) (log : List Made) (y : Symbols) : Prop where
  moduleName : y.moduleName = m.name
  rooted : y.Rooted
  taken : ∀ s, s ∈ y.names.taken ↔ s ∈ m.syms ∨ ∃ e ∈ log, e.sym = s
  nodup : (log.map (·.sym)).Nodup
  new : ∀ e ∈ log, e.sym ∉ m.syms
  base : ∀ e ∈ log, ∀ base, e.call.base? = some base → base ∈ y.names.taken
  root : ∀ s, y.root s = origin log s
  own : ∀ s ∈ m.syms, origin log s = s
  derived : ∀ e ∈ log, ∀ base, e.call.base? = some base → origin log e.sym = origin log base
  underived : ∀ e ∈ log, e.call.base? = none → origin log e.sym = e.sym
  detached : ∀ s, s ∈ y.detachedSyms ↔ ∃ e ∈ log, e.sym = s ∧ ∃ name suffix, e.call = .detached name suffix
  /-- A symbol that may be a base has its origin in the module, or was detached. -/
  stem : ∀ e ∈ log, (∀ text, e.call ≠ .fresh text) → origin log e.sym ∈ m.syms ∨ origin log e.sym ∈ y.detachedSyms
  targets : y.targets = group m.syms (found log)

theorem detachedSyms_derive (y : Symbols) (base suffix : String) (ground : Bool) (kind : TargetKind) :
    (y.derive base suffix ground kind).2.detachedSyms = y.detachedSyms := by
  unfold derive
  dsimp only
  split <;> rfl

namespace Tracked

theorem start (m : Module) (generated : Nat) : Tracked m [] (ofModule m generated) where
  moduleName := rfl
  rooted := ⟨Partition.star_empty, nofun, nofun⟩
  taken s := by simp [mem_taken_ofModule]
  nodup := List.nodup_nil
  new := nofun
  base := nofun
  root _ := rfl
  own _ _ := rfl
  derived := nofun
  underived := nofun
  detached s := by simp [ofModule]
  stem := nofun
  targets := rfl

theorem elsewhere (h : Tracked m log y) (generated : Nat) : Tracked m log { y with generated } :=
  { h with rooted := ⟨h.rooted.star, h.rooted.tracked, h.rooted.detached⟩ }

/-- Symbols that were made are taken, also as bases. -/
theorem base_ne (h : Tracked m log y) {e' : Made} (he' : e' ∈ log) (hs : s ∉ y.names.taken) :
    e'.call.base? ≠ some s := fun hb => hs (h.base e' he' s hb)

/-- What a call may derive from is taken, and has its origin in the module or was detached. -/
theorem follows (h : Tracked m log y) {c : Call} (hc : c.Follows m log) (hb : c.base? = some base) :
    base ∈ y.names.taken ∧ (y.root base ∈ m.syms ∨ y.root base ∈ y.detachedSyms) := by
  rw [h.root]
  rcases hc base hb with hbase | ⟨e, he, rfl, hfresh⟩
  · exact ⟨(h.taken base).2 (.inl hbase), .inl ((h.own base hbase).symm ▸ hbase)⟩
  · exact ⟨(h.taken _).2 (.inr ⟨e, he, rfl⟩), h.stem e he hfresh⟩

theorem own_not_detached (h : Tracked m log y) (hs : s ∈ m.syms) : s ∉ y.detachedSyms := fun hd => by
  obtain ⟨e, he, rfl, -⟩ := (h.detached s).1 hd
  exact h.new e he hs

/-- A call made a symbol that was free. -/
theorem made (h : Tracked m log y) (hg : y.Gains (some e.sym) y')
    (hbase : ∀ base, e.call.base? = some base → base ∈ y.names.taken)
    (hroot : y'.root e.sym = e.call.base?.elim e.sym y.root)
    (hdet : e.sym ∈ y'.detachedSyms ↔ ∃ name suffix, e.call = .detached name suffix)
    (hstem : (∀ text, e.call ≠ .fresh text) → y'.root e.sym ∈ m.syms ∨ y'.root e.sym ∈ y'.detachedSyms)
    (htargets : y'.targets = group m.syms (found log ++ (e.target? log).toList)) : Tracked m (log ++ [e]) y' := by
  have hnew : e.sym ∉ y.names.taken := hg.new _ rfl
  have hne : ∀ e' ∈ log, e'.sym ≠ e.sym := fun e' he' heq => hnew ((h.taken _).2 (.inr ⟨e', he', heq⟩))
  have hroots : ∀ s, y'.root s = origin (log ++ [e]) s := fun s => by
    by_cases hs : s = e.sym
    · subst hs
      rw [hroot]
      cases hb : e.call.base? with
      | none =>
        rw [origin_concat_of_none hb, ← h.root, h.rooted.root_eq hnew]
        rfl
      | some base => rw [origin_concat_of_base hb, if_pos rfl, Option.elim_some, h.root]
    · rw [origin_concat_of_ne hs, ← h.root]
      by_cases ht : s ∈ y.names.taken
      · exact hg.root s ht
      · rw [h.rooted.root_eq ht]
        refine hg.rooted.root_eq ?_
        rw [hg.taken]
        simpa [hs] using ht
  have htaken : ∀ s, s ∈ y'.names.taken ↔ s = e.sym ∨ s ∈ y.names.taken := fun s => by simp [hg.taken]
  refine ⟨hg.moduleName.trans h.moduleName, hg.rooted, fun s => ?_, ?_, fun e' he' => ?_, fun e' he' base hb => ?_,
    hroots, fun s hs => ?_, fun e' he' base hb => ?_, fun e' he' hb => ?_, fun s => ?_,
    fun e' he' hfresh => ?_, ?_⟩
  · rw [htaken, h.taken]
    simp only [List.mem_append, List.mem_singleton, or_and_right, exists_or, exists_eq_left, eq_comm (a := e.sym)]
    exact or_rotate
  · rw [List.map_append]
    refine List.nodup_append'.2 ⟨h.nodup, List.nodup_singleton _, List.disjoint_singleton.2 fun hmem => ?_⟩
    obtain ⟨e', he', heq⟩ := List.mem_map.1 hmem
    exact hne e' he' heq
  · rcases List.mem_append.1 he' with he' | he'
    · exact h.new e' he'
    · obtain rfl := List.mem_singleton.1 he'
      exact fun hs => hnew ((h.taken _).2 (.inl hs))
  · rcases List.mem_append.1 he' with he' | he'
    · exact hg.mem (h.base e' he' base hb)
    · obtain rfl := List.mem_singleton.1 he'
      exact hg.mem (hbase base hb)
  · rw [← hroots, hg.root s ((h.taken s).2 (.inl hs)), h.root, h.own s hs]
  · have hne' : base ≠ e.sym := by
      rintro rfl
      rcases List.mem_append.1 he' with he' | he'
      · exact h.base_ne he' hnew hb
      · obtain rfl := List.mem_singleton.1 he'
        exact hnew (hbase _ hb)
    rw [origin_concat_of_ne hne']
    rcases List.mem_append.1 he' with he' | he'
    · rw [origin_concat_of_ne (hne e' he'), h.derived e' he' base hb]
    · obtain rfl := List.mem_singleton.1 he'
      rw [origin_concat_of_base hb, if_pos rfl]
  · rcases List.mem_append.1 he' with he' | he'
    · rw [origin_concat_of_ne (hne e' he'), h.underived e' he' hb]
    · obtain rfl := List.mem_singleton.1 he'
      rw [origin_concat_of_none hb, ← h.root, h.rooted.root_eq hnew]
  · by_cases hs : s = e.sym
    · subst hs
      rw [hdet]
      simp only [List.mem_append, List.mem_singleton]
      exact ⟨fun hd => ⟨e, .inr rfl, rfl, hd⟩, fun ⟨e', he', heq, hd⟩ =>
        he'.elim (fun he' => absurd heq (hne e' he')) fun he' => he' ▸ hd⟩
    · have hiff : s ∈ y'.detachedSyms ↔ s ∈ y.detachedSyms := by
        refine ⟨fun hd => ?_, fun hd => (hg.detached s (h.rooted.detached hd)).2 hd⟩
        exact (hg.detached s (((htaken s).1 (hg.rooted.detached hd)).resolve_left hs)).1 hd
      rw [hiff, h.detached]
      simp only [List.mem_append, List.mem_singleton]
      exact ⟨fun ⟨e', he', hd⟩ => ⟨e', .inl he', hd⟩, fun ⟨e', he', heq, hd⟩ =>
        he'.elim (fun he' => ⟨e', he', heq, hd⟩) fun he' => absurd (he' ▸ heq).symm hs⟩
  · rcases List.mem_append.1 he' with he' | he'
    · have ht : e'.sym ∈ y.names.taken := (h.taken _).2 (.inr ⟨e', he', rfl⟩)
      rw [origin_concat_of_ne (hne e' he')]
      exact (h.stem e' he' hfresh).imp_right fun hd => (hg.detached _ (h.rooted.detached hd)).2 hd
    · obtain rfl := List.mem_singleton.1 he'
      rw [← hroots]
      exact hstem hfresh
  · rw [htargets, found_concat fun e' he' => ?_]
    rcases List.mem_append.1 he' with he' | he'
    · exact h.base_ne he' hnew
    · obtain rfl := List.mem_singleton.1 he'
      exact fun hb => hnew (hbase _ hb)

/-- Every call keeps the state in agreement with the log. -/
theorem call (h : Tracked m log y) {c : Call} (hc : c.Follows m log) :
    Tracked m (log ++ [⟨c, (y.call c).1⟩]) (y.call c).2 := by
  cases c with
  | fresh text =>
    have hg : y.Gains (some (y.call (.fresh text)).1) (y.call (.fresh text)).2 := gains_fresh h.rooted text
    have hnew := hg.new _ rfl
    refine h.made hg nofun ?_ ⟨fun hd => ?_, nofun⟩ (fun hfresh => absurd rfl (hfresh text)) ?_
    · exact h.rooted.root_eq hnew
    · exact absurd (h.rooted.detached hd) hnew
    · exact h.targets.trans (by simp [Made.target?])
  | derive base suffix ground kind =>
    obtain ⟨ht, hstem⟩ := h.follows hc rfl
    obtain ⟨hg, hroot, htargets⟩ := derive_spec h.rooted ht suffix ground kind
    have hdet : ∀ s, s ∈ y.detachedSyms → s ∈ (y.derive base suffix ground kind).2.detachedSyms := fun s hd =>
      (hg.detached s (h.rooted.detached hd)).2 hd
    refine h.made hg (fun _ hb => Option.some.inj hb ▸ ht) hroot ⟨fun hd => ?_, nofun⟩ (fun _ => ?_) ?_
    · exact absurd (h.rooted.detached (detachedSyms_derive y base suffix ground kind ▸ hd)) (hg.new _ rfl)
    · exact hroot ▸ hstem.imp_right (hdet _)
    · refine htargets.trans ?_
      cases ground with
      | false => exact (if_neg (by simp)).trans (h.targets.trans (by simp [Made.target?]))
      | true =>
        change _ = group m.syms (found log ++ [(origin log base, ⟨_, kind⟩)])
        rw [← h.root]
        -- what is not detached has its origin in the module
        by_cases hmem : y.root base ∈ m.syms
        · rw [group_concat_of_mem hmem, if_pos ⟨rfl, h.own_not_detached hmem⟩, h.targets]
          rfl
        · rw [group_concat_of_not_mem hmem, if_neg fun hrec => hrec.2 (hstem.resolve_left hmem), h.targets]
  | detached name suffix =>
    have hg : y.Gains (some (y.call (.detached name suffix)).1) (y.call (.detached name suffix)).2 :=
      gains_detached h.rooted name suffix
    have hd := mem_detachedSyms_detached y name suffix
    have hroot := root_detached h.rooted name suffix
    refine h.made hg nofun hroot ⟨fun _ => ⟨name, suffix, rfl⟩, fun _ => hd⟩ (fun _ => .inr (hroot.symm ▸ hd)) ?_
    exact ((targets_detached y name suffix).trans h.targets).trans (by simp [Made.target?])

end Tracked

/-- After any number of calls, the state agrees with their log. -/
theorem Run.tracked (h : Run m log y) : Tracked m log y := by
  induction h with
  | start generated => exact .start m generated
  | call _ c hc ih => exact ih.call hc
  | elsewhere _ generated ih => exact ih.elsewhere generated

/-! ## What is recorded -/

theorem Descends.mono (h : Descends log s a) {log' : List Made} (hsub : log ⊆ log') : Descends log' s a := by
  induction h with
  | self => exact .self
  | derived _ he hb ih => exact ih.derived (hsub he) hb

/-- A chain of derivations leads from the origin of a symbol to the symbol. -/
theorem descends_origin (log : List Made) (a : String) : Descends log (origin log a) a := by
  induction log using List.reverseRecOn generalizing a with
  | nil => exact .self
  | append_singleton log e ih =>
    have hsub : log ⊆ log ++ [e] := List.subset_append_left _ _
    by_cases ha : a = e.sym
    · subst ha
      cases hb : e.call.base? with
      | none =>
        rw [origin_concat_of_none hb]
        exact (ih _).mono hsub
      | some base =>
        rw [origin_concat_of_base hb, if_pos rfl]
        exact ((ih base).mono hsub).derived (by simp) hb
    · rw [origin_concat_of_ne ha]
      exact (ih a).mono hsub

/-- Chains that start at a symbol which is derived from no other are those of which it is the origin. -/
theorem Tracked.origin_eq_iff (h : Tracked m log y) (hs : origin log s = s) (a : String) :
    origin log a = s ↔ Descends log s a := by
  refine ⟨fun ha => ha ▸ descends_origin log a, fun hd => ?_⟩
  induction hd with
  | self => exact hs
  | derived _ he hb ih => rw [h.derived _ he _ hb, ih]

/-- The call makes the target, for a ground part that descends from `s`. -/
def Made.Targets (log : List Made) (s : String) (t : Target) (e : Made) : Prop :=
  e.PieceOf log s ∧ e.sym = t.sym ∧ ∃ base suffix ground, e.call = .derive base suffix ground t.kind

theorem Tracked.mem_found (h : Tracked m log y) (hs : origin log s = s) (t : Target) :
    (s, t) ∈ found log ↔ ∃ e ∈ log, e.Targets log s t := by
  unfold found
  rw [List.mem_filterMap]
  refine exists_congr fun e => and_congr_right fun he => ?_
  rw [target?_eq_some_iff]
  constructor
  · rintro ⟨base, suffix, hcall, hbase, hsym⟩
    exact ⟨⟨base, suffix, _, hcall, (h.origin_eq_iff hs base).1 hbase⟩, hsym, base, suffix, true, hcall⟩
  · rintro ⟨⟨base, suffix, kind, hcall, hd⟩, hsym, base', suffix', ground, hcall'⟩
    obtain ⟨-, -, -, rfl⟩ := Call.derive.inj (hcall.symm.trans hcall')
    exact ⟨base, suffix, hcall, (h.origin_eq_iff hs base).2 hd, hsym⟩

/-- Targets that calls made are recorded for the symbols that a module carried at first. -/
structure Lineage (m : Module) (log : List Made) (r : Renames) : Prop where
  moduleName : r.moduleName = m.name
  /-- Exactly the symbols from which a ground part descends have targets. -/
  mem_keys : ∀ s, s ∈ r.targets.keys ↔ s ∈ m.syms ∧ ∃ e ∈ log, e.PieceOf log s
  /-- They are listed in the order of their first targets. -/
  keys : r.targets.keys = (((found log).map (·.1)).filter (· ∈ m.syms)).eraseDups
  /-- The targets of a symbol are those of its ground parts in the order of the calls, each of them once. -/
  targets : ∀ {s ts}, (s, ts) ∈ r.targets → ts = ((found log).filter (·.1 = s)).map (·.2) ∧ (ts.map (·.sym)).Nodup
  mem_found : ∀ {s}, s ∈ m.syms → ∀ t, (s, t) ∈ found log ↔ ∃ e ∈ log, e.Targets log s t
  /-- What descends from a symbol that was detached is recorded nowhere. -/
  detached : ∀ {d e : Made} {name suffix}, d ∈ log → d.call = .detached name suffix → e ∈ log →
    Descends log d.sym e.sym → ∀ {s ts}, (s, ts) ∈ r.targets → ∀ t ∈ ts, t.sym ≠ e.sym
  nodup : (log.map (·.sym)).Nodup
  new : ∀ e ∈ log, e.sym ∉ m.syms

/-- A target is found once. -/
theorem nodup_found (h : (log.map (·.sym)).Nodup) : ((found log).map (·.2.sym)).Nodup := by
  suffices ∀ l : List Made, ((l.filterMap (·.target? log)).map (·.2.sym)).Sublist (l.map (·.sym)) from h.sublist (this log)
  intro l
  induction l with
  | nil => exact .slnil
  | cons e l ih =>
    rw [List.filterMap_cons, List.map_cons]
    split
    · exact ih.cons _
    next r hr =>
      obtain ⟨-, -, -, -, hsym⟩ := target?_eq_some_iff.1 hr
      rw [List.map_cons, ← hsym]
      exact ih.cons_cons _

/-- What is recorded after calls on the symbols of a module, whatever their texts are. -/
theorem Run.lineage (h : Run m log y) (index : Nat) : Lineage m log (y.renames index) := by
  have ht := h.tracked
  have hkeys : y.targets.keys = (((found log).map (·.1)).filter (· ∈ m.syms)).eraseDups := by
    rw [ht.targets, keys_group]
  have htargets : ∀ {s ts}, (s, ts) ∈ y.targets →
      s ∈ m.syms ∧ ts = ((found log).filter (·.1 = s)).map (·.2) := fun {s ts} hmem => by
    rw [ht.targets] at hmem
    obtain ⟨s', hs', heq⟩ := List.mem_map.1 hmem
    obtain ⟨rfl, rfl⟩ := Prod.mk.inj heq
    exact ⟨by simpa using (List.mem_filter.1 (List.mem_eraseDups.1 hs')).2, rfl⟩
  -- a target of a symbol is that of a part which descends from it
  have hpiece : ∀ {s ts}, (s, ts) ∈ y.targets → ∀ t ∈ ts, ∃ e ∈ log, e.Targets log s t := fun hmem t hmt => by
    obtain ⟨hs, rfl⟩ := htargets hmem
    obtain ⟨⟨s', t⟩, hfilter, rfl⟩ := List.mem_map.1 hmt
    obtain ⟨hfound, heq⟩ := List.mem_filter.1 hfilter
    exact (ht.mem_found (ht.own _ hs) t).1 (of_decide_eq_true heq ▸ hfound)
  refine ⟨ht.moduleName, fun s => ?_, hkeys, fun {s ts} hmem => ?_, fun hs => ht.mem_found (ht.own _ hs),
    fun {d e name suffix} hd hcall he hdesc s ts hmem t hmt heq => ?_, ht.nodup, ht.new⟩
  · change s ∈ y.targets.keys ↔ _
    rw [hkeys, List.mem_eraseDups, List.mem_filter, decide_eq_true_iff, and_comm]
    refine and_congr_right fun hs => ?_
    rw [List.mem_map]
    constructor
    · rintro ⟨⟨s', t⟩, hfound, rfl⟩
      obtain ⟨e, he, htarget⟩ := (ht.mem_found (ht.own _ hs) t).1 hfound
      exact ⟨e, he, htarget.1⟩
    · rintro ⟨e, he, base, suffix, kind, hcall, hdesc⟩
      exact ⟨(s, ⟨e.sym, kind⟩), (ht.mem_found (ht.own s hs) _).2
        ⟨e, he, ⟨base, suffix, kind, hcall, hdesc⟩, rfl, base, suffix, true, hcall⟩, rfl⟩
  · obtain ⟨-, rfl⟩ := htargets hmem
    refine ⟨rfl, ?_⟩
    rw [List.map_map]
    exact (nodup_found ht.nodup).sublist (List.filter_sublist.map _)
  · obtain ⟨e', he', ⟨base, suffix', kind, hcall', hbase⟩, hsym, -⟩ := hpiece hmem t hmt
    obtain rfl : e' = e := List.inj_on_of_nodup_map ht.nodup he' he (hsym.trans heq)
    have hs := (htargets hmem).1
    -- the origin of the symbol would be the one that was detached, and one of the module
    have horigin : origin log e'.sym = s :=
      (ht.origin_eq_iff (ht.own s hs) _).2 (hbase.derived he (by rw [hcall']; rfl))
    have hapart : origin log e'.sym = d.sym :=
      (ht.origin_eq_iff (ht.underived d hd (by rw [hcall]; rfl)) _).2 hdesc
    exact ht.new d hd (hapart.symm.trans horigin ▸ hs)

end Symbols

/-! ### Two layers below one symbol, and a part of a symbol that was detached -/

/-- A module with two symbols, one of which looks as if it were derived from the other. -/
def symsModule : Module where
  name := "M"
  isPublic := false
  ports := [⟨"p", .clock, .input, some "s", []⟩, ⟨"q", .clock, .input, some "s_b", []⟩]
  annotations := []
  body := none

namespace Symbols

def symsCalls : List Call :=
  [.derive "s" "_a" false .port, .detached none "_x", .derive "__GEN_0_x" "_y" true .port,
    .derive "s_a" "_x" true (.operation ⟨0⟩), .derive "s" "_b" true .port]

theorem Run.lineage_two_layers : ∃ log y, Run symsModule log y ∧ log.map (·.call) = symsCalls ∧
    Lineage symsModule log (y.renames 0) := by
  have hown : ∀ {log suffix ground kind}, Call.Follows symsModule log (.derive "s" suffix ground kind) := by
    rintro _ _ _ _ base hb
    obtain rfl := Option.some.inj hb
    exact .inl (by decide)
  have hmade : ∀ {log base suffix ground kind}, (∃ e ∈ log, e.sym = base ∧ ∀ text, e.call ≠ .fresh text) →
      Call.Follows symsModule log (.derive base suffix ground kind) := fun he base hb =>
    .inr (Option.some.inj hb ▸ he)
  have h₁ := (Run.start (m := symsModule) 0).call (.derive "s" "_a" false .port) hown
  have h₂ := h₁.call (.detached none "_x") nofun
  have h₃ := h₂.call (.derive "__GEN_0_x" "_y" true .port)
    (hmade ⟨⟨.detached none "_x", _⟩, List.mem_append_right _ (List.mem_singleton_self _), by decide +kernel, by simp⟩)
  have h₄ := h₃.call (.derive "s_a" "_x" true (.operation ⟨0⟩))
    (hmade ⟨⟨.derive "s" "_a" false .port, _⟩, List.mem_append_left _ (List.mem_append_left _ List.mem_cons_self),
      by decide +kernel, by simp⟩)
  have h₅ := h₄.call (.derive "s" "_b" true .port) hown
  exact ⟨_, _, h₅, rfl, h₅.lineage 0⟩

end Symbols

end Scalarize
