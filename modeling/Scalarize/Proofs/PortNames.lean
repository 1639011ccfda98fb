import Mathlib.Data.List.Nodup
import Scalarize.NamePool
import Scalarize.Proofs.Flattening

/-!
# Names of flattened ports

A part is named after its whole, its label behind an underscore. Names stay different if those of siblings do, and
these are only alike if one of them continues the other behind an underscore.

* `Sibling` : a port of a module or a part of an aggregate, by its name; `Sibling.names`, `Sibling.Clash` : what its
  pieces are called, and how two of them come to the same name;
* `Sibling.nodup_names_iff` : pieces of siblings have different names just if they do not clash;
* `Ty.EveryBundle`, `Ty.nodup_suffix_iff` : the same for all pieces of a type;
* `Module.nodup_portNames_iff` : the ports of a lowered module.
-/

namespace Scalarize

/-- A port of a module or a part of an aggregate, by its name among all of them. -/
structure Sibling where
  name : String
  ty : Ty

namespace Sibling

variable {keep : Bool} {a b : Sibling} {l : List Sibling}

/-- The names of the pieces that are left of it. -/
def names (keep : Bool) (a : Sibling) : List String := (a.ty.stops keep).map fun s => a.name ++ s.suffix

/-- The name of `b` is the one of `a`, an underscore, and a rest by which a piece of `b` is called like one of `a`. -/
def Clash (keep : Bool) (a b : Sibling) : Prop :=
  ∃ rest, b.name = a.name ++ ("_" ++ rest) ∧
    ∃ s ∈ a.ty.stops keep, ∃ s' ∈ b.ty.stops keep, s.suffix = "_" ++ rest ++ s'.suffix

/-- No two of them clash. -/
def Apart (keep : Bool) (l : List Sibling) : Prop := l.Pairwise fun a b => ¬Clash keep a b ∧ ¬Clash keep b a

theorem Clash.exists_mem (h : Clash keep a b) : ∃ n, n ∈ a.names keep ∧ n ∈ b.names keep := by
  obtain ⟨rest, hname, s, hs, s', hs', hsuffix⟩ := h
  refine ⟨_, List.mem_map.2 ⟨s, hs, rfl⟩, List.mem_map.2 ⟨s', hs', ?_⟩⟩
  rw [hname, hsuffix, String.append_assoc]

end Sibling

/-! ## Labels -/

namespace Ty

variable {keep : Bool} {t u : Ty} {path : List Nat}

/-- The parts of an aggregate by their labels. -/
def siblings : Ty → List Sibling
  | .ground _ => []
  | .bundle fs => fs.map fun f => ⟨f.name, f.ty⟩
  | .vector e n => (List.range n).map fun i => ⟨toString i, e⟩

theorem map_ty_siblings (t : Ty) : t.siblings.map (·.ty) = t.children := by
  cases t with
  | ground g => rfl
  | bundle fs => simp [siblings, children]
  | vector e n => simp [siblings, children, Function.comp_def]

/-- What the name of an aggregate gains on the way to its pieces. -/
theorem map_suffix_stops (h : (t.isGround || keep && t.preservable) = false) :
    (t.stops keep).map (·.suffix) = (t.siblings.flatMap (Sibling.names keep)).map ("_" ++ ·) := by
  have hlayer : t.layer.map (fun s => (s.suffix, s.ty)) = t.siblings.map fun a => ("_" ++ a.name, a.ty) := by
    cases t with
    | ground g => rfl
    | bundle fs =>
      refine List.ext_getElem? fun i => ?_
      simp [layer, siblings, Function.comp_def]
    | vector e n => simp [layer, siblings, Function.comp_def]
  have hflat := congrArg (List.flatMap fun x => (x.2.stops keep).map fun s => x.1 ++ s.suffix) hlayer
  rw [List.flatMap_map, List.flatMap_map] at hflat
  rw [stops_eq_layer h, List.map_flatMap, List.map_flatMap]
  simpa [Sibling.names, Stop.below, Function.comp_def, String.append_assoc] using hflat

/-- A name gains nothing, or something behind an underscore. -/
theorem suffix_stops {s : Stop} (hs : s ∈ t.stops keep) : s.suffix = "" ∨ ∃ rest, s.suffix = "_" ++ rest := by
  cases hkept : t.isGround || keep && t.preservable with
  | true =>
    rw [stops_of_kept hkept, List.mem_singleton] at hs
    exact .inl (by rw [hs]; rfl)
  | false =>
    have hmem : s.suffix ∈ (t.stops keep).map (·.suffix) := List.mem_map_of_mem hs
    rw [map_suffix_stops hkept] at hmem
    obtain ⟨n, -, hn⟩ := List.mem_map.1 hmem
    exact .inr ⟨n, hn.symm⟩

end Ty

/-! ## Siblings -/

namespace Sibling

variable {keep : Bool} {a b : Sibling} {l : List Sibling}

/-- What continues a name to that of a piece begins with an underscore. -/
theorem clash_of_continues {d : List Char} {s s' : Stop} (hs : s ∈ a.ty.stops keep) (hs' : s' ∈ b.ty.stops keep)
    (hname : b.name.toList = a.name.toList ++ d) (hd : d ≠ [])
    (hsuffix : s.suffix.toList = d ++ s'.suffix.toList) : Clash keep a b := by
  rcases Ty.suffix_stops hs with hnil | ⟨rest, hrest⟩
  · rw [hnil] at hsuffix
    exact absurd (List.append_eq_nil_iff.1 hsuffix.symm).1 hd
  · obtain ⟨c, d, rfl⟩ := List.exists_cons_of_ne_nil hd
    rw [hrest, String.toList_append] at hsuffix
    have hc : '_' = c := (List.cons.inj (hsuffix : '_' :: rest.toList = c :: (d ++ s'.suffix.toList))).1
    subst hc
    have hunderscore : ("_" ++ String.ofList d).toList = '_' :: d := by simp
    refine ⟨String.ofList d, String.toList_inj.1 ?_, s, hs, s', hs', String.toList_inj.1 ?_⟩
    · rw [String.toList_append, hunderscore, hname]
    · rw [String.toList_append, hunderscore, hrest, String.toList_append]
      exact hsuffix

/-- Siblings with different names clash if pieces of them are called alike, and not otherwise. -/
theorem disjoint_names_iff (hne : a.name ≠ b.name) :
    (a.names keep).Disjoint (b.names keep) ↔ ¬Clash keep a b ∧ ¬Clash keep b a := by
  constructor
  · refine fun hdisj => ⟨fun h => ?_, fun h => ?_⟩
    · obtain ⟨n, ha, hb⟩ := h.exists_mem
      exact hdisj ha hb
    · obtain ⟨n, hb, ha⟩ := h.exists_mem
      exact hdisj ha hb
  · rintro ⟨hab, hba⟩ n ha hb
    obtain ⟨s, hs, rfl⟩ := List.mem_map.1 ha
    obtain ⟨s', hs', heq⟩ := List.mem_map.1 hb
    have hlist := congrArg String.toList heq
    rw [String.toList_append, String.toList_append, List.append_eq_append_iff] at hlist
    -- the longer name continues the shorter one
    have hnonempty : ∀ {d : List Char} {x y : String}, x ≠ y → y.toList = x.toList ++ d → d ≠ [] := by
      rintro d x y hxy hy rfl
      exact hxy (String.toList_inj.1 (by rw [hy, List.append_nil]))
    rcases hlist with ⟨d, hname, hsuffix⟩ | ⟨d, hname, hsuffix⟩
    · exact hba (clash_of_continues hs' hs hname (hnonempty hne.symm hname) hsuffix)
    · exact hab (clash_of_continues hs hs' hname (hnonempty hne hname) hsuffix)

/-- The pieces of siblings with different names have different names just if the siblings do not clash, and the pieces
of each one have different names. -/
theorem nodup_names_iff (h : (l.map (·.name)).Nodup) : (l.flatMap (names keep)).Nodup ↔
    (∀ a ∈ l, ((a.ty.stops keep).map (·.suffix)).Nodup) ∧ Apart keep l := by
  have hne : l.Pairwise fun a b => a.name ≠ b.name := List.pairwise_map.1 h
  rw [List.nodup_flatMap]
  refine and_congr (forall₂_congr fun a _ => ?_) ⟨fun hdisj => ?_, fun hapart => ?_⟩
  · have hnames : a.names keep = ((a.ty.stops keep).map (·.suffix)).map (a.name ++ ·) := by
      rw [names, List.map_map]
      rfl
    rw [hnames, List.nodup_map_iff fun _ _ => (String.append_right_inj a.name).1]
  · exact (hne.and hdisj).imp fun ⟨hne, hdisj⟩ => (disjoint_names_iff hne).1 hdisj
  · exact (hne.and hapart).imp fun ⟨hne, hapart⟩ => (disjoint_names_iff hne).2 hapart

/-- Siblings are apart if no name continues another one behind an underscore. -/
theorem apart_of_forall_ne (h : ∀ a ∈ l, ∀ b ∈ l, ∀ rest, b.name ≠ a.name ++ ("_" ++ rest)) : Apart keep l := by
  refine List.pairwise_of_forall_mem_list fun a ha b hb => ⟨?_, ?_⟩
  · rintro ⟨rest, hname, -⟩
    exact h a ha b hb rest hname
  · rintro ⟨rest, hname, -⟩
    exact h b hb a ha rest hname

end Sibling

/-! ## Types -/

namespace Ty

variable {keep : Bool} {t u : Ty} {path : List Nat}

/-- The fields of every bundle in the type have the property. -/
def EveryBundle (P : List Field → Prop) (t : Ty) : Prop := ∀ path fs, t.sub? path = some (bundle fs) → P fs

theorem everyBundle_iff {P : List Field → Prop} :
    t.EveryBundle P ↔ (∀ fs, t = bundle fs → P fs) ∧ ∀ c ∈ t.children, c.EveryBundle P := by
  constructor
  · refine fun h => ⟨fun fs ht => h [] fs (by rw [ht, sub?]), fun c hc path fs hu => ?_⟩
    obtain ⟨i, hi⟩ := List.mem_iff_getElem?.1 hc
    rw [getElem?_children] at hi
    exact h (i :: path) fs (by rw [sub?_child hi, hu])
  · rintro ⟨hself, hchildren⟩ path fs hu
    cases path with
    | nil => exact hself fs (Option.some.inj hu)
    | cons i path =>
      obtain ⟨c, hc, hu⟩ := Option.bind_eq_some_iff.1 hu
      exact hchildren c (List.mem_of_getElem? ((getElem?_children t i).trans hc)) path fs hu

/-- Within each bundle, elements have different names. -/
def NamesDistinct (t : Ty) : Prop := t.EveryBundle fun fs => (fs.map (·.name)).Nodup

namespace NamesDistinct

theorem ground (g : Ground) : (ground g).NamesDistinct := everyBundle_iff.2 ⟨nofun, nofun⟩

theorem vector {e : Ty} (h : e.NamesDistinct) (n : Nat) : (vector e n).NamesDistinct :=
  everyBundle_iff.2 ⟨nofun, fun _ hc => List.eq_of_mem_replicate hc ▸ h⟩

theorem bundle {fs : List Field} (h : (fs.map (·.name)).Nodup) (hfs : ∀ f ∈ fs, f.ty.NamesDistinct) :
    (bundle fs).NamesDistinct :=
  everyBundle_iff.2 ⟨fun _ hfs' => Ty.bundle.inj hfs' ▸ h, List.forall_mem_map.2 hfs⟩

end NamesDistinct

/-- In no bundle that is split do two elements clash. -/
def Apart (keep : Bool) (t : Ty) : Prop :=
  t.EveryBundle fun fs => ¬(keep = true ∧ (bundle fs).preservable) → Sibling.Apart keep (bundle fs).siblings

/-- The elements of a vector are numbered. -/
theorem nodup_siblings_vector (e : Ty) (n : Nat) : ((vector e n).siblings.map (·.name)).Nodup := by
  rw [siblings, List.map_map]
  refine List.Nodup.map (fun i j hij => ?_) List.nodup_range
  have hij : toString i = toString j := hij
  have hnumbered : NamePool.numbered "" i = NamePool.numbered "" j := by simp [NamePool.numbered, hij]
  exact NamePool.numbered_inj.1 hnumbered

/-- There are no underscores in numbers. -/
theorem apart_siblings_vector (e : Ty) (n : Nat) : Sibling.Apart keep (vector e n).siblings := by
  refine Sibling.apart_of_forall_ne fun a ha b hb rest hname => ?_
  obtain ⟨i, -, rfl⟩ := List.mem_map.1 hb
  have hmem : '_' ∈ (toString i).toList := by
    rw [show toString i = a.name ++ ("_" ++ rest) from hname]
    simp
  rw [show toString i = i.repr from rfl, Nat.toList_repr] at hmem
  exact absurd (Nat.isDigit_of_mem_toDigits (by decide) (by decide) hmem) (by decide)

theorem preservable_sub? (h : t.preservable) (hu : t.sub? path = some u) : u.preservable := by
  induction path generalizing t with
  | nil => exact Option.some.inj hu ▸ h
  | cons i path ih =>
    obtain ⟨c, hc, hu⟩ := Option.bind_eq_some_iff.1 hu
    exact ih (preservable_child h hc) hu

/-- Where parts of a type are apart that is split. -/
theorem apart_iff (h : (t.isGround || keep && t.preservable) = false) :
    t.Apart keep ↔ Sibling.Apart keep t.siblings ∧ ∀ c ∈ t.children, c.Apart keep := by
  rw [Apart, everyBundle_iff]
  refine and_congr_left fun _ => ?_
  cases t with
  | ground g => cases h
  | bundle fs =>
    have hk : ¬(keep = true ∧ (bundle fs).preservable) := by simpa [isGround] using h
    exact ⟨fun hself => hself fs rfl hk, fun hself fs' hfs _ => by rwa [← hfs]⟩
  | vector e n => exact ⟨fun _ => apart_siblings_vector e n, fun _ _ he => by cases he⟩

/-- A type that is kept is not split anywhere. -/
theorem apart_of_kept (h : (t.isGround || keep && t.preservable) = true) : t.Apart keep := by
  intro path fs hu hk
  rw [Bool.or_eq_true, Bool.and_eq_true] at h
  rcases h with hg | ⟨hkeep, hp⟩
  · cases t with
    | ground g => cases path <;> cases hu
    | bundle _ | vector _ _ => cases hg
  · exact absurd ⟨hkeep, preservable_sub? hp hu⟩ hk

/-- All pieces of a type are called differently just if no elements of its bundles clash. -/
theorem nodup_suffix_iff (h : t.NamesDistinct) : ((t.stops keep).map (·.suffix)).Nodup ↔ t.Apart keep := by
  induction t using children_induction with | h t ih =>
  obtain ⟨hself, hchildren⟩ := everyBundle_iff.1 h
  cases hkept : t.isGround || keep && t.preservable with
  | true =>
    rw [stops_of_kept hkept]
    exact iff_of_true (List.nodup_singleton _) (apart_of_kept hkept)
  | false =>
    have hnames : (t.siblings.map (·.name)).Nodup := by
      cases t with
      | ground g => cases hkept
      | bundle fs => simpa [siblings, Function.comp_def] using hself fs rfl
      | vector e n => exact nodup_siblings_vector e n
    have hall : (∀ a ∈ t.siblings, ((a.ty.stops keep).map (·.suffix)).Nodup) ↔ ∀ c ∈ t.children, c.Apart keep := by
      rw [← map_ty_siblings, List.forall_mem_map]
      refine forall₂_congr fun a ha => ?_
      have hc : a.ty ∈ t.children := map_ty_siblings t ▸ List.mem_map_of_mem ha
      exact ih a.ty hc (hchildren a.ty hc)
    rw [map_suffix_stops hkept, List.nodup_map_iff fun _ _ => (String.append_right_inj "_").1,
      Sibling.nodup_names_iff hnames, hall, apart_iff hkept, and_comm]

end Ty

/-! ## Ports -/

/-- A port among those of its module. -/
def PortShape.sibling (e : PortShape) : Sibling := ⟨e.name, e.ty⟩

/-- The pieces of a port are those of its parts. -/
theorem PortShape.names_of_peel {keep : Bool} {e : PortShape} {parts : List Part}
    (h : e.ty.peel keep = .ok (some parts)) :
    e.sibling.names keep = (parts.map e.part).flatMap fun e => e.sibling.names keep := by
  rw [Sibling.names, sibling, Ty.stops_of_peel h, List.map_flatMap, List.flatMap_map]
  refine List.flatMap_congr fun p _ => ?_
  simp [Sibling.names, sibling, part, Part.below, Stop.below, Function.comp_def, String.append_assoc]

namespace Module

variable {cx : Context} {m m' : Module} {generated : Nat} {y : Symbols}

/-- Neither two ports clash, nor two elements of a bundle that is split. -/
def PortsApart (keep : Bool) (m : Module) : Prop :=
  Sibling.Apart keep (m.shape.map PortShape.sibling) ∧ ∀ p ∈ m.ports, p.ty.Apart keep

/-- The ports of a lowered module are called like the pieces of its former ports. -/
theorem portNames_of_lower (h : m.lower cx generated = .ok (m', y)) : m'.ports.map (·.name) =
    (m.shape.map PortShape.sibling).flatMap (Sibling.names (cx.options.portsMayPreserve m.entry)) := by
  have hedits : PortEdits (cx.options.portsMayPreserve m.entry) fun ps _ =>
      (ps.map Port.shape).flatMap (fun e => e.sibling.names (cx.options.portsMayPreserve m.entry)) =
        m.shape.flatMap fun e => e.sibling.names (cx.options.portsMayPreserve m.entry) := by
    refine ⟨fun {A B p s parts new y body} hJ hpeel hnew _ => ?_⟩
    rw [← hJ]
    simp only [List.map_append, List.map_cons, List.flatMap_append, List.flatMap_cons, hnew.map_shape,
      PortShape.names_of_peel (e := p.shape) hpeel, List.append_assoc]
  have hlower : Ends False (m.lower cx generated) fun r => m.LowersTo cx _ r.1 r.2 :=
    lower_of_block (T := fun _ _ => True) (fun _ => .intro (fun _ _ => trivial) nofun) hedits (fun _ => rfl)
      fun _ _ => rfl
  obtain ⟨⟨body, hJ, -⟩, hwhole⟩ := hlower.of_ok h
  rw [List.flatMap_map, ← hJ, List.flatMap_map, List.map_eq_flatMap]
  refine List.flatMap_congr fun p hp => ?_
  rw [Sibling.names, PortShape.sibling, Port.shape, Ty.stops_of_whole (hwhole p hp)]
  simp [Stop.whole]

/-- Every port is found by its name just if all names are different. -/
theorem nodup_iff_portNamed? (m : Module) : (m.ports.map (·.name)).Nodup ↔
    ∀ i p, m.ports[i]? = some p → m.portNamed? p.name = some i := by
  constructor
  · intro h i p hp
    obtain ⟨hi, rfl⟩ := List.getElem?_eq_some_iff.1 hp
    refine List.findIdx?_eq_some_iff_getElem.2 ⟨hi, beq_self_eq_true _, fun j hji heq => ?_⟩
    have hne := List.pairwise_iff_getElem.1 h j i (by simp; omega) (by simpa using hi) hji
    exact hne (by simpa using heq)
  · intro h
    refine List.pairwise_iff_getElem.2 fun i j hi hj hij heq => ?_
    rw [List.length_map] at hi hj
    have hfound : m.portNamed? m.ports[j].name = some i := by
      rw [← h i m.ports[i] (List.getElem?_eq_getElem hi)]
      exact congrArg m.portNamed? (by simpa using heq.symm)
    rw [h j m.ports[j] (List.getElem?_eq_getElem hj), Option.some.injEq] at hfound
    omega

/-- The ports of a lowered module have different names, and each is found by its own, just if neither ports nor elements
of bundles clash. -/
theorem nodup_portNames_iff (hports : (m.ports.map (·.name)).Nodup) (htypes : ∀ p ∈ m.ports, p.ty.NamesDistinct)
    (h : m.lower cx generated = .ok (m', y)) :
    ((m'.ports.map (·.name)).Nodup ↔ m.PortsApart (cx.options.portsMayPreserve m.entry)) ∧
      ((∀ i p, m'.ports[i]? = some p → m'.portNamed? p.name = some i) ↔
        m.PortsApart (cx.options.portsMayPreserve m.entry)) := by
  have hnames : ((m.shape.map PortShape.sibling).map (·.name)).Nodup := by
    simpa [shape, Port.shape, PortShape.sibling, Function.comp_def] using hports
  have hiff : (m'.ports.map (·.name)).Nodup ↔ m.PortsApart (cx.options.portsMayPreserve m.entry) := by
    rw [portNames_of_lower h, Sibling.nodup_names_iff hnames, PortsApart, and_comm]
    refine and_congr_right fun _ => ?_
    rw [List.forall_mem_map, shape, List.forall_mem_map]
    exact forall₂_congr fun p hp => Ty.nodup_suffix_iff (htypes p hp)
  exact ⟨hiff, (nodup_iff_portNamed? m').symm.trans hiff⟩

/-- A port with a bundle and a vector in it, and one of another name. -/
def siblingModule (name : String) : Module where
  name := "M"
  isPublic := true
  ports := [⟨"a", .bundle [⟨"b", false, .uint 1⟩, ⟨"c", false, .vector (.uint 2) 2⟩], .input, none, []⟩,
    ⟨name, .uint 1, .input, none, []⟩]
  annotations := []
  body := none

theorem namesDistinct_siblingModule (name : String) : ∀ p ∈ (siblingModule name).ports, p.ty.NamesDistinct := by
  refine List.forall_mem_cons.2 ⟨.bundle (by decide) ?_, List.forall_mem_singleton.2 (.ground _)⟩
  exact List.forall_mem_cons.2 ⟨.ground _, List.forall_mem_singleton.2 (.vector (.ground _) 2)⟩

/-- A second port called like the element of a first one. -/
theorem siblingModule_clash : ((siblingModule "a_b").ports.map (·.name)).Nodup ∧
    (∀ p ∈ (siblingModule "a_b").ports, p.ty.NamesDistinct) ∧
    ∃ r, (siblingModule "a_b").lower ⟨{}, []⟩ 0 = .ok r ∧ ¬(r.1.ports.map (·.name)).Nodup := by
  refine ⟨by decide, namesDistinct_siblingModule _, ?_⟩
  have hok : ((siblingModule "a_b").lower ⟨{}, []⟩ 0).isOk := by decide +kernel
  cases hr : (siblingModule "a_b").lower ⟨{}, []⟩ 0 with
  | error => rw [hr] at hok; cases hok
  | ok r =>
    refine ⟨r, rfl, ?_⟩
    rw [portNames_of_lower hr]
    decide +kernel

/-- A second port whose name continues that of the first one, but leads to none of its elements. -/
theorem nodup_portNames_siblingModule : ∃ r, (siblingModule "a_d").lower ⟨{}, []⟩ 0 = .ok r ∧
    (siblingModule "a_d").PortsApart false ∧ ∀ i p, r.1.ports[i]? = some p → r.1.portNamed? p.name = some i := by
  have hok : ((siblingModule "a_d").lower ⟨{}, []⟩ 0).isOk := by decide +kernel
  cases hr : (siblingModule "a_d").lower ⟨{}, []⟩ 0 with
  | error => rw [hr] at hok; cases hok
  | ok r =>
    obtain ⟨hnodup, hfound⟩ := nodup_portNames_iff (by decide) (namesDistinct_siblingModule _) hr
    have hapart : (siblingModule "a_d").PortsApart false := by
      refine hnodup.1 ?_
      rw [portNames_of_lower hr]
      decide +kernel
    exact ⟨r, rfl, hapart, hfound.2 hapart⟩

end Module

end Scalarize
