import Scalarize.Proofs.References

/-!
# Ends of paths

* `Circuit.Carries` : a symbol of a module is carried; `Circuit.Unfollowed` : a symbol gave way, and a path that
  mentions it does not follow;
* `Circuit.carries_of_lower` : all symbols on paths are carried, unless they are not followed;
* `Symbols.parts`, `Module.Inherits.parts_perm` : what stands of a symbol holds all pieces of its type;
* `Circuit.path_of_part` : each ground part of a symbol has a path of its own.
-/

namespace Scalarize

open Body

/-! ## What stands of a symbol -/

theorem nodup_filter_of_filterMap {α β : Type} {f : α → Option β} {p : α → Bool} {l : List α}
    (h : (l.filterMap f).Nodup) (hp : ∀ a, p a → (f a).isSome) : (l.filter p).Nodup := by
  refine (((List.pairwise_filterMap.1 h).filter p).imp_of_mem fun {a a'} ha _ hne => ?_)
  obtain ⟨b, hb⟩ := Option.isSome_iff_exists.1 (hp a (List.mem_filter.1 ha).2)
  rintro rfl
  exact hne b hb b hb rfl

/-- The carriers whose symbols descend from a symbol. -/
def Symbols.parts (options : Options) (y : Symbols) (m : Module) (s : String) : List Carrier :=
  (m.carriers options).filter fun e => e.sym.map y.root = some s

section

variable {options : Options} {m m' : Module} {y : Symbols} {e : Carrier} {s : String}

theorem Symbols.mem_parts : e ∈ y.parts options m s ↔ e ∈ m.carriers options ∧ e.sym.map y.root = some s := by
  unfold parts
  rw [List.mem_filter, decide_eq_true_eq]

/-- Other annotations do not matter for what stands of a symbol. -/
theorem Module.Reannotated.parts (h : m.Reannotated m') (options : Options) (y : Symbols) (s : String) :
    List.Forall₂ Carrier.Reannotated (y.parts options m s) (y.parts options m' s) := by
  refine List.rel_filter ?_ (h.carriers options)
  rintro e _ ⟨as, rfl⟩
  exact .rfl

/-- What stands of a symbol holds the pieces of the type that its carrier held. -/
theorem Module.Inherits.parts_perm (h : m.Inherits options m' y) (hnd : m'.syms.Nodup)
    (he : e ∈ m.carriers options) (hs : e.sym = some s) {t : Ty} (ht : e.ty = some t) :
    ((y.parts options m' s).map (·.ty)).Perm (e.pieces.map some) := by
  obtain ⟨l, hl, hmem, hkeep, hperm⟩ := h.descent.divided he hs ht
  rw [Module.syms_eq h.coherent options] at hnd
  have hparts : (y.parts options m' s).Perm l := by
    refine (List.perm_ext_iff_of_nodup (nodup_filter_of_filterMap hnd fun f hf => ?_) hl).2 fun f => ?_
    · rw [decide_eq_true_eq] at hf
      exact Option.isSome_map.symm.trans (congrArg Option.isSome hf)
    · exact Symbols.mem_parts.trans (hmem f).symm
  -- what stands is not split any further
  have hpieces : ∀ k ⊆ l, (k.flatMap Carrier.pieces).map some = k.map (·.ty) := by
    intro k hk
    induction k with
    | nil => rfl
    | cons f k ih =>
      obtain ⟨hf, hk⟩ := List.cons_subset.1 hk
      obtain ⟨u, hu⟩ := Option.isSome_iff_exists.1 (hkeep f hf).1
      rw [List.flatMap_cons, List.map_append, ih hk, List.map_cons, Carrier.pieces, hu, Option.elim_some,
        Ty.pieces_of_whole (h.whole f ((hmem f).1 hf).1 u hu)]
      rfl
  rw [List.append_nil] at hperm
  refine (hparts.map _).trans ?_
  rw [← hpieces l (List.Subset.refl l), Carrier.pieces, ht, Option.elim_some]
  exact (hperm.map some).symm

end

/-! ## Symbols on paths -/

theorem Module.Reannotated.syms {m m' : Module} (h : m.Reannotated m') : m'.syms = m.syms := by
  unfold Module.syms
  congr 1
  · have hports := h.ports
    generalize m.ports = ps, m'.ports = ps' at hports
    induction hports with
    | nil => rfl
    | cons hp _ ih =>
      obtain ⟨as, rfl⟩ := hp
      rw [List.filterMap_cons, List.filterMap_cons, ih]
  · have hbody := h.body
    generalize m.body = o, m'.body = o' at hbody
    cases hbody with
    | none => rfl
    | @some b b' hb =>
      dsimp only
      rw [hb.walk]
      refine List.filterMap_congr fun x _ => ?_
      obtain ⟨f, hf⟩ := hb.op? x
      show ((b'.op? x).map Operation.kind).bind _ = ((b.op? x).map Operation.kind).bind _
      rw [hf]
      cases b.op? x with
      | none => rfl
      | some op =>
        simp only [Option.map_some, Option.bind_some, OpKind.decl?_mapDecl]
        cases op.kind.decl? <;> rfl

/-- The inner symbol of a step. -/
def Segment.ref? : Segment → Option InnerRef
  | inner ref => some ref
  | whole _ => none

/-- The inner symbols that a path mentions. -/
def HierPath.refs (p : HierPath) : List InnerRef := p.segments.filterMap Segment.ref?

theorem HierPath.mem_refs {p : HierPath} {ref : InnerRef} : ref ∈ p.refs ↔ .inner ref ∈ p.segments := by
  unfold refs
  rw [List.mem_filterMap]
  constructor
  · rintro ⟨g, hg, href⟩
    cases g with
    | inner => exact Option.some.inj href ▸ hg
    | whole => cases href
  · exact fun h => ⟨_, h, rfl⟩

/-- A path that mentions a symbol does so before its end, or it ends there. -/
theorem HierPath.mem_dropLast_or {p : HierPath} {ref : InnerRef} (h : .inner ref ∈ p.segments) :
    .inner ref ∈ p.segments.dropLast ∨ p.target? = some ref := by
  have hne : p.segments ≠ [] := List.ne_nil_of_mem h
  rw [← List.dropLast_append_getLast hne] at h
  refine (List.mem_append.1 h).imp_right fun hlast => ?_
  rw [target?, List.getLast?_eq_some_getLast hne, ← List.mem_singleton.1 hlast]

namespace Circuit

variable {options : Options} {c c' : Circuit} {ms : List Module} {ys : List Symbols} {p : HierPath} {ref : InnerRef}

/-- A port or declaration of the module carries the symbol. -/
def Carries (c : Circuit) (ref : InnerRef) : Prop := ∃ m ∈ c.modules, m.name = ref.moduleName ∧ ref.sym ∈ m.syms

instance (c : Circuit) (ref : InnerRef) : Decidable (c.Carries ref) := by
  unfold Carries
  infer_instance

/-- All symbols on paths are carried. -/
def Intact (c : Circuit) : Prop := ∀ p ∈ c.paths, ∀ ref ∈ p.refs, c.Carries ref

instance (c : Circuit) : Decidable c.Intact := by
  unfold Intact
  infer_instance

/-- A port or declaration with the symbol gives way to its parts. The path mentions the symbol before its end, or
there is no ground part. -/
def Unfollowed (options : Options) (c : Circuit) (p : HierPath) (ref : InnerRef) : Prop :=
  ∃ m ∈ c.modules, m.name = ref.moduleName ∧ ∃ e ∈ m.carriers options, e.sym = some ref.sym ∧ e.Splits ∧
    (.inner ref ∈ p.segments.dropLast ∨ ∀ t ∈ e.pieces, t.isGround = false)

/-- Symbols that are carried once a module is lowered are carried in the end. -/
theorem Lowers.carries (h : c.Lowers options c' ms ys) {i : Nat} {m m' : Module} {y : Symbols}
    (hm : c.modules[i]? = some m) (hm' : ms[i]? = some m') (hy : ys[i]? = some y) {e : Carrier} {s : String}
    (he : e ∈ m'.carriers options) (hs : e.sym = some s) : c'.Carries ⟨m.name, s⟩ := by
  obtain ⟨-, hinherits⟩ := h.each.each hm hm' hy
  obtain ⟨hi, -⟩ := List.getElem?_eq_some_iff.1 hm'
  obtain ⟨m₂, hm₂⟩ : ∃ m₂, c'.modules[i]? = some m₂ :=
    ⟨_, List.getElem?_eq_getElem (h.reannotated.modules.length_eq ▸ hi)⟩
  have hre := h.reannotated.getElem? hm' hm₂
  refine ⟨m₂, List.mem_of_getElem? hm₂, hre.name.trans hinherits.name, ?_⟩
  rw [hre.syms, Module.syms_eq hinherits.coherent options]
  exact List.mem_filterMap.2 ⟨e, he, hs⟩

/-- A symbol that was carried still is, or its carrier gave way. -/
theorem Lowers.carries_or (h : c.Lowers options c' ms ys) (hb : c.Built) (href : c.Carries ref) :
    c'.Carries ref ∨ ∃ (i : Nat) (m m' : Module) (y : Symbols), c.modules[i]? = some m ∧ ms[i]? = some m' ∧
      ys[i]? = some y ∧ m.name = ref.moduleName ∧ ∃ e ∈ m.carriers options, e.sym = some ref.sym ∧ e.Splits := by
  obtain ⟨m, hmem, hname, hsym⟩ := href
  rw [Module.syms_eq (fun b hmb => (hb.reachable m hmem hmb).coherent) options] at hsym
  obtain ⟨e, he, hs⟩ := List.mem_filterMap.1 hsym
  obtain ⟨i, hm⟩ := List.mem_iff_getElem?.1 hmem
  obtain ⟨m₁, m', y, hm₁, hm', hy⟩ := h.each.get (List.getElem?_eq_some_iff.1 hm).1
  obtain rfl := Option.some.inj (hm.symm.trans hm₁)
  by_cases hsplits : e.Splits
  · exact .inr ⟨i, m, m', y, hm, hm', hy, hname, e, he, hs, hsplits⟩
  · obtain ⟨f, hf, hfs⟩ := (h.each.each hm hm' hy).2.descent.kept he hs hsplits
    have hcarries := h.carries hm hm' hy hf hfs
    rw [hname] at hcarries
    exact .inl hcarries

/-- The symbols of a lowered module are apart. -/
theorem Lowers.nodup_syms (h : c.Lowers options c' ms ys) (hb : c.Built) (hc : c.Distinct) {i : Nat}
    {m m' : Module} {y : Symbols} (hm : c.modules[i]? = some m) (hm' : ms[i]? = some m') (hy : ys[i]? = some y) :
    m'.syms.Nodup := by
  obtain ⟨⟨generated, hok⟩, -⟩ := h.each.each hm hm' hy
  have hmem := List.mem_of_getElem? hm
  have hreach : m.Reachable := hb.reachable m hmem
  exact (Module.Apart.nodup_syms hreach ((Module.lower_apart hreach (hc.syms m hmem)).of_ok hok)).1

/-- Where a symbol was split and has a ground part, it is recorded. -/
theorem Lowers.renamed (h : c.Lowers options c' ms ys) {i : Nat} {m m' : Module} {y : Symbols}
    (hm : c.modules[i]? = some m) (hm' : ms[i]? = some m') (hy : ys[i]? = some y) {e f : Carrier} {s : String}
    (he : e ∈ m.carriers options) (hs : e.sym = some s) (hsplits : e.Splits) (hf : f ∈ y.parts options m' s)
    (hground : f.ground) : ∃ u ts, f.sym = some u ∧ Renamed (Symbols.allRenames ys) ⟨m.name, s⟩ i ts ∧
      ⟨u, f.place⟩ ∈ ts := by
  obtain ⟨-, hinherits⟩ := h.each.each hm hm' hy
  obtain ⟨hfm, hroot⟩ := Symbols.mem_parts.1 hf
  obtain ⟨u, hu, rfl⟩ := Option.map_eq_some_iff.1 hroot
  obtain ⟨ts, hts, ht⟩ := hinherits.descent.complete hfm hu hground ⟨e, he, hs, hsplits⟩
  exact ⟨u, ts, hu, renamed_allRenames.2 ⟨y, hy, hinherits.descent.moduleName,
    (Assoc.get?_eq_some_iff hinherits.descent.keys).1 hts⟩, ht⟩

/-- If all symbols on paths were carried, they still are, unless they are not followed. -/
theorem carries_of_lower (hb : c.Built) (hc : c.Distinct) (h : c.Intact) {generated : Nat}
    {r : Circuit × Stats × Nat} (hr : c.lower options generated = .ok r) :
    ∀ p ∈ r.1.paths, ∀ ref ∈ p.refs, r.1.Carries ref ∨ c.Unfollowed options p ref := by
  obtain ⟨ms, ys, hl⟩ := exists_lowers hb hc hr
  obtain ⟨-, derived, hperm, hderived⟩ := exists_derived (hl.each.prepared hc) hc.paths hl.parts
  intro p hp ref href
  rw [HierPath.mem_refs] at href
  obtain ⟨p₀, hp₀, hmem⟩ := List.mem_flatMap.1 (hperm.mem_iff.1 hp)
  rcases hderived p₀ hp₀ with heq | ⟨ref₀, i, ts, -, hren, named, rfl, -, heq⟩
  · -- the path stayed
    obtain rfl := List.mem_singleton.1 (heq ▸ hmem)
    refine (hl.carries_or hb (h p hp₀ ref (HierPath.mem_refs.2 href))).imp_right ?_
    rintro ⟨i, m, m', y, hm, hm', hy, hname, e, he, hs, hsplits⟩
    refine ⟨m, List.mem_of_getElem? hm, hname, e, he, hs, hsplits, ?_⟩
    by_cases hlast : p.target? = some ref
    · refine .inr fun t ht => Bool.eq_false_iff.2 fun hground => ?_
      obtain ⟨u, hu, -⟩ := id hsplits
      have hnd := hl.nodup_syms hb hc hm hm' hy
      have hmem : some t ∈ (y.parts options m' ref.sym).map (·.ty) :=
        ((hl.each.each hm hm' hy).2.parts_perm hnd he hs hu).mem_iff.2 (List.mem_map_of_mem ht)
      obtain ⟨f, hf, hft⟩ := List.mem_map.1 hmem
      obtain ⟨-, ts, -, hren, -⟩ := hl.renamed hm hm' hy he hs hsplits hf (by rw [Carrier.ground, hft]; exact hground)
      rw [hname] at hren
      exact hl.clear p hp ref i ts hlast hren
    · exact .inl ((HierPath.mem_dropLast_or href).resolve_right hlast)
  · -- the path leads to a target
    rw [heq] at hmem
    obtain ⟨⟨t, n⟩, ht, rfl⟩ := List.mem_map.1 hmem
    rcases List.mem_append.1 href with href | href
    · refine (hl.carries_or hb (h p₀ hp₀ ref (HierPath.mem_refs.2 (List.dropLast_subset _ href)))).imp_right ?_
      rintro ⟨i, m, m', y, hm, hm', hy, hname, e, he, hs, hsplits⟩
      exact ⟨m, List.mem_of_getElem? hm, hname, e, he, hs, hsplits, .inl (by simpa [HierPath.retarget] using href)⟩
    · obtain rfl := Segment.inner.inj (List.mem_singleton.1 href)
      obtain ⟨m, m', y, hm, hm', hy, hname, hts⟩ := hl.each.of_renamed hren
      obtain ⟨-, -, -, haims⟩ := (hl.each.each hm hm' hy).2.descent.targets hts
      obtain ⟨-, f, hf, hfs, -⟩ := haims t (List.mem_map.2 ⟨_, ht, rfl⟩)
      have hcarries := hl.carries hm hm' hy hf hfs
      rw [hname] at hcarries
      exact .inl hcarries

theorem carries_of_lower_port : ∃ r, portCircuit.lower {} 0 = .ok r ∧
    ∀ p ∈ r.1.paths, ∀ ref ∈ p.refs, r.1.Carries ref ∨ portCircuit.Unfollowed {} p ref := by
  have hok : (portCircuit.lower {} 0).isOk := by decide +kernel
  cases hr : portCircuit.lower {} 0 with
  | error => rw [hr] at hok; cases hok
  | ok r => exact ⟨r, rfl, carries_of_lower portCircuit_built portCircuit_distinct (by decide) hr⟩

/-- Ports without fields, with fields that are all kept, and with a path that mentions it before its end. -/
def looseCircuit : Circuit where
  name := "M"
  modules := [⟨"M", true, [⟨"a", .bundle [], .input, some "r", []⟩,
    ⟨"b", .bundle [⟨"x", false, .bundle [⟨"z", false, .uint 1⟩]⟩, ⟨"y", true, .bundle [⟨"z", false, .uint 1⟩]⟩],
      .input, some "s", []⟩,
    ⟨"c", .bundle [⟨"x", false, .uint 1⟩, ⟨"y", true, .uint 1⟩], .input, some "t", []⟩], [], none⟩]
  paths := [⟨"p", [.inner ⟨"M", "r"⟩]⟩, ⟨"q", [.inner ⟨"M", "s"⟩]⟩, ⟨"u", [.inner ⟨"M", "t"⟩, .inner ⟨"M", "t"⟩]⟩]

/-- Each of the paths mentions a symbol in the end that is not carried, and so does the path to a node whose
result is not of the type of its operand. -/
theorem looseCircuit_not_intact :
    (looseCircuit.Built ∧ looseCircuit.Distinct ∧ looseCircuit.Intact ∧
      ∃ r, looseCircuit.lower ⟨true, false⟩ 0 = .ok r ∧
        ∀ name ∈ ["p", "q", "u"], ∃ p ∈ r.1.paths, p.name = name ∧ ∃ ref ∈ p.refs, ¬r.1.Carries ref) ∧
    mistypedCircuit.Distinct ∧ mistypedCircuit.Intact ∧
      ∃ r, mistypedCircuit.lower {} 0 = .ok r ∧ ¬r.1.Intact := by
  refine ⟨⟨fun m hm b hb => ?_, ⟨by decide, by decide, by decide⟩, by decide, exists_ok_of_any (by decide +kernel)⟩,
    ⟨by decide, by decide, by decide⟩, by decide, exists_ok_of_any (by decide +kernel)⟩
  obtain rfl := List.mem_singleton.1 hm
  cases hb

/-! ## Paths of the parts -/

/-- The lowered module `m'` has split the symbol `s` that was carried by `e`, and each path `p` to it gave way to the
paths `derived p`. What stands of the symbol holds the pieces of its type, and each ground part has one path. -/
structure Followed (options : Options) (c : Circuit) (derived : HierPath → List HierPath) (m m' : Module)
    (y : Symbols) (e : Carrier) (s : String) : Prop where
  parts : ((y.parts options m' s).map (·.ty)).Perm (e.pieces.map some)
  paths : ∀ p ∈ c.paths, p.target? = some ⟨m.name, s⟩ → ∀ f ∈ y.parts options m' s, f.ground →
    ∃ u, f.sym = some u ∧ ∃! q, q ∈ derived p ∧ q.target? = some ⟨m.name, u⟩

/-- The paths of `c'` derive from those of `c`. Each that was derived from a path differs from it at its end at most,
and the first has its name. -/
structure Traces (options : Options) (c c' : Circuit) (derived : HierPath → List HierPath) : Prop where
  paths : c'.paths.Perm (c.paths.flatMap derived)
  names : (c'.paths.map (·.name)).Nodup
  segments : ∀ p ∈ c.paths, ∀ q ∈ derived p, q.segments.dropLast = p.segments.dropLast
  head : ∀ p ∈ c.paths, ∃ q, (derived p).head? = some q ∧ q.name = p.name
  followed : ∀ {i : Nat} {m m' : Module}, c.modules[i]? = some m → c'.modules[i]? = some m' → ∃ generated m₁ y,
    m.lower ⟨options, c.moduleTable⟩ generated = .ok (m₁, y) ∧ m₁.Reannotated m' ∧
      ∀ e ∈ m.carriers options, ∀ s, e.sym = some s → e.Splits → c.Followed options derived m m' y e s

/-- Each ground part of a split symbol gets one path for each path to the symbol. -/
theorem path_of_part (hb : c.Built) (hc : c.Distinct) {generated : Nat} {r : Circuit × Stats × Nat}
    (hr : c.lower options generated = .ok r) : ∃ derived, c.Traces options r.1 derived := by
  obtain ⟨ms, ys, hl⟩ := exists_lowers hb hc hr
  obtain ⟨-, derived, hperm, hderived⟩ := exists_derived (hl.each.prepared hc) hc.paths hl.parts
  refine ⟨derived, hperm, hl.nodup, fun p hp q hq => ?_, fun p hp => ?_, fun {i m m₂} hm hm₂ => ?_⟩
  · rcases hderived p hp with heq | ⟨ref, i, ts, -, -, named, -, -, heq⟩
    · rw [heq] at hq
      rw [List.mem_singleton.1 hq]
    · rw [heq] at hq
      obtain ⟨e, -, rfl⟩ := List.mem_map.1 hq
      exact List.dropLast_concat
  · rcases hderived p hp with heq | ⟨ref, i, ts, -, hren, named, rfl, hhead, heq⟩
    · exact ⟨p, by rw [heq]; rfl, rfl⟩
    · obtain ⟨m, m', y, hm, hm', hy, -, hts⟩ := hl.each.of_renamed hren
      obtain ⟨-, hne, -⟩ := (hl.each.each hm hm' hy).2.descent.targets hts
      cases named with
      | nil => exact absurd rfl hne
      | cons e named => exact ⟨_, by rw [heq]; rfl, hhead e rfl⟩
  · obtain ⟨m₁, m', y, hm₁, hm', hy⟩ := hl.each.get (List.getElem?_eq_some_iff.1 hm).1
    obtain rfl := Option.some.inj (hm.symm.trans hm₁)
    obtain ⟨⟨generated, hok⟩, hinherits⟩ := hl.each.each hm hm' hy
    have hre := hl.reannotated.getElem? hm' hm₂
    refine ⟨generated, m', y, hok, hre, fun e he s hs hsplits => ⟨?_, fun p hp htarget f hf hground => ?_⟩⟩
    · obtain ⟨t, ht, -⟩ := id hsplits
      refine .trans (.of_eq ?_) (hinherits.parts_perm (hl.nodup_syms hb hc hm hm' hy) he hs ht)
      have hrel := hre.parts options y s
      generalize y.parts options m' s = A, y.parts options m₂ s = B at hrel
      induction hrel with
      | nil => rfl
      | cons hfg _ ih =>
        obtain ⟨as, rfl⟩ := hfg
        rw [List.map_cons, List.map_cons, ih]
    · obtain ⟨f', hf', as, rfl⟩ := exists_of_forall₂ (hre.parts options y s) hf
      obtain ⟨u, ts, hu, hren, ht⟩ := hl.renamed hm hm' hy he hs hsplits hf' hground
      refine ⟨u, hu, ?_⟩
      rcases hderived p hp with heq | ⟨ref, j, ts', href, hren', named, rfl, -, heq⟩
      · -- a path that stayed does not end at a symbol that was split
        have hmem : p ∈ r.1.paths := hperm.mem_iff.2 (List.mem_flatMap.2 ⟨p, hp, heq ▸ List.mem_singleton_self p⟩)
        exact absurd hren (hl.clear p hmem _ i ts htarget)
      · obtain rfl := Option.some.inj (htarget.symm.trans href)
        obtain ⟨rfl, rfl⟩ := hl.each.renamed_unique hc hren' hren
        obtain ⟨n, hn, hnt⟩ := List.mem_map.1 ht
        have hnd := ((hl.each.prepared hc).hosts hren).1
        rw [List.map_map] at hnd
        refine ⟨p.retarget n.2 ⟨m.name, u⟩, ⟨?_, by simp⟩, ?_⟩
        · rw [heq]
          exact List.mem_map.2 ⟨n, hn, by rw [hnt]⟩
        · rintro q ⟨hq, hqt⟩
          rw [heq] at hq
          obtain ⟨n', hn', rfl⟩ := List.mem_map.1 hq
          rw [HierPath.target?_retarget, Option.some.injEq, InnerRef.mk.injEq] at hqt
          obtain rfl : n' = n := List.inj_on_of_nodup_map hnd hn' hn (by simp [hqt.2, hnt])
          rw [hqt.2]

theorem path_of_part_port : ∃ r, portCircuit.lower {} 0 = .ok r ∧ ∃ derived, portCircuit.Traces {} r.1 derived := by
  have hok : (portCircuit.lower {} 0).isOk := by decide +kernel
  cases hr : portCircuit.lower {} 0 with
  | error => rw [hr] at hok; cases hok
  | ok r => exact ⟨r, rfl, path_of_part portCircuit_built portCircuit_distinct hr⟩

/-- No path ends at a symbol that is carried in a module of this name. -/
def Pathless (c : Circuit) (ref : InnerRef) : Prop := c.Carries ref ∧ ∀ p ∈ c.paths, p.target? ≠ some ref

instance (c : Circuit) (ref : InnerRef) : Decidable (c.Pathless ref) := by
  unfold Pathless
  infer_instance

/-- A port with a symbol, of which one part is kept and one is ground. -/
def keptCircuit : Circuit where
  name := "M"
  modules := [⟨"M", true, [⟨"b", .bundle [⟨"x", false, .bundle [⟨"z", false, .uint 1⟩]⟩, ⟨"y", true, .uint 1⟩],
    .input, some "s", []⟩], [], none⟩]
  paths := [⟨"p", [.inner ⟨"M", "s"⟩]⟩]

/-- A part that is kept has no path, nor has a part that is ground by an operand of another type. -/
theorem keptCircuit_pathless :
    (keptCircuit.Built ∧ keptCircuit.Distinct ∧
      ∃ r, keptCircuit.lower ⟨true, false⟩ 0 = .ok r ∧ r.1.Pathless ⟨"M", "s_x"⟩) ∧
    mistypedCircuit.Distinct ∧ ∃ r, mistypedCircuit.lower {} 0 = .ok r ∧ r.1.Pathless ⟨"M", "s_a"⟩ := by
  refine ⟨⟨fun m hm b hb => ?_, ⟨by decide, by decide, by decide⟩, exists_ok_of_any (by decide +kernel)⟩,
    ⟨by decide, by decide, by decide⟩, exists_ok_of_any (by decide +kernel)⟩
  obtain rfl := List.mem_singleton.1 hm
  cases hb

end Circuit

end Scalarize
