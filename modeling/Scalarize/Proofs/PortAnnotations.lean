import Mathlib.Data.List.ReduceOption
import Scalarize.Proofs.Annotation.Nodes

/-!
# Annotations of memory ports

When the data type of a memory is narrowed to one of its parts, the port shrinks, and what stands behind the data moves to
other field IDs.

* `Annotation.Follows` : what becomes of an annotation of a port, by the node that it names;
* `Memory.portType_child_cases` : elements keep their positions, and those that hold data are narrowed;
* `Annotation.onPort_follows` : annotations follow their nodes;
* `Memory.Readdresses`, `Memory.readdresses` : so do lists of them, and what lies inside of the data goes to one memory.
-/

namespace Scalarize

open Ty

variable {source narrowed data c t : Ty} {depth last : Nat} {kind : PortKind} {a : Annotation} {r r' : Option Annotation}
  {part : Part} {ps : List Part} {e i j id : Nat} {rest : List Nat}

/-- What becomes of an annotation of a port of type `source` in the memory that holds part `i` of the data, whose port is
of type `narrowed`. The port and each element of it are the same nodes in both. A node inside of an element is one of
part `i`, and found in the element without this step, or it is gone. -/
inductive Annotation.Follows (source narrowed : Ty) (i : Nat) (a : Annotation) : Option Annotation → Prop
  | whole (h : a.fieldId = none ∨ a.fieldId = some 0) : Follows source narrowed i a (some a)
  | element {e id new : Nat} (h : a.fieldId = some id) (hid : source.pathId? [e] = some id)
      (hnew : narrowed.pathId? [e] = some new) : Follows source narrowed i a (some { a with fieldId := some new })
  | inside {e id new : Nat} {rest : List Nat} (h : a.fieldId = some id)
      (hid : source.pathId? (e :: i :: rest) = some id) (hnew : narrowed.pathId? (e :: rest) = some new) :
      Follows source narrowed i a (some { a with fieldId := some new })
  | elsewhere {e j id : Nat} {rest : List Nat} (h : a.fieldId = some id)
      (hid : source.pathId? (e :: j :: rest) = some id) (hj : j ≠ i) : Follows source narrowed i a none
  | nowhere {id : Nat} (h : a.fieldId = some id) (hid : ∀ path, source.pathId? path ≠ some id) :
      Follows source narrowed i a none

/-- An annotation of a node inside of an element is kept just where the part is that holds the node. -/
theorem Annotation.Follows.isSome_iff (h : a.Follows source narrowed i r) (hlast : source.lastId? = some last)
    (hlt : last + 1 < UInt64.size) (ha : a.fieldId = some id) (hid : source.pathId? (e :: j :: rest) = some id) :
    r.isSome ↔ i = j := by
  have hsame : ∀ {id' path}, a.fieldId = some id' → source.pathId? path = some id' → path = e :: j :: rest :=
    fun ha' hp => (numbered hlast hlt).injective hp (Option.some.inj (ha.symm.trans ha') ▸ hid)
  cases h with
  | whole h =>
    have h0 : a.fieldId = some 0 := h.resolve_left (by simp [ha])
    have hp : source.pathId? [] = some 0 := rfl
    cases hsame h0 hp
  | element h hp _ => cases hsame h hp
  | inside h hp _ =>
    cases hsame h hp
    simp
  | elsewhere h hp hj =>
    cases hsame h hp
    simp [hj.symm]
  | nowhere h hp => exact absurd (Option.some.inj (ha.symm.trans h) ▸ hid) (hp _)

theorem Ty.lastId?_of_span? (h : t.span?.isSome) : ∃ last, t.lastId? = some last ∧ last + 1 < UInt64.size := by
  obtain ⟨s, hs⟩ := Option.isSome_iff_exists.1 h
  obtain ⟨last, hlast, hs⟩ := Option.bind_eq_some_iff.1 hs
  exact ⟨last, hlast, (word?_eq_some_iff.1 hs).2⟩

namespace Memory

/-- Ports have the same elements at the same positions, whatever the data is. -/
theorem names_portFields (depth : Nat) (data c : Ty) (kind : PortKind) :
    (portFields depth c kind).map (fun f => (f.name, f.flip)) =
      (portFields depth data kind).map fun f => (f.name, f.flip) := by
  cases kind <;> rfl

/-- An element of a port holds data, or the mask of it, or it is ground and the same whatever the data is. -/
theorem portType_child_cases (c : Ty) (h : (portType depth data kind).child? j = some t) :
    ∃ u, (portType depth c kind).child? j = some u ∧
      (t.isGround = true ∨ t = data ∧ u = c ∨ t = data.mask ∧ u = c.mask) := by
  have hj : j < (portFields depth data kind).length := by
    obtain ⟨f, hf, -⟩ := Option.map_eq_some_iff.1 h
    exact (List.getElem?_eq_some_iff.1 hf).1
  cases kind with
  | read =>
    obtain _ | _ | _ | _ | j := j
    iterate 3 cases h; exact ⟨_, rfl, .inl rfl⟩
    · cases h; exact ⟨_, rfl, .inr (.inl ⟨rfl, rfl⟩)⟩
    · simp only [portFields, List.cons_append, List.nil_append, List.length_cons, List.length_nil] at hj; omega
  | write =>
    obtain _ | _ | _ | _ | _ | j := j
    iterate 3 cases h; exact ⟨_, rfl, .inl rfl⟩
    · cases h; exact ⟨_, rfl, .inr (.inl ⟨rfl, rfl⟩)⟩
    · cases h; exact ⟨_, rfl, .inr (.inr ⟨rfl, rfl⟩)⟩
    · simp only [portFields, List.cons_append, List.nil_append, List.length_cons, List.length_nil] at hj; omega
  | readWrite =>
    obtain _ | _ | _ | _ | _ | _ | _ | j := j
    iterate 3 cases h; exact ⟨_, rfl, .inl rfl⟩
    · cases h; exact ⟨_, rfl, .inr (.inl ⟨rfl, rfl⟩)⟩
    · cases h; exact ⟨_, rfl, .inl rfl⟩
    · cases h; exact ⟨_, rfl, .inr (.inl ⟨rfl, rfl⟩)⟩
    · cases h; exact ⟨_, rfl, .inr (.inr ⟨rfl, rfl⟩)⟩
    · simp only [portFields, List.cons_append, List.nil_append, List.length_cons, List.length_nil] at hj; omega

/-- Where an element of a port has parts, its nodes are numbered as those of the data. -/
theorem portType_child_ids (h : (portType depth data kind).child? j = some t) (c : Ty) :
    ∃ u, (portType depth c kind).child? j = some u ∧ (t.isGround = false → t.lastId? = data.lastId? ∧
      u.lastId? = c.lastId? ∧ (∀ q, t.pathId? q = data.pathId? q) ∧ ∀ q, u.pathId? q = c.pathId? q) := by
  obtain ⟨u, hu, hg | ⟨rfl, rfl⟩ | ⟨rfl, rfl⟩⟩ := portType_child_cases c h
  · exact ⟨u, hu, fun hg' => by simp [hg] at hg'⟩
  · exact ⟨u, hu, fun _ => ⟨rfl, rfl, fun _ => rfl, fun _ => rfl⟩⟩
  · exact ⟨_, hu, fun _ => ⟨lastId?_mask _, lastId?_mask _, pathId?_mask _, pathId?_mask _⟩⟩

/-- What has a node inside of an element of a port has the part that the node is in. -/
theorem exists_child_of_inside (h : (portType depth data kind).pathId? (e :: j :: rest) = some id) :
    ∃ c, data.child? j = some c := by
  obtain ⟨t, ht, h⟩ := Option.bind_eq_some_iff.1 h
  obtain ⟨f, -, h⟩ := Option.bind_eq_some_iff.1 h
  obtain ⟨s, hs, -⟩ := Option.bind_eq_some_iff.1 h
  obtain ⟨d, hd, -⟩ := Option.bind_eq_some_iff.1 hs
  obtain ⟨u, -, hnodes⟩ := portType_child_ids ht data
  rw [(hnodes (by cases t <;> first | rfl | cases hd)).2.2.1] at hs
  obtain ⟨c, hc, -⟩ := Option.bind_eq_some_iff.1 hs
  exact ⟨c, hc⟩

end Memory

open Memory

/-- The position that a scan for an ID finds is that of an element, and of the one whose range holds the ID if there is
one. -/
theorem Memory.exists_element (hlast : (portType depth data kind).lastId? = some last) (hlt : last + 1 < UInt64.size)
    {n : Nat} {start : Nat → Nat} (hl : (portType depth data kind).Layout last n start) (hid : id ≠ 0) :
    ∃ e t, (portType depth data kind).childOf? id = some e ∧ (portType depth data kind).child? e = some t ∧
      (id ≤ last → start e ≤ id ∧ id < start (e + 1)) := by
  have hfound : ∃ e < n, (portType depth data kind).childOf? id = some e ∧
      (id ≤ last → start e ≤ id ∧ id < start (e + 1)) := by
    by_cases hle : id ≤ last
    · obtain ⟨e, he, hrange⟩ := hl.exists_part (Nat.one_le_iff_ne_zero.2 hid) hle
      exact ⟨e, he, hl.find he hrange.1 hrange.2, fun _ => hrange⟩
    · -- behind all elements, the last of them is found
      have hfind : ∃ e, fieldOf? id (portFields depth data kind) 1 0 = some e ∧ e < 0 + (portFields depth data kind).length :=
        fieldOf?_lt hlast (by omega) (by simp [portFields])
      obtain ⟨e, he, hlen⟩ := hfind
      refine ⟨e, hl.child.1 ?_, he, fun h => absurd h hle⟩
      rw [Nat.zero_add] at hlen
      simp [portType, child?, hlen]
  obtain ⟨e, he, hfind, hrange⟩ := hfound
  obtain ⟨t, ht⟩ := Option.isSome_iff_exists.1 (hl.child.2 he)
  exact ⟨e, t, hfind, ht, hrange⟩

/-- An ID that is not that of the whole is the one of a node inside of the part whose range holds it. -/
theorem Ty.exists_pathId?_cons (h : t.lastId? = some last) (hlt : last + 1 < UInt64.size) (hpos : 1 ≤ id)
    (hle : id ≤ last) : ∃ j rest, t.pathId? (j :: rest) = some id ∧ t.Holds j id := by
  obtain ⟨n, start, hl⟩ := exists_layout h hlt
  obtain ⟨j, hj, hlo, hhi⟩ := hl.exists_part hpos hle
  obtain ⟨c, hc⟩ := Option.isSome_iff_exists.1 (hl.child.2 hj)
  obtain ⟨hf, m, hm, hnext⟩ := hl.part hc
  have hend := hl.le_last hj
  have hrest : id - start j ≤ m := by omega
  obtain ⟨rest, -, hid⟩ := descend?_spec hm (by omega) hrest (Nat.le_refl _)
  exact ⟨j, rest, (pathId?_cons_eq_some hl).2 ⟨c, _, hc, hid, by omega⟩, c, start j, m, hc, hf, hm, hlo, by omega⟩

/-- What an annotation inside of an element with parts becomes, by where its ID lies: the nodes of part `i` come behind
`start + part.fieldId`, those of the other parts elsewhere, and there are none behind the element. -/
theorem Annotation.Follows.of_range {start start' k : Nat} (ha : a.fieldId = some id)
    (hdata : data.lastId? = some last) (hlt : last + 1 < UInt64.size) (hps : data.PartsOf ps) (hp : part ∈ ps)
    (hk : part.ty.lastId? = some k) (hle : part.fieldId + k ≤ last)
    (hin : ∀ {q s}, data.pathId? q = some s → source.pathId? (e :: q) = some (start + s))
    (hout : ∀ {q s}, part.ty.pathId? q = some s → narrowed.pathId? (e :: q) = some (start' + s))
    (hlo : start < id) (hbehind : start + last < id → ∀ path, source.pathId? path ≠ some id) :
    a.Follows source narrowed part.index (if start + part.fieldId ≤ id ∧ id ≤ start + part.fieldId + k then
      some { a with fieldId := some (id - (start + part.fieldId) + start') } else none) := by
  have hc := hps.child_index hp
  have hf := hps.fieldId_index hp
  split
  next h =>
    have hrest : id - (start + part.fieldId) ≤ k := by omega
    obtain ⟨rest, -, hrest⟩ := descend?_spec hk (by omega) hrest (Nat.le_refl _)
    have hold : source.pathId? (e :: part.index :: rest) = some id := by
      have hid : data.pathId? (part.index :: rest) = some (part.fieldId + (id - (start + part.fieldId))) := by
        simp [pathId?, hc, hf, hrest]
      rw [hin hid, Option.some.injEq]
      omega
    refine .inside ha hold ?_
    rw [hout hrest, Nat.add_comm]
  next h =>
    by_cases hid : id ≤ start + last
    · have hpos : 1 ≤ id - start := by omega
      obtain ⟨j, rest, hj, c, f, m, hc', hf', hm, hge, hle'⟩ :=
        Ty.exists_pathId?_cons hdata hlt hpos (by omega)
      have hnode := hin hj
      rw [Nat.add_sub_cancel' (Nat.le_of_lt hlo)] at hnode
      refine .elsewhere ha hnode ?_
      rintro rfl
      obtain rfl := Option.some.inj (hc.symm.trans hc')
      obtain rfl := Option.some.inj (hf.symm.trans hf')
      obtain rfl := Option.some.inj (hk.symm.trans hm)
      exact h ⟨by omega, by omega⟩
    · exact .nowhere ha (hbehind (by omega))

/-- An annotation of a memory port follows the node that it names. -/
theorem Annotation.onPort_follows (a : Annotation) (hspan : (portType depth data kind).span?.isSome)
    (hps : data.PartsOf ps) (hp : part ∈ ps) :
    Ends True (a.onPort (portType depth data kind) (portType depth part.ty kind) part)
      (a.Follows (portType depth data kind) (portType depth part.ty kind) part.index) := by
  have hc := hps.child_index hp
  have hf := hps.fieldId_index hp
  obtain ⟨last, hlast, hlt⟩ := lastId?_of_span? hspan
  obtain ⟨last', hlast', hlt'⟩ := lastId?_of_span? (span?_portType_child hspan hc)
  obtain ⟨n, start, hl⟩ := exists_layout hlast hlt
  obtain ⟨n', start', hl'⟩ := exists_layout hlast' hlt'
  unfold onPort
  split
  next h => exact .pure (.whole (.inl h))
  next h => exact .pure (.whole (.inr h))
  next id hid ha =>
    obtain ⟨e, t, hfind, ht, hrange⟩ := exists_element hlast hlt hl hid
    obtain ⟨u, hu, hnodes⟩ := portType_child_ids ht part.ty
    obtain ⟨hbase, m, hm, hnext⟩ := hl.part ht
    obtain ⟨hbase', m', hm', hnext'⟩ := hl'.part hu
    have he := hl.child.1 (Option.isSome_of_eq_some ht)
    have hend := hl.le_last he
    have hend' := hl'.le_last (hl'.child.1 (Option.isSome_of_eq_some hu))
    have hlo : start e ≤ id := by
      by_cases hle : id ≤ last
      · exact (hrange hle).1
      · omega
    refine Ends.bind_some hfind (Ends.bind_some hbase (Ends.bind_some hbase' ?_))
    split
    next heq =>
      refine .pure (.element ha (e := e) ?_ ?_)
      · exact (pathId?_cons_eq_some hl).2 ⟨t, 0, ht, rfl, heq⟩
      · exact (pathId?_cons_eq_some hl').2 ⟨u, 0, hu, rfl, rfl⟩
    next hne =>
      rw [ht, Option.any_some]
      split
      next hg =>
        -- a path to a node with the ID would lead into this element, which has no parts
        refine .pure (.nowhere ha fun path hpath => ?_)
        cases path with
        | nil => exact hid (Option.some.inj hpath).symm
        | cons e' rest =>
          have hle := pathId?_le hlast hlt hpath
          obtain ⟨he', hin⟩ := pathId?_range hlt hl hpath
          obtain rfl := hl.part_unique he' he hin (hrange hle)
          obtain ⟨t', s, ht', hs, rfl⟩ := (pathId?_cons_eq_some hl).1 hpath
          obtain rfl := Option.some.inj (ht.symm.trans ht')
          cases t with
          | ground g =>
            cases rest with
            | nil => exact hne (Option.some.inj hs ▸ rfl)
            | cons j rest => cases hs
          | _ => cases hg
      next hg =>
        obtain ⟨hdata, hnarrow, hids, hids'⟩ := hnodes (by simpa [isAggregate] using hg)
        rw [hm] at hdata
        rw [hm'] at hnarrow
        obtain ⟨k, f, hk, hf', -, hle, -⟩ := lastId?_child hdata.symm hc
        obtain rfl := Option.some.inj (hf.symm.trans hf')
        have hin : ∀ {q s}, data.pathId? q = some s → (portType depth data kind).pathId? (e :: q) = some (start e + s) :=
          fun {q s} hq => (pathId?_cons_eq_some hl).2 ⟨t, s, ht, (hids q).trans hq, rfl⟩
        have hout : ∀ {q s}, part.ty.pathId? q = some s →
            (portType depth part.ty kind).pathId? (e :: q) = some (start' e + s) :=
          fun {q s} hq => (pathId?_cons_eq_some hl').2 ⟨u, s, hu, (hids' q).trans hq, rfl⟩
        have hfollows := Annotation.Follows.of_range ha hdata.symm (by omega) hps hp hk hle hin hout (by omega)
          fun hlt' path hpath => by
            have := pathId?_le hlast hlt hpath
            have := hrange this
            omega
        refine Ends.bind_some (word?_eq_some_iff.2 ⟨rfl, by omega⟩) ?_
        split
        next hlt' =>
          rw [if_neg fun h => absurd h.1 (Nat.not_le.2 hlt')] at hfollows
          exact .pure hfollows
        next hge =>
          refine Ends.bind_some hk (Ends.bind_some (word?_eq_some_iff.2 ⟨rfl, by omega⟩) ?_)
          split
          next hgt =>
            rw [if_neg fun h => absurd h.2 (Nat.not_le.2 hgt)] at hfollows
            exact .pure hfollows
          next hle' =>
            rw [if_pos ⟨by omega, by omega⟩] at hfollows
            obtain rfl := Option.some.inj (hnarrow.trans hk)
            exact Ends.bind_some (word?_eq_some_iff.2 ⟨rfl, by omega⟩) (.pure hfollows)

namespace Memory

variable {keep : Bool}

/-- Annotations of a memory port follow the nodes that they name: what is left of the list for the part is what becomes
of each of them, in order. -/
theorem restrictPort_each (hspan : (portType depth data kind).span?.isSome) (hps : data.PartsOf ps) (hp : part ∈ ps)
    (annotations : List Annotation) :
    ∃ kept, restrictPort annotations (portType depth data kind) (portType depth part.ty kind) part = .ok kept.reduceOption ∧
      List.Forall₂ (fun a => a.Follows (portType depth data kind) (portType depth part.ty kind) part.index) annotations
        kept := by
  have hends : Ends True (annotations.mapM fun a => a.onPort (portType depth data kind) (portType depth part.ty kind) part)
      (List.Forall₂ (fun a => a.Follows (portType depth data kind) (portType depth part.ty kind) part.index) annotations) :=
    Ends.mapM _ annotations fun a _ => a.onPort_follows hspan hps hp
  obtain ⟨kept, hkept, hfollows⟩ := hends.exists_ok trivial
  refine ⟨kept, ?_, hfollows⟩
  unfold restrictPort
  rw [hkept]
  rfl

/-- How the annotations of a port are shared out when the data type of a memory is narrowed to each of its parts. -/
structure Readdresses (depth : Nat) (data : Ty) (kind : PortKind) (ps : List Part) : Prop where
  /-- What is left for a part is what becomes of each annotation, in order. -/
  follows : ∀ part ∈ ps, ∀ annotations, ∃ kept,
    restrictPort annotations (portType depth data kind) (portType depth part.ty kind) part = .ok kept.reduceOption ∧
      List.Forall₂ (fun a => a.Follows (portType depth data kind) (portType depth part.ty kind) part.index)
        annotations kept
  /-- What names a node inside of an element is kept for the part that holds the node, and for no other. -/
  once : ∀ {a : Annotation} {id e j : Nat} {rest : List Nat}, a.fieldId = some id →
    (portType depth data kind).pathId? (e :: j :: rest) = some id → ∃ part ∈ ps, part.index = j ∧
      (∃ a', restrictPort [a] (portType depth data kind) (portType depth part.ty kind) part = .ok [a']) ∧
      ∀ other ∈ ps, other ≠ part →
        restrictPort [a] (portType depth data kind) (portType depth other.ty kind) other = .ok []
  /-- The elements of the port have the same names and directions for every part, in the same order. -/
  elements : ∀ part ∈ ps, (portFields depth part.ty kind).map (fun f => (f.name, f.flip)) =
    (portFields depth data kind).map fun f => (f.name, f.flip)

/-- The annotations of a memory port follow the nodes that they name when the data type is narrowed, where the field IDs
of the port stay within 64 bits. -/
theorem readdresses (depth : Nat) (kind : PortKind) (hparts : data.peel keep = .ok (some ps))
    (hspan : (portType depth data kind).span?.isSome) : Readdresses depth data kind ps := by
  obtain ⟨last, hlast, hlt⟩ := lastId?_of_span? hspan
  have hpeel : Ends False (data.peel keep) _ := peel_ends nofun
  have hps : data.PartsOf ps := (hpeel.of_ok hparts).1
  have heach := fun part (hp : part ∈ ps) annotations => restrictPort_each hspan hps hp annotations
  refine ⟨heach, fun {a id e j rest} ha hid => ?_, fun part _ => names_portFields depth data part.ty kind⟩
  -- one annotation is kept if its node is one of the part
  have hone : ∀ part ∈ ps, ∃ r : Option Annotation, (r.isSome ↔ part.index = j) ∧
      restrictPort [a] (portType depth data kind) (portType depth part.ty kind) part = .ok r.toList := by
    intro part hp
    obtain ⟨kept, hkept, hfollows⟩ := heach part hp [a]
    cases hfollows with | @cons _ r _ _ hr hnil =>
    cases hnil
    refine ⟨r, hr.isSome_iff hlast hlt ha hid, ?_⟩
    rw [hkept]
    cases r <;> rfl
  obtain ⟨c, hc⟩ := exists_child_of_inside hid
  obtain ⟨part, hpart, -⟩ := hps.getElem?_of_child hc
  have hp := List.mem_of_getElem? hpart
  have hj := hps.index hpart
  refine ⟨part, hp, hj, ?_, fun other ho hne => ?_⟩
  · obtain ⟨r, hr, hkept⟩ := hone part hp
    obtain ⟨a', rfl⟩ := Option.isSome_iff_exists.1 (hr.2 hj)
    exact ⟨a', hkept⟩
  · obtain ⟨r, hr, hkept⟩ := hone other ho
    obtain rfl : r = none := by
      rw [← Option.not_isSome_iff_eq_none, hr]
      rintro rfl
      have := hps.getElem?_index ho
      rw [← hj, hps.getElem?_index hp, Option.some.injEq] at this
      exact hne this.symm
    exact hkept

/-- A field beside a bundle of two, in a memory that is read and written through one port. -/
theorem readdresses_nested : Readdresses 4
    (.bundle [⟨"a", false, .uint 1⟩, ⟨"b", false, .bundle [⟨"c", false, .uint 1⟩, ⟨"d", false, .uint 1⟩]⟩]) .readWrite
    [⟨.uint 1, 0, 1, "_a", false⟩, ⟨.bundle [⟨"c", false, .uint 1⟩, ⟨"d", false, .uint 1⟩], 1, 2, "_b", false⟩] :=
  have hpeel : Ty.peel (.bundle [⟨"a", false, .uint 1⟩, ⟨"b", false, .bundle [⟨"c", false, .uint 1⟩, ⟨"d", false, .uint 1⟩]⟩])
      false = .ok (some _) := rfl
  readdresses 4 .readWrite hpeel (by decide)

end Memory

end Scalarize
