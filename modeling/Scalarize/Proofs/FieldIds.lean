import Mathlib.Data.List.Lex
import Scalarize.Proofs.Readiness

/-!
# Field IDs number the nodes of a type

* `Ty.Layout`, `Ty.exists_layout` : the parts of a type have one range of IDs each, one behind the other;
* `Ty.pathId?` : the ID of the node at the end of a path, added up part by part;
* `Ty.descend?`, `Ty.pathOf?` : the path to the node with an ID, found part by part;
* `Ty.Numbered`, `Ty.numbered` : IDs number all nodes in pre-order, and each is found again.
-/

namespace Scalarize.Ty

variable {t c u : Ty} {i j n id last a m : Nat} {start : Nat → Nat} {p q : List Nat}

/-! ## One layer -/

/-- The parts of `t` have the IDs from 1 to `last`. Those of part `i` are all from `start i` on that lie in front of
`start (i + 1)`. -/
structure Layout (t : Ty) (last n : Nat) (start : Nat → Nat) : Prop where
  child : ∀ {i}, (t.child? i).isSome ↔ i < n
  first : start 0 = 1
  part : ∀ {i c}, t.child? i = some c →
    t.childId? i = some (start i) ∧ ∃ m, c.lastId? = some m ∧ start (i + 1) = start i + m + 1
  end_ : start n = last + 1
  find : ∀ {i id}, i < n → start i ≤ id → id < start (i + 1) → t.childOf? id = some i

namespace Layout

theorem lt_succ (h : t.Layout last n start) (hi : i < n) : start i < start (i + 1) := by
  obtain ⟨c, hc⟩ := Option.isSome_iff_exists.1 (h.child.2 hi)
  obtain ⟨-, m, -, hnext⟩ := h.part hc
  omega

theorem mono (h : t.Layout last n start) (hij : i ≤ j) (hj : j ≤ n) : start i ≤ start j := by
  induction j, hij using Nat.le_induction with
  | base => exact Nat.le_refl _
  | succ j _ ih => exact Nat.le_trans (ih (by omega)) (Nat.le_of_lt (h.lt_succ (by omega)))

theorem one_le (h : t.Layout last n start) (hi : i ≤ n) : 1 ≤ start i := h.first ▸ h.mono (Nat.zero_le i) hi

theorem le_last (h : t.Layout last n start) (hi : i < n) : start (i + 1) ≤ last + 1 := h.end_ ▸ h.mono hi (Nat.le_refl n)

/-- Every ID lies in the range of a part. -/
theorem exists_part (h : t.Layout last n start) (hid : 1 ≤ id) (hle : id ≤ last) :
    ∃ i < n, start i ≤ id ∧ id < start (i + 1) := by
  suffices ∀ k ≤ n, id < start k → ∃ i < k, start i ≤ id ∧ id < start (i + 1) from
    this n (Nat.le_refl n) (by rw [h.end_]; omega)
  intro k
  induction k with
  | zero =>
    rw [h.first]
    omega
  | succ k ih =>
    intro hk hlt
    by_cases hle : start k ≤ id
    · exact ⟨k, Nat.lt_succ_self k, hle, hlt⟩
    · obtain ⟨i, hi, hrange⟩ := ih (by omega) (by omega)
      exact ⟨i, by omega, hrange⟩

/-- The ranges of different parts have no ID in common. -/
theorem part_unique (h : t.Layout last n start) (hi : i < n) (hj : j < n) (hid : start i ≤ id ∧ id < start (i + 1))
    (hid' : start j ≤ id ∧ id < start (j + 1)) : i = j := by
  rcases Nat.lt_trichotomy i j with hlt | heq | hlt
  · have hle : start (i + 1) ≤ start j := h.mono hlt (Nat.le_of_lt hj)
    omega
  · exact heq
  · have hle : start (j + 1) ≤ start i := h.mono hlt (Nat.le_of_lt hi)
    omega

end Layout

/-- The fields up to a position take as many IDs as those in front of it and the one there. -/
theorem spans?_take_succ {fs : List Field} {f : Field} {l s : Nat} (h : spans? fs = some l) (hf : fs[i]? = some f)
    (hs : spans? (fs.take i) = some s) (hm : f.ty.lastId? = some m) : spans? (fs.take (i + 1)) = some (s + m + 1) := by
  induction fs generalizing i l s with
  | nil => cases hf
  | cons g fs ih =>
    rw [spans?_cons, Option.bind_eq_some_iff] at h
    obtain ⟨a, ha, h⟩ := h
    obtain ⟨r, hr, h⟩ := Option.bind_eq_some_iff.1 h
    obtain ⟨rfl, hlt⟩ := word?_eq_some_iff.1 h
    rw [List.take_succ_cons, spans?_cons, ha, Option.bind_some]
    cases i with
    | zero =>
      obtain rfl : g = f := by simpa using hf
      obtain rfl := Option.some.inj hs
      rw [span?, hm, Option.bind_some] at ha
      obtain ⟨rfl, -⟩ := word?_eq_some_iff.1 ha
      rw [List.take_zero, spans?, Option.bind_some]
      exact word?_eq_some_iff.2 ⟨by omega, by omega⟩
    | succ i =>
      rw [List.take_succ_cons, spans?_cons, ha, Option.bind_some, Option.bind_eq_some_iff] at hs
      obtain ⟨s', hs', hs⟩ := hs
      obtain ⟨rfl, -⟩ := word?_eq_some_iff.1 hs
      have hf : fs[i]? = some f := by simpa using hf
      obtain ⟨m', s'', hm', hs'', hle, -⟩ := spans?_getElem? hr hf
      obtain rfl := Option.some.inj (hm'.symm.trans hm)
      obtain rfl := Option.some.inj (hs''.symm.trans hs')
      rw [ih hr hf hs', Option.bind_some]
      exact word?_eq_some_iff.2 ⟨by omega, by omega⟩

/-- The scan of a field list stops at the field whose range holds the ID, if the range ends within 64 bits. -/
theorem fieldOf?_eq {fs : List Field} {f : Field} {l s next k : Nat} (h : spans? fs = some l) (hf : fs[i]? = some f)
    (hs : spans? (fs.take i) = some s) (hm : f.ty.lastId? = some m) (hle : next + s ≤ id)
    (hid : id < next + s + m + 1) : fieldOf? id fs next k = (word? (next + s + m + 1)).map fun _ => k + i := by
  induction fs generalizing i l s next k with
  | nil => cases hf
  | cons g fs ih =>
    rw [spans?_cons, Option.bind_eq_some_iff] at h
    obtain ⟨a, ha, h⟩ := h
    obtain ⟨r, hr, h⟩ := Option.bind_eq_some_iff.1 h
    obtain ⟨rfl, -⟩ := word?_eq_some_iff.1 h
    rw [fieldOf?, ha, Option.bind_some]
    cases i with
    | zero =>
      obtain rfl : g = f := by simpa using hf
      obtain rfl := Option.some.inj hs
      rw [span?, hm, Option.bind_some] at ha
      obtain ⟨rfl, -⟩ := word?_eq_some_iff.1 ha
      rw [Nat.add_zero, ← Nat.add_assoc]
      cases hw : word? (next + m + 1) with
      | none => rfl
      | some w =>
        obtain ⟨rfl, -⟩ := word?_eq_some_iff.1 hw
        rw [Option.bind_some, if_pos (by omega), Option.map_some, Nat.add_zero]
    | succ i =>
      rw [List.take_succ_cons, spans?_cons, ha, Option.bind_some, Option.bind_eq_some_iff] at hs
      obtain ⟨s', hs', hs⟩ := hs
      obtain ⟨rfl, -⟩ := word?_eq_some_iff.1 hs
      have hend : next + (a + s') + m + 1 = next + a + s' + m + 1 := by omega
      rw [hend]
      cases hw : word? (next + a) with
      | none =>
        -- a range behind one that ends past 64 bits ends there as well
        have hsize : ¬next + a < UInt64.size := fun hlt => by simp [word?, hlt] at hw
        rw [word?, if_neg (by omega)]
        rfl
      | some w =>
        obtain ⟨rfl, -⟩ := word?_eq_some_iff.1 hw
        rw [Option.bind_some, if_neg (by omega), ih hr (by simpa using hf) hs' (by omega) (by omega),
          Nat.add_assoc k, Nat.add_comm 1 i]

/-- Where the IDs of a type are within 64 bits, its parts have one range each. -/
theorem exists_layout (h : t.lastId? = some last) (hlt : last + 1 < UInt64.size) :
    ∃ n start, t.Layout last n start := by
  cases t with
  | ground g =>
    obtain rfl := Option.some.inj h
    exact ⟨0, fun _ => 1, by simp [child?], rfl, nofun, rfl, nofun⟩
  | bundle fs =>
    have hspans : spans? fs = some last := h
    -- how many IDs the fields in front of a position take
    obtain ⟨before, hbefore⟩ : ∃ before : Nat → Nat, ∀ i ≤ fs.length, spans? (fs.take i) = some (before i) := by
      refine ⟨fun i => (spans? (fs.take i)).getD 0, fun i hi => ?_⟩
      rcases Nat.lt_or_eq_of_le hi with hi | rfl
      · obtain ⟨m, s, -, hs, -⟩ := spans?_getElem? hspans (List.getElem?_eq_getElem hi)
        simp only [hs, Option.getD_some]
      · simp only [List.take_length, hspans, Option.getD_some]
    refine ⟨fs.length, fun i => 1 + before i, ?_, ?_, ?_, ?_, ?_⟩
    · simp [child?]
    · rw [← Option.some.inj (hbefore 0 (Nat.zero_le _))]
    · intro i c hc
      obtain ⟨f, hf, rfl⟩ := Option.map_eq_some_iff.1 hc
      have hi := (List.getElem?_eq_some_iff.1 hf).1
      obtain ⟨m, s, hm, hs, hle, -⟩ := spans?_getElem? hspans hf
      obtain rfl := Option.some.inj (hs.symm.trans (hbefore i (Nat.le_of_lt hi)))
      have hnext := Option.some.inj ((spans?_take_succ hspans hf hs hm).symm.trans (hbefore (i + 1) hi))
      refine ⟨?_, m, hm, by omega⟩
      rw [childId?, if_pos (Nat.le_of_lt hi), hs]
      exact word?_eq_some_iff.2 ⟨rfl, by omega⟩
    · have hall := hbefore fs.length (Nat.le_refl _)
      rw [List.take_length, hspans] at hall
      rw [← Option.some.inj hall, Nat.add_comm]
    · intro i id hi hle hid
      obtain ⟨f, hf⟩ : ∃ f, fs[i]? = some f := ⟨_, List.getElem?_eq_getElem hi⟩
      obtain ⟨m, s, hm, hs, hend, -⟩ := spans?_getElem? hspans hf
      obtain rfl := Option.some.inj (hs.symm.trans (hbefore i (Nat.le_of_lt hi)))
      have hnext := Option.some.inj ((spans?_take_succ hspans hf hs hm).symm.trans (hbefore (i + 1) hi))
      rw [childOf?, fieldOf?_eq hspans hf hs hm hle (by omega), word?_eq_some_iff.2 ⟨rfl, by omega⟩, Option.map_some,
        Nat.zero_add]
  | vector e n =>
    rw [lastId?_vector, Option.bind_eq_some_iff] at h
    obtain ⟨s, hs, h⟩ := h
    obtain ⟨rfl, -⟩ := word?_eq_some_iff.1 h
    obtain ⟨m, hm, hsm⟩ := Option.bind_eq_some_iff.1 hs
    obtain ⟨rfl, -⟩ := word?_eq_some_iff.1 hsm
    refine ⟨n, fun i => 1 + i * (m + 1), ?_, by simp, ?_, Nat.add_comm _ _, ?_⟩
    · intro i
      simp only [child?]
      split <;> simp_all
    · intro i c hc
      simp only [child?] at hc
      split at hc
      next hi =>
        obtain rfl := Option.some.inj hc
        have hle : i * (m + 1) ≤ n * (m + 1) := Nat.mul_le_mul_right _ (Nat.le_of_lt hi)
        refine ⟨?_, m, hm, by rw [Nat.add_mul]; omega⟩
        rw [childId?, hs]
        exact word?_eq_some_iff.2 ⟨rfl, by omega⟩
      next => cases hc
    · intro i id hi hle hid
      rw [childOf?, hs, Option.map_some, Option.some.injEq]
      exact Nat.div_eq_of_lt_le (by omega) (by omega)

/-! ## Paths and IDs -/

/-- The ID of the node at the end of a path: those of the parts on the way, added up. -/
def pathId? : Ty → List Nat → Option Nat
  | _, [] => some 0
  | t, i :: path => do
    let c ← t.child? i
    let f ← t.childId? i
    let r ← c.pathId? path
    return f + r

/-- The path to the node with an ID, at most `fuel` layers down: the part whose range holds it, and so on. -/
def descend? : Nat → Ty → Nat → Option (List Nat)
  | _, _, 0 => some []
  | 0, _, _ + 1 => none
  | fuel + 1, t, id => do
    let i ← t.childOf? id
    let c ← t.child? i
    let f ← t.childId? i
    let path ← descend? fuel c (id - f)
    return i :: path

/-- The path to the node with an ID. -/
def pathOf? (t : Ty) (id : Nat) : Option (List Nat) := descend? t.depth t id

theorem pathId?_cons (h : t.Layout last n start) (hc : t.child? i = some c) (path : List Nat) :
    t.pathId? (i :: path) = (c.pathId? path).map (start i + ·) := by
  rw [pathId?, hc, (h.part hc).1]
  simp only [Option.bind_eq_bind, Option.bind_some]
  cases c.pathId? path <;> rfl

theorem pathId?_cons_eq_some (h : t.Layout last n start) : t.pathId? (i :: p) = some id ↔
    ∃ c r, t.child? i = some c ∧ c.pathId? p = some r ∧ id = start i + r := by
  cases hc : t.child? i with
  | none => simp [pathId?, hc]
  | some c =>
    rw [pathId?_cons h hc, Option.map_eq_some_iff]
    simp [eq_comm]

/-- Every node has an ID, in the range of the type that it is a node of. -/
theorem exists_pathId? (h : t.lastId? = some last) (hlt : last + 1 < UInt64.size) (hu : t.sub? p = some u) :
    ∃ f m, t.pathId? p = some f ∧ u.lastId? = some m ∧ f + m ≤ last := by
  induction p generalizing t last with
  | nil =>
    obtain rfl := Option.some.inj hu
    exact ⟨0, last, rfl, h, by omega⟩
  | cons i p ih =>
    obtain ⟨c, hc, hu⟩ := Option.bind_eq_some_iff.1 hu
    obtain ⟨n, start, hl⟩ := exists_layout h hlt
    obtain ⟨-, k, hk, hnext⟩ := hl.part hc
    have hle := hl.le_last (hl.child.1 (Option.isSome_of_eq_some hc))
    obtain ⟨f, m, hf, hm, hfm⟩ := ih hk (by omega) hu
    exact ⟨start i + f, m, (pathId?_cons_eq_some hl).2 ⟨c, f, hc, hf, rfl⟩, hm, by omega⟩

/-- What has an ID is a node. -/
theorem isSome_sub?_of_pathId? (h : t.pathId? p = some id) : (t.sub? p).isSome := by
  induction p generalizing t id with
  | nil => rfl
  | cons i p ih =>
    obtain ⟨c, hc, h⟩ := Option.bind_eq_some_iff.1 h
    obtain ⟨f, -, h⟩ := Option.bind_eq_some_iff.1 h
    obtain ⟨r, hr, -⟩ := Option.bind_eq_some_iff.1 h
    rw [sub?_child hc]
    exact ih hr

theorem pathId?_le (h : t.lastId? = some last) (hlt : last + 1 < UInt64.size) (hid : t.pathId? p = some id) :
    id ≤ last := by
  obtain ⟨u, hu⟩ := Option.isSome_iff_exists.1 (isSome_sub?_of_pathId? hid)
  obtain ⟨f, m, hf, -, hle⟩ := exists_pathId? h hlt hu
  obtain rfl := Option.some.inj (hf.symm.trans hid)
  omega

/-- The ID of a node lies in the range of the part that the node belongs to. -/
theorem pathId?_range (hlt : last + 1 < UInt64.size) (hl : t.Layout last n start)
    (hid : t.pathId? (i :: p) = some id) : i < n ∧ start i ≤ id ∧ id < start (i + 1) := by
  obtain ⟨c, r, hc, hr, rfl⟩ := (pathId?_cons_eq_some hl).1 hid
  have hi := hl.child.1 (Option.isSome_of_eq_some hc)
  obtain ⟨-, k, hk, hnext⟩ := hl.part hc
  have hle := hl.le_last hi
  have := pathId?_le hk (by omega) hr
  exact ⟨hi, by omega, by omega⟩

/-- IDs increase in pre-order. -/
theorem pathId?_lt (h : t.lastId? = some last) (hlt : last + 1 < UInt64.size) (hp : t.pathId? p = some a)
    (hq : t.pathId? q = some id) (hpq : p < q) : a < id := by
  induction hpq generalizing t last a id with
  | nil =>
    obtain ⟨n, start, hl⟩ := exists_layout h hlt
    obtain rfl := Option.some.inj hp
    obtain ⟨hi, hle, -⟩ := pathId?_range hlt hl hq
    have := hl.one_le (Nat.le_of_lt hi)
    omega
  | @rel i p j q hij =>
    obtain ⟨n, start, hl⟩ := exists_layout h hlt
    obtain ⟨hi, -, ha⟩ := pathId?_range hlt hl hp
    obtain ⟨hj, hid, -⟩ := pathId?_range hlt hl hq
    have hle : start (i + 1) ≤ start j := hl.mono hij (Nat.le_of_lt hj)
    omega
  | cons _ ih =>
    obtain ⟨n, start, hl⟩ := exists_layout h hlt
    obtain ⟨c, r, hc, hr, rfl⟩ := (pathId?_cons_eq_some hl).1 hp
    obtain ⟨c', r', hc', hr', rfl⟩ := (pathId?_cons_eq_some hl).1 hq
    obtain rfl := Option.some.inj (hc.symm.trans hc')
    obtain ⟨-, k, hk, hnext⟩ := hl.part hc
    have hle := hl.le_last (hl.child.1 (Option.isSome_of_eq_some hc))
    have := ih hk (by omega) hr hr'
    omega

/-- Descending part by part finds a node for every ID, with just this ID. -/
theorem descend?_spec (h : t.lastId? = some last) (hlt : last + 1 < UInt64.size) (hid : id ≤ last) {fuel : Nat}
    (hfuel : t.depth ≤ fuel) : ∃ path, descend? fuel t id = some path ∧ t.pathId? path = some id := by
  induction fuel generalizing t last id with
  | zero =>
    -- a type without depth is ground, and has the ID 0 only
    cases t with
    | ground g =>
      obtain rfl := Option.some.inj h
      obtain rfl := Nat.le_zero.1 hid
      exact ⟨[], rfl, rfl⟩
    | bundle fs => simp [depth] at hfuel
    | vector e n => simp [depth] at hfuel
  | succ fuel ih =>
    cases id with
    | zero => exact ⟨[], rfl, rfl⟩
    | succ id =>
      obtain ⟨n, start, hl⟩ := exists_layout h hlt
      obtain ⟨i, hi, hrange⟩ := hl.exists_part (Nat.succ_le_succ (Nat.zero_le id)) hid
      obtain ⟨c, hc⟩ := Option.isSome_iff_exists.1 (hl.child.2 hi)
      obtain ⟨hf, k, hk, hnext⟩ := hl.part hc
      have hle := hl.le_last hi
      have hdepth := depth_lt_of_child? hc
      have hrest : id + 1 - start i ≤ k := by omega
      obtain ⟨path, hpath, hpid⟩ := ih hk (by omega) hrest (by omega)
      refine ⟨i :: path, ?_, (pathId?_cons_eq_some hl).2 ⟨c, _, hc, hpid, by omega⟩⟩
      rw [descend?, hl.find hi hrange.1 hrange.2, Option.bind_eq_bind, Option.bind_some, hc]
      · simp [hf, hpath]
      · exact Nat.succ_ne_zero id

/-- Masks number their nodes in the same way. -/
theorem childId?_mask (t : Ty) (i : Nat) : t.mask.childId? i = t.childId? i := by
  cases t with
  | ground g => rfl
  | bundle fs =>
    have hspans : spans? (maskFields (fs.take i)) = spans? (fs.take i) := lastId?_mask (bundle (fs.take i))
    rw [maskFields_eq] at hspans
    simp only [mask, childId?, maskFields_eq, List.length_map, ← List.map_take, hspans]
  | vector e n => simp [mask, childId?, span?]

theorem pathId?_mask (t : Ty) (p : List Nat) : t.mask.pathId? p = t.pathId? p := by
  induction p generalizing t with
  | nil => rfl
  | cons i p ih =>
    rw [pathId?, pathId?, child?_mask, childId?_mask]
    cases t.child? i with
    | none => rfl
    | some c => simp [ih]

theorem sub?_mask (t : Ty) (p : List Nat) : t.mask.sub? p = (t.sub? p).map mask := by
  induction p generalizing t with
  | nil => rfl
  | cons i p ih =>
    rw [sub?, sub?, child?_mask]
    cases t.child? i with
    | none => rfl
    | some c => simp [ih]

/-- Below a node, IDs are those of its type, behind its own. -/
theorem pathId?_append {f : Nat} (h : t.pathId? p = some f) (hu : t.sub? p = some u) :
    t.pathId? (p ++ q) = (u.pathId? q).map (f + ·) := by
  induction p generalizing t f with
  | nil =>
    obtain rfl := Option.some.inj h
    obtain rfl := Option.some.inj hu
    cases hq : t.pathId? q <;> simp [hq]
  | cons i p ih =>
    obtain ⟨c, hc, h⟩ := Option.bind_eq_some_iff.1 h
    obtain ⟨g, hg, h⟩ := Option.bind_eq_some_iff.1 h
    obtain ⟨r, hr, h⟩ := Option.bind_eq_some_iff.1 h
    obtain rfl := Option.some.inj h
    rw [sub?_child hc] at hu
    rw [List.cons_append, pathId?, hc, hg, Option.bind_eq_bind, Option.bind_some, Option.bind_eq_bind, Option.bind_some,
      ih hr hu]
    cases u.pathId? q <;> simp [Nat.add_assoc]

/-- Part `i` is the one whose nodes hold the ID. -/
def Holds (t : Ty) (i id : Nat) : Prop :=
  ∃ c f m, t.child? i = some c ∧ t.childId? i = some f ∧ c.lastId? = some m ∧ f ≤ id ∧ id ≤ f + m

/-- The part that holds an ID is found, and there is only one. -/
theorem childOf?_holds (h : t.lastId? = some last) (hlt : last + 1 < UInt64.size) (hid : 1 ≤ id) (hle : id ≤ last) :
    ∃ i, t.childOf? id = some i ∧ t.Holds i id ∧ ∀ j, t.Holds j id → j = i := by
  obtain ⟨n, start, hl⟩ := exists_layout h hlt
  obtain ⟨i, hi, hrange⟩ := hl.exists_part hid hle
  obtain ⟨c, hc⟩ := Option.isSome_iff_exists.1 (hl.child.2 hi)
  obtain ⟨hf, m, hm, hnext⟩ := hl.part hc
  refine ⟨i, hl.find hi hrange.1 hrange.2, ⟨c, start i, m, hc, hf, hm, hrange.1, by omega⟩, ?_⟩
  rintro j ⟨d, g, k, hd, hg, hk, hge, hidk⟩
  have hj := hl.child.1 (Option.isSome_of_eq_some hd)
  obtain ⟨hg', k', hk', hnext'⟩ := hl.part hd
  obtain rfl := Option.some.inj (hg.symm.trans hg')
  obtain rfl := Option.some.inj (hk.symm.trans hk')
  exact hl.part_unique hj hi ⟨hge, by omega⟩ hrange

/-- The IDs up to `last` number the nodes of a type in pre-order, each node is found again by its ID, and masks number
theirs in the same way. -/
structure Numbered (t : Ty) (last : Nat) : Prop where
  /-- The nodes are just what has an ID. -/
  node : ∀ p, (t.sub? p).isSome ↔ ∃ id ≤ last, t.pathId? p = some id
  injective : ∀ {p q id}, t.pathId? p = some id → t.pathId? q = some id → p = q
  surjective : ∀ id ≤ last, ∃ p, t.pathId? p = some id
  /-- Paths are in pre-order if they are in lexicographic order. -/
  preorder : ∀ {p q a b}, t.pathId? p = some a → t.pathId? q = some b → (a < b ↔ p < q)
  subtree : ∀ {p u f}, t.sub? p = some u → t.pathId? p = some f → ∃ m, u.lastId? = some m ∧
    ∀ id, f ≤ id ∧ id ≤ f + m ↔ ∃ q, t.pathId? (p ++ q) = some id
  child : ∀ {p u m id}, t.sub? p = some u → u.lastId? = some m → 1 ≤ id → id ≤ m →
    ∃ i, u.childOf? id = some i ∧ u.Holds i id ∧ ∀ j, u.Holds j id → j = i
  descent : ∀ {p id}, t.pathId? p = some id → t.pathOf? id = some p
  mask : ∀ p, t.mask.pathId? p = t.pathId? p ∧ t.mask.sub? p = (t.sub? p).map Ty.mask

/-- IDs number the nodes of every type in pre-order if they are within 64 bits, and not the last number there is. -/
theorem numbered (h : t.lastId? = some last) (hlt : last + 1 < UInt64.size) : t.Numbered last := by
  have hinj : ∀ {p q id}, t.pathId? p = some id → t.pathId? q = some id → p = q := by
    intro p q id hp hq
    rcases lt_trichotomy p q with hpq | heq | hqp
    · exact absurd (pathId?_lt h hlt hp hq hpq) (Nat.lt_irrefl _)
    · exact heq
    · exact absurd (pathId?_lt h hlt hq hp hqp) (Nat.lt_irrefl _)
  have hfound : ∀ id ≤ last, ∃ p, t.pathOf? id = some p ∧ t.pathId? p = some id :=
    fun id hid => descend?_spec h hlt hid (Nat.le_refl _)
  have hsub : ∀ {p u f}, t.sub? p = some u → t.pathId? p = some f → ∃ m, u.lastId? = some m ∧ f + m ≤ last := by
    intro p u f hu hf
    obtain ⟨f', m, hf', hm, hle⟩ := exists_pathId? h hlt hu
    obtain rfl := Option.some.inj (hf.symm.trans hf')
    exact ⟨m, hm, hle⟩
  refine ⟨fun p => ⟨fun hp => ?_, ?_⟩, hinj, fun id hid => ?_, fun {p q a b} hp hq => ⟨fun hab => ?_, ?_⟩,
    fun {p u f} hu hf => ?_, fun {p u m id} hu hm hid hle => ?_, fun {p id} hp => ?_,
    fun p => ⟨pathId?_mask t p, sub?_mask t p⟩⟩
  · obtain ⟨u, hu⟩ := Option.isSome_iff_exists.1 hp
    obtain ⟨f, m, hf, -, hle⟩ := exists_pathId? h hlt hu
    exact ⟨f, by omega, hf⟩
  · rintro ⟨id, -, hid⟩
    exact isSome_sub?_of_pathId? hid
  · obtain ⟨p, -, hp⟩ := hfound id hid
    exact ⟨p, hp⟩
  · rcases lt_trichotomy p q with hpq | rfl | hqp
    · exact hpq
    · obtain rfl := Option.some.inj (hp.symm.trans hq)
      exact absurd hab (Nat.lt_irrefl _)
    · exact absurd (pathId?_lt h hlt hq hp hqp) (Nat.lt_asymm hab)
  · exact pathId?_lt h hlt hp hq
  · obtain ⟨m, hm, hle⟩ := hsub hu hf
    refine ⟨m, hm, fun id => ⟨fun hid => ?_, ?_⟩⟩
    · have hrest : id - f ≤ m := by omega
      obtain ⟨q, -, hq⟩ := descend?_spec hm (by omega) hrest (Nat.le_refl _)
      refine ⟨q, ?_⟩
      rw [pathId?_append hf hu, hq, Option.map_some, Option.some.injEq]
      omega
    · rintro ⟨q, hq⟩
      rw [pathId?_append hf hu, Option.map_eq_some_iff] at hq
      obtain ⟨r, hr, rfl⟩ := hq
      have := pathId?_le hm (by omega) hr
      omega
  · obtain ⟨f, k, hf, hk, hkle⟩ := exists_pathId? h hlt hu
    obtain rfl := Option.some.inj (hm.symm.trans hk)
    exact childOf?_holds hm (by omega) hid hle
  · obtain ⟨q, hq, hqid⟩ := hfound id (pathId?_le h hlt hp)
    rw [hq, hinj hqid hp]

/-- A bundle with a vector in it. -/
theorem numbered_nested : (bundle [⟨"a", false, uint 1⟩, ⟨"b", true, vector (uint 3) 2⟩]).Numbered 4 :=
  numbered (by decide) (by decide)

end Scalarize.Ty
