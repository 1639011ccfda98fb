import Scalarize.Proofs.Annotation
import Scalarize.Proofs.FieldIds

/-!
# Field IDs within 64 bits

The IDs of a type are 64-bit numbers if the last one is. All that is computed of its parts then stays within 64 bits
too, but for one search: the scan of a bundle adds up the IDs of its fields from 1 on, so that it leaves 64 bits at the
last field of a bundle that uses all numbers there are.

* `Ty.exists_fieldRange` : every ID lies in the range of a field;
* `Ty.fieldOf?_eq_none_iff` : which scans leave 64 bits;
* `Ty.Answered`, `Ty.answered` : what is answered about the parts of a type.
-/

namespace Scalarize.Ty

variable {t c : Ty} {fs : List Field} {f g : Field} {i id last l m s : Nat}

/-- Every ID lies in the range of a field. -/
theorem exists_fieldRange (h : spans? fs = some l) (hid : id < l) : ∃ i f s m, fs[i]? = some f ∧
    spans? (fs.take i) = some s ∧ f.ty.lastId? = some m ∧ s ≤ id ∧ id < s + m + 1 ∧ s + m + 1 ≤ l := by
  induction fs generalizing l id with
  | nil =>
    obtain rfl := Option.some.inj h
    omega
  | cons g fs ih =>
    rw [spans?_cons, Option.bind_eq_some_iff] at h
    obtain ⟨a, ha, h⟩ := h
    obtain ⟨r, hr, h⟩ := Option.bind_eq_some_iff.1 h
    obtain ⟨rfl, hlt⟩ := word?_eq_some_iff.1 h
    by_cases hin : id < a
    · obtain ⟨m, hm, hs⟩ := Option.bind_eq_some_iff.1 ha
      obtain ⟨rfl, -⟩ := word?_eq_some_iff.1 hs
      exact ⟨0, g, 0, m, rfl, rfl, hm, by omega, by omega, by omega⟩
    · obtain ⟨i, f, s, m, hf, hs, hm, hle, hlt', hend⟩ := ih hr (show id - a < r by omega)
      refine ⟨i + 1, f, a + s, m, hf, ?_, hm, by omega, by omega, by omega⟩
      rw [List.take_succ_cons, spans?_cons, ha, hs]
      exact word?_eq_some_iff.2 ⟨rfl, by omega⟩

/-- The IDs of the last field are those behind all others. -/
theorem spans?_concat (h : spans? (fs ++ [g]) = some l) :
    ∃ s m, spans? fs = some s ∧ g.ty.lastId? = some m ∧ s + m + 1 = l := by
  have hg : (fs ++ [g])[fs.length]? = some g := by simp
  obtain ⟨m, s, hm, hs, -⟩ := spans?_getElem? h hg
  have hall := spans?_take_succ h hg hs hm
  rw [List.take_of_length_le (by simp), h] at hall
  rw [List.take_left] at hs
  exact ⟨s, m, hs, hm, (Option.some.inj hall).symm⟩

/-- The field with the last IDs is the last field. -/
theorem eq_concat_of_range (h : spans? fs = some l) (hf : fs[i]? = some f) (hs : spans? (fs.take i) = some s)
    (hm : f.ty.lastId? = some m) (hend : s + m + 1 = l) : fs = fs.take i ++ [f] := by
  obtain ⟨hi, rfl⟩ := List.getElem?_eq_some_iff.1 hf
  have hlen : fs.length = i + 1 := by
    by_contra hne
    -- a field behind it would have an ID as well
    have hnext : fs[i + 1]? = some fs[i + 1] := List.getElem?_eq_getElem (by omega)
    obtain ⟨m', s', -, hs', hle, -⟩ := spans?_getElem? h hnext
    obtain rfl := Option.some.inj (hs'.symm.trans (spans?_take_succ h hf hs hm))
    omega
  conv_lhs => rw [← List.take_of_length_le (Nat.le_of_eq hlen), List.take_add_one, hf]
  rfl

/-- The scan for an ID leaves 64 bits just if the fields have all IDs from 1 on, and the ID is one of the last field. -/
theorem fieldOf?_eq_none_iff (h : spans? fs = some last) (hlast : last < UInt64.size) (hid : 1 ≤ id) (hle : id ≤ last) :
    fieldOf? id fs 1 0 = none ↔ last + 1 = UInt64.size ∧ ∃ fs₀ g s, fs = fs₀ ++ [g] ∧ spans? fs₀ = some s ∧ s < id := by
  constructor
  · intro hnone
    obtain ⟨i, f, s, m, hf, hs, hm, hrange⟩ := exists_fieldRange h (show id - 1 < last by omega)
    rw [fieldOf?_eq h hf hs hm (by omega) (by omega), Option.map_eq_none_iff] at hnone
    have hsize : ¬1 + s + m + 1 < UInt64.size := fun hlt => by simp [word?, hlt] at hnone
    refine ⟨by omega, fs.take i, f, s, eq_concat_of_range h hf hs hm (by omega), hs, by omega⟩
  · rintro ⟨hsize, fs₀, g, s, rfl, hs, hlt⟩
    obtain ⟨s', m, hs', hm, hend⟩ := spans?_concat h
    obtain rfl := Option.some.inj (hs.symm.trans hs')
    have hg : (fs₀ ++ [g])[fs₀.length]? = some g := by simp
    rw [fieldOf?_eq h hg (by rwa [List.take_left]) hm (by omega) (by omega), Option.map_eq_none_iff, word?,
      if_neg (by omega)]

/-- A part that is found holds the ID. -/
theorem holds_of_childOf? (h : t.lastId? = some last) (hid : 1 ≤ id) (hle : id ≤ last) (hi : t.childOf? id = some i) :
    t.Holds i id := by
  cases t with
  | ground g => cases hi
  | bundle fs =>
    have hspans : spans? fs = some last := h
    obtain ⟨j, f, s, m, hf, hs, hm, hrange⟩ := exists_fieldRange hspans (show id - 1 < last by omega)
    rw [childOf?, fieldOf?_eq hspans hf hs hm (by omega) (by omega)] at hi
    obtain ⟨-, -, rfl⟩ := Option.map_eq_some_iff.1 hi
    rw [Nat.zero_add]
    obtain ⟨m', f', hm', hf', -⟩ := lastId?_child h (c := f.ty) (i := j) (by simp [child?, hf])
    obtain rfl := Option.some.inj (hm.symm.trans hm')
    have hj := (List.getElem?_eq_some_iff.1 hf).1
    have hf'' := hf'
    rw [childId?, if_pos (Nat.le_of_lt hj), hs, Option.bind_some] at hf''
    obtain ⟨rfl, -⟩ := word?_eq_some_iff.1 hf''
    exact ⟨f.ty, 1 + s, m, by simp [child?, hf], hf', hm, by omega, by omega⟩
  | vector e n =>
    have hvec := h
    rw [lastId?_vector, Option.bind_eq_some_iff] at hvec
    obtain ⟨s, hs, hvec⟩ := hvec
    obtain ⟨rfl, -⟩ := word?_eq_some_iff.1 hvec
    rw [childOf?, hs, Option.map_some] at hi
    obtain rfl := Option.some.inj hi
    obtain ⟨k, hk, hsk⟩ := Option.bind_eq_some_iff.1 hs
    obtain ⟨rfl, -⟩ := word?_eq_some_iff.1 hsk
    have hlt : (id - 1) / (k + 1) < n := (Nat.div_lt_iff_lt_mul (k.add_one_pos)).2 (by omega)
    have hc : (vector e n).child? ((id - 1) / (k + 1)) = some e := if_pos hlt
    obtain ⟨m, f, hm, hf, -⟩ := lastId?_child h hc
    obtain rfl := Option.some.inj (hk.symm.trans hm)
    have hf' := hf
    rw [childId?, hs, Option.bind_some] at hf'
    obtain ⟨rfl, -⟩ := word?_eq_some_iff.1 hf'
    have hdiv := Nat.div_add_mod (id - 1) (k + 1)
    have hmod := Nat.mod_lt (id - 1) k.add_one_pos
    rw [Nat.mul_comm] at hdiv
    exact ⟨e, _, k, hc, hf, hk, by omega, by omega⟩

/-- What is asked about the parts of a type is answered with 64-bit numbers, but for the scan of a bundle for an ID of
its last field if the last ID is the last 64-bit number. -/
structure Answered (t : Ty) (last : Nat) : Prop where
  /-- The IDs of a part, from its own one on, are among those of the type. -/
  part : ∀ {i c}, t.child? i = some c → ∃ f m, t.childId? i = some f ∧ c.lastId? = some m ∧
    word? (f + m) = some (f + m) ∧ f ≤ last ∧ f + m ≤ last
  found : ∀ {id i}, 1 ≤ id → id ≤ last → t.childOf? id = some i → t.Holds i id
  lost : ∀ {id}, 1 ≤ id → id ≤ last → (t.childOf? id = none ↔ last + 1 = UInt64.size ∧
    ∃ fs g f, t = .bundle (fs ++ [g]) ∧ t.childId? fs.length = some f ∧ f ≤ id)
  peel : ∀ keep, ∃ r, t.peel keep = .ok r ∧ ∀ ps, r = some ps → t.PartsOf ps
  /-- Annotations reach a part by the range of its IDs. -/
  range : ∀ {keep ps p}, t.peel keep = .ok (some ps) → p ∈ ps → ∃ m, p.ty.lastId? = some m ∧ p.fieldId + m ≤ last ∧
    ∀ annotations, restrict annotations p = (do
      let shares ← annotations.mapM (·.onPart p (p.fieldId + m))
      return ⟨shares.filterMap Share.carried?, shares.any (Share.needsSym p.ty.isGround)⟩)

/-- Every type whose last ID is a 64-bit number answers. -/
theorem answered (h : t.lastId? = some last) : t.Answered last where
  part {i c} hc := by
    obtain ⟨m, f, hm, hf, -, hle, hlt⟩ := lastId?_child h hc
    exact ⟨f, m, hf, hm, word?_eq_some_iff.2 ⟨rfl, by omega⟩, by omega, hle⟩
  found := holds_of_childOf? h
  lost {id} hid hle := by
    cases t with
    | ground g =>
      obtain rfl := Option.some.inj h
      omega
    | vector e n =>
      have hvec := h
      rw [lastId?_vector, Option.bind_eq_some_iff] at hvec
      obtain ⟨s, hs, -⟩ := hvec
      simp [childOf?, hs]
    | bundle fs =>
      -- the last ID is a 64-bit number, for it is that of a field
      have hspans : spans? fs = some last := h
      obtain ⟨i, f, -, -, hf, -⟩ := exists_fieldRange hspans (show id - 1 < last by omega)
      obtain ⟨-, -, -, -, -, -, hlast⟩ := lastId?_child h (c := f.ty) (i := i) (by simp [child?, hf])
      rw [childOf?, fieldOf?_eq_none_iff hspans hlast hid hle]
      refine and_congr_right fun hsize => ⟨?_, ?_⟩
      · rintro ⟨fs₀, g, s, rfl, hs, hlt⟩
        obtain ⟨s', m, hs', -, hend⟩ := spans?_concat hspans
        obtain rfl := Option.some.inj (hs.symm.trans hs')
        refine ⟨fs₀, g, 1 + s, rfl, ?_, by omega⟩
        rw [childId?, if_pos (by simp), List.take_left, hs, Option.bind_some]
        exact word?_eq_some_iff.2 ⟨rfl, by omega⟩
      · rintro ⟨fs₀, g, f, hfs, hf, hlt⟩
        obtain rfl : fs = fs₀ ++ [g] := by injection hfs
        rw [childId?, if_pos (by simp), List.take_left, Option.bind_eq_some_iff] at hf
        obtain ⟨s, hs, hf⟩ := hf
        obtain ⟨rfl, -⟩ := word?_eq_some_iff.1 hf
        exact ⟨fs₀, g, s, rfl, hs, by omega⟩
  peel keep := by
    have hpeel : Ends True (t.peel keep) _ := peel_ends fun _ => by rw [h]; rfl
    obtain ⟨r, hr, hparts⟩ := hpeel.exists_ok trivial
    refine ⟨r, hr, ?_⟩
    rintro ps rfl
    exact hparts.1
  range {keep ps p} hpeel hp := by
    have hps : t.PartsOf ps := ((peel_ends False.elim).of_ok hpeel).1
    obtain ⟨m, f, hm, hf, -, hle, hlt⟩ := lastId?_child h (hps.child_index hp)
    obtain rfl := Option.some.inj (hf.symm.trans (hps.fieldId_index hp))
    refine ⟨m, hm, hle, fun annotations => ?_⟩
    have hend : word? (p.fieldId + m) = some (p.fieldId + m) := word?_eq_some_iff.2 ⟨rfl, Nat.lt_of_le_of_lt hle hlt⟩
    simp only [restrict, hm, orOverflow, bind, Except.bind, hend]

/-- A bundle of one long vector, which has all 64-bit numbers for IDs. -/
def fullBundle : Ty := bundle [⟨"a", false, vector (uint 1) (UInt64.size - 2)⟩]

theorem answered_fullBundle : fullBundle.lastId? = some (UInt64.size - 1) ∧ fullBundle.Answered (UInt64.size - 1) :=
  ⟨by decide, answered (by decide)⟩

/-- No field is found for the ID of the only field. -/
theorem fullBundle_lost : fullBundle.lastId? = some (UInt64.size - 1) ∧ fullBundle.childId? 0 = some 1 ∧
    fullBundle.childOf? 1 = none := by
  decide

end Scalarize.Ty
