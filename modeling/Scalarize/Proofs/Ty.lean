import Scalarize.Proofs.Ends
import Scalarize.Ty.Part

/-!
# Types and their parts

* `Ty.lastId?_child`, `Ty.width_child`, `Ty.preservable_child` : what a part takes over from its whole;
* `Ty.mask` : masks have the structure of their type;
* `Ty.PartsOf`, `Ty.parts_ends`, `Ty.peel_ends` : the list of parts;
* `Ty.pieces` : what is left of a type that is split to the end.
-/

namespace Scalarize.Ty

variable {must : Prop} {t c : Ty} {i : Nat}

/-! ## What a part takes over -/

/-- The field IDs of one field lie within those of the list. -/
theorem spans?_getElem? {fs : List Field} {f : Field} {l : Nat} (h : spans? fs = some l)
    (hf : fs[i]? = some f) :
    ∃ m s, f.ty.lastId? = some m ∧ spans? (fs.take i) = some s ∧ s + m + 1 ≤ l ∧ m + 1 < UInt64.size := by
  induction fs generalizing i l with
  | nil => simp at hf
  | cons g fs ih =>
    rw [spans?_cons, Option.bind_eq_some_iff] at h
    obtain ⟨a, ha, h⟩ := h
    obtain ⟨r, hr, h⟩ := Option.bind_eq_some_iff.1 h
    obtain ⟨rfl, hlt⟩ := word?_eq_some_iff.1 h
    cases i with
    | zero =>
      obtain rfl : g = f := by simpa using hf
      obtain ⟨m, hm, ha⟩ := Option.bind_eq_some_iff.1 ha
      obtain ⟨rfl, hm'⟩ := word?_eq_some_iff.1 ha
      exact ⟨m, 0, hm, rfl, by omega, hm'⟩
    | succ i =>
      obtain ⟨m, s, hm, hs, hle, hm'⟩ := ih hr (by simpa using hf)
      refine ⟨m, a + s, hm, ?_, by omega, hm'⟩
      rw [List.take_succ_cons, spans?_cons, ha, hs]
      exact word?_eq_some_iff.2 ⟨rfl, by omega⟩

/-- A part has field IDs of its own within those of the whole. -/
theorem lastId?_child {l : Nat} (h : t.lastId? = some l) (hc : t.child? i = some c) :
    ∃ m f, c.lastId? = some m ∧ t.childId? i = some f ∧ 1 ≤ f ∧ f + m ≤ l ∧ l < UInt64.size := by
  cases t with
  | ground g => cases hc
  | bundle fs =>
    obtain ⟨f, hf, rfl⟩ := Option.map_eq_some_iff.1 hc
    obtain ⟨m, s, hm, hs, hle, -⟩ := spans?_getElem? h hf
    have hi : i < fs.length := (List.getElem?_eq_some_iff.1 hf).1
    have hl : l < UInt64.size := by
      cases fs with
      | nil => simp at hf
      | cons g fs =>
        rw [lastId?, spans?_cons, Option.bind_eq_some_iff] at h
        obtain ⟨a, -, h⟩ := h
        obtain ⟨r, -, h⟩ := Option.bind_eq_some_iff.1 h
        obtain ⟨rfl, hlt⟩ := word?_eq_some_iff.1 h
        exact hlt
    refine ⟨m, 1 + s, hm, ?_, by omega, by omega, hl⟩
    rw [childId?, if_pos (by omega), hs]
    exact word?_eq_some_iff.2 ⟨rfl, by omega⟩
  | vector e n =>
    simp only [child?] at hc
    split at hc
    next hi =>
      obtain rfl := Option.some.inj hc
      rw [lastId?_vector, Option.bind_eq_some_iff] at h
      obtain ⟨s, hs, h⟩ := h
      obtain ⟨rfl, hlt⟩ := word?_eq_some_iff.1 h
      obtain ⟨m, hm, hsm⟩ := Option.bind_eq_some_iff.1 hs
      obtain ⟨rfl, -⟩ := word?_eq_some_iff.1 hsm
      have hle : (i + 1) * (m + 1) ≤ n * (m + 1) := Nat.mul_le_mul_right _ hi
      rw [Nat.add_mul, Nat.one_mul] at hle
      refine ⟨m, 1 + i * (m + 1), hm, ?_, by omega, by omega, hlt⟩
      rw [childId?, hs]
      exact word?_eq_some_iff.2 ⟨rfl, by omega⟩
    next => cases hc

/-- A vector whose field IDs are known is not too long. -/
theorem length_lt {e : Ty} {n : Nat} (h : (vector e n).lastId?.isSome) : n < UInt64.size := by
  obtain ⟨l, hl⟩ := Option.isSome_iff_exists.1 h
  rw [lastId?_vector, Option.bind_eq_some_iff] at hl
  obtain ⟨s, hs, hl⟩ := hl
  obtain ⟨rfl, hlt⟩ := word?_eq_some_iff.1 hl
  obtain ⟨m, -, hs⟩ := Option.bind_eq_some_iff.1 hs
  obtain ⟨rfl, -⟩ := word?_eq_some_iff.1 hs
  exact Nat.lt_of_le_of_lt (Nat.le_mul_of_pos_right n (Nat.succ_pos m)) hlt

theorem isSome_lastId?_child (h : t.lastId?.isSome) (hc : t.child? i = some c) :
    c.lastId?.isSome := by
  obtain ⟨l, hl⟩ := Option.isSome_iff_exists.1 h
  obtain ⟨m, f, hm, -⟩ := lastId?_child hl hc
  rw [hm]
  rfl

theorem widthFields_getElem? {fs : List Field} {f : Field} {w : Nat} (h : widthFields fs = some w)
    (hf : fs[i]? = some f) : ∃ u, f.ty.width = some u ∧ u ≤ w := by
  induction fs generalizing i w with
  | nil => simp at hf
  | cons g fs ih =>
    cases g
    simp only [widthFields, Option.bind_eq_some_iff] at h
    obtain ⟨a, ha, r, hr, h⟩ := h
    obtain ⟨rfl, -⟩ := word?_eq_some_iff.1 h
    cases i with
    | zero =>
      obtain rfl : _ = f := by simpa using hf
      exact ⟨a, ha, by omega⟩
    | succ i =>
      obtain ⟨u, hu, hle⟩ := ih hr (by simpa using hf)
      exact ⟨u, hu, by omega⟩

/-- A part is at most as wide as the whole. -/
theorem width_child {w : Nat} (h : t.width = some w) (hc : t.child? i = some c) :
    ∃ u, c.width = some u ∧ u ≤ w := by
  cases t with
  | ground g => cases hc
  | bundle fs =>
    obtain ⟨f, hf, rfl⟩ := Option.map_eq_some_iff.1 hc
    exact widthFields_getElem? h hf
  | vector e n =>
    simp only [child?] at hc
    split at hc
    next hi =>
      obtain rfl := Option.some.inj hc
      rw [width, Option.bind_eq_some_iff] at h
      obtain ⟨u, hu, h⟩ := h
      obtain ⟨rfl, -⟩ := word?_eq_some_iff.1 h
      exact ⟨u, hu, Nat.le_mul_of_pos_right u (by omega)⟩
    next => cases hc

/-- The parts of a type that may be kept may be kept. -/
theorem preservable_child (h : t.preservable) (hc : t.child? i = some c) : c.preservable := by
  simp only [preservable, Bool.and_eq_true, Bool.not_eq_true'] at h ⊢
  obtain ⟨⟨hp, ha⟩, hz⟩ := h
  cases t with
  | ground g => cases hc
  | bundle fs =>
    obtain ⟨f, hf, rfl⟩ := Option.map_eq_some_iff.1 hc
    have hmem := List.mem_of_getElem? hf
    simp only [passive, passiveFields_eq, List.all_eq_true] at hp
    simp only [hasAnalog, hasAnalogFields_eq, List.any_eq_false] at ha
    simp only [hasZeroWidth, hasZeroWidthFields_eq, Bool.or_eq_false_iff, List.any_eq_false] at hz
    have := hp f hmem
    simp only [Bool.and_eq_true] at this
    exact ⟨⟨this.2, by simpa using ha f hmem⟩, by simpa using hz.2 f hmem⟩
  | vector e n =>
    simp only [child?] at hc
    split at hc
    next hi =>
      obtain rfl := Option.some.inj hc
      simp only [hasZeroWidth, Bool.or_eq_false_iff] at hz
      exact ⟨⟨hp, ha⟩, hz.2⟩
    next => cases hc

/-- An aggregate that may be kept has a part. -/
theorem exists_child_of_preservable (h : t.preservable) (hg : t.isGround = false) :
    ∃ c, t.child? 0 = some c := by
  simp only [preservable, Bool.and_eq_true, Bool.not_eq_true'] at h
  cases t with
  | ground g => cases hg
  | bundle fs =>
    cases fs with
    | nil => simp [hasZeroWidth] at h
    | cons f fs => exact ⟨f.ty, rfl⟩
  | vector e n =>
    simp only [hasZeroWidth, Bool.or_eq_false_iff, beq_eq_false_iff_ne] at h
    exact ⟨e, by simp [child?, Nat.pos_of_ne_zero h.2.1]⟩

/-! ## Masks -/

@[simp] theorem isGround_mask (t : Ty) : t.mask.isGround = t.isGround := by
  cases t <;> rfl

theorem child?_mask (t : Ty) (i : Nat) : t.mask.child? i = (t.child? i).map mask := by
  cases t with
  | ground g => rfl
  | bundle fs => simp [mask, child?, Function.comp_def]
  | vector e n =>
    simp only [mask, child?]
    split <;> rfl

@[simp] theorem lastId?_mask (t : Ty) : t.mask.lastId? = t.lastId? := by
  induction t with
  | ground g => rfl
  | bundle fs ih =>
    simp only [mask, lastId?, maskFields_eq]
    induction fs with
    | nil => rfl
    | cons f fs ihs =>
      rw [List.map_cons, spans?_cons, spans?_cons, ihs fun g hg => ih g (List.mem_cons_of_mem _ hg)]
      simp only [span?, ih f List.mem_cons_self]
  | vector e n ih => simp only [mask, lastId?, ih]

@[simp] theorem depth_mask (t : Ty) : t.mask.depth = t.depth := by
  induction t with
  | ground g => rfl
  | bundle fs ih =>
    simp only [mask, depth, maskFields_eq]
    congr 1
    induction fs with
    | nil => rfl
    | cons f fs ihs =>
      cases f
      rw [List.map_cons, depthFields, depthFields, ihs fun g hg => ih g (List.mem_cons_of_mem _ hg)]
      rw [ih _ List.mem_cons_self]
  | vector e n ih => simp only [mask, depth, ih]

theorem depth_pos (h : t.isGround = false) : 0 < t.depth := by
  cases t with
  | ground g => cases h
  | bundle fs => exact Nat.succ_pos _
  | vector e n => exact Nat.succ_pos _

theorem depth_of_isGround (h : t.isGround) : t.depth = 0 := by
  cases t with
  | ground g => rfl
  | bundle fs => cases h
  | vector e n => cases h

/-! ## The list of parts -/

/-- `ps` are the parts of `t`, in order. -/
structure PartsOf (t : Ty) (ps : List Part) : Prop where
  aggregate : t.isGround = false
  index : ∀ {i : Nat} {p : Part}, ps[i]? = some p → p.index = i
  child : ∀ {i : Nat} {p : Part}, ps[i]? = some p → t.child? i = some p.ty
  fieldId : ∀ {i : Nat} {p : Part}, ps[i]? = some p → t.childId? i = some p.fieldId
  flip : ∀ {i : Nat} {p : Part} {fs : List Field}, ps[i]? = some p → t = .bundle fs →
    fs[i]?.map (·.flip) = some p.flip
  noFlip : ∀ {i : Nat} {p : Part} {e : Ty} {n : Nat}, ps[i]? = some p → t = .vector e n →
    p.flip = false
  all : ∀ {i : Nat} {c : Ty}, t.child? i = some c → i < ps.length

namespace PartsOf

variable {ps : List Part} {p : Part}

theorem child_index (h : PartsOf t ps) (hp : p ∈ ps) : t.child? p.index = some p.ty := by
  obtain ⟨i, hi⟩ := List.mem_iff_getElem?.1 hp
  rw [h.index hi]
  exact h.child hi

theorem fieldId_index (h : PartsOf t ps) (hp : p ∈ ps) : t.childId? p.index = some p.fieldId := by
  obtain ⟨i, hi⟩ := List.mem_iff_getElem?.1 hp
  rw [h.index hi]
  exact h.fieldId hi

theorem getElem?_index (h : PartsOf t ps) (hp : p ∈ ps) : ps[p.index]? = some p := by
  obtain ⟨i, hi⟩ := List.mem_iff_getElem?.1 hp
  rw [h.index hi]
  exact hi

theorem depth_lt (h : PartsOf t ps) (hp : p ∈ ps) : p.ty.depth < t.depth :=
  depth_lt_of_child? (h.child_index hp)

theorem getElem?_of_child (h : PartsOf t ps) (hc : t.child? i = some c) :
    ∃ p, ps[i]? = some p ∧ p.ty = c := by
  have hlt := h.all hc
  refine ⟨ps[i], List.getElem?_eq_getElem hlt, ?_⟩
  have := h.child (List.getElem?_eq_getElem hlt)
  rw [hc] at this
  exact (Option.some.inj this).symm

end PartsOf

/-- The types of the parts, in order. -/
def children : Ty → List Ty
  | ground _ => []
  | bundle fs => fs.map (·.ty)
  | vector e n => List.replicate n e

theorem getElem?_children (t : Ty) (i : Nat) : t.children[i]? = t.child? i := by
  cases t with
  | ground g => rfl
  | bundle fs => exact List.getElem?_map
  | vector e n => exact List.getElem?_replicate

/-- Induction over a type, with a hypothesis for every part. -/
theorem children_induction {motive : Ty → Prop} (h : ∀ t, (∀ c ∈ t.children, motive c) → motive t) (t : Ty) :
    motive t := by
  induction t with
  | ground g => exact h _ nofun
  | bundle fs ih =>
    refine h _ fun c hc => ?_
    obtain ⟨f, hf, rfl⟩ := List.mem_map.1 hc
    exact ih f hf
  | vector e n ih => exact h _ fun c hc => List.eq_of_mem_replicate hc ▸ ih

theorem PartsOf.map_ty {ps : List Part} (h : PartsOf t ps) : ps.map (·.ty) = t.children := by
  refine List.ext_getElem? fun i => ?_
  rw [List.getElem?_map, getElem?_children]
  cases hc : t.child? i with
  | some c =>
    obtain ⟨p, hp, rfl⟩ := h.getElem?_of_child hc
    rw [hp]
    rfl
  | none =>
    cases hp : ps[i]? with
    | none => rfl
    | some p =>
      have := h.child hp
      rw [hc] at this
      cases this

mutual

/-- What is left of a type once it is split to the end: aggregates that may be kept stay whole where
`keep` is set. -/
def pieces (keep : Bool) : Ty → List Ty
  | .ground g => [.ground g]
  | .bundle fs => if keep && (bundle fs).preservable then [.bundle fs] else piecesFields keep fs
  | .vector e n =>
    if keep && (vector e n).preservable then [.vector e n] else (List.replicate n (pieces keep e)).flatten

/-- What is left of each field. -/
def piecesFields (keep : Bool) : List Field → List Ty
  | [] => []
  | ⟨_, _, t⟩ :: fs => pieces keep t ++ piecesFields keep fs

end

@[simp] theorem piecesFields_eq (keep : Bool) (fs : List Field) :
    piecesFields keep fs = fs.flatMap fun f => pieces keep f.ty := by
  induction fs with
  | nil => rfl
  | cons f fs ih => cases f; simp [piecesFields, ih]

theorem pieces_of_whole {keep : Bool} (h : t.isGround ∨ keep = true ∧ t.preservable) :
    t.pieces keep = [t] := by
  cases t with
  | ground g => rfl
  | bundle fs | vector e n => rcases h with h | ⟨rfl, h⟩ <;> simp_all [pieces, isGround]

theorem pieces_of_split {keep : Bool} (hg : t.isGround = false) (hk : ¬(keep = true ∧ t.preservable)) :
    t.pieces keep = t.children.flatMap (pieces keep) := by
  cases t with
  | ground g => cases hg
  | bundle fs => simp_all [pieces, children, List.flatMap_map]
  | vector e n => simp_all [pieces, children, List.flatMap_replicate]

/-- A type that is split leaves what its parts leave. -/
theorem PartsOf.pieces_eq {ps : List Part} {keep : Bool} (h : PartsOf t ps)
    (hk : ¬(keep = true ∧ t.preservable)) : t.pieces keep = ps.flatMap fun p => p.ty.pieces keep := by
  rw [pieces_of_split h.aggregate hk, ← h.map_ty, List.flatMap_map]

/-- An aggregate is as wide as its parts together. -/
theorem width_children {w : Nat} (h : t.width = some w) (hg : t.isGround = false) :
    total (t.children.map fun c => c.width.getD 0) = w ∧ ∀ c ∈ t.children, c.width.isSome := by
  cases t with
  | ground g => cases hg
  | bundle fs =>
    replace h : widthFields fs = some w := h
    simp only [children, List.map_map]
    induction fs generalizing w with
    | nil =>
      obtain rfl := Option.some.inj h
      exact ⟨rfl, by simp⟩
    | cons f fs ih =>
      obtain ⟨name, flip, t⟩ := f
      simp only [widthFields, Option.bind_eq_some_iff] at h
      obtain ⟨a, ha, r, hr, h⟩ := h
      obtain ⟨rfl, -⟩ := word?_eq_some_iff.1 h
      obtain ⟨h₁, h₂⟩ := ih rfl hr
      refine ⟨?_, fun c hc => ?_⟩
      · rw [List.map_cons, total, h₁]
        simp [ha]
      · rcases List.mem_cons.1 hc with rfl | hc
        · rw [ha]
          rfl
        · exact h₂ c hc
  | vector e n =>
    rw [width, Option.bind_eq_some_iff] at h
    obtain ⟨a, ha, h⟩ := h
    obtain ⟨rfl, -⟩ := word?_eq_some_iff.1 h
    refine ⟨?_, fun c hc => ?_⟩
    · rw [children, List.map_replicate, ha, Option.getD_some, total_replicate]
    · rw [List.eq_of_mem_replicate hc, ha]
      rfl

theorem partAt_ends {ty : Ty} {label : String} {flip : Bool} (hm : must → (t.childId? i).isSome) :
    Ends must (t.partAt i ty label flip) fun p =>
      p.index = i ∧ p.ty = ty ∧ p.flip = flip ∧ t.childId? i = some p.fieldId := by
  unfold partAt
  exact (Ends.orOverflow (fun _ h => h) hm).bind fun f hf => .pure ⟨rfl, rfl, rfl, hf⟩

theorem parts_ends (hg : t.isGround = false) (hm : must → t.lastId?.isSome) :
    Ends must t.parts (PartsOf t) := by
  have hid : must → ∀ {i c}, t.child? i = some c → (t.childId? i).isSome := by
    intro h i c hc
    obtain ⟨l, hl⟩ := Option.isSome_iff_exists.1 (hm h)
    obtain ⟨m, f, -, hf, -⟩ := lastId?_child hl hc
    rw [hf]
    rfl
  cases t with
  | ground g => cases hg
  | bundle fs =>
    refine (Ends.mapM (fun (x : Field × Nat) p => p.index = x.2 ∧ p.ty = x.1.ty ∧ p.flip = x.1.flip ∧
      (bundle fs).childId? x.2 = some p.fieldId) fs.zipIdx ?_).mono
      fun ps hps => ?_
    · rintro ⟨f, i⟩ hx
      have hf := List.mem_zipIdx_iff_getElem?.1 hx
      refine partAt_ends fun h => ?_
      exact hid h (c := f.ty) (by simpa [child?] using ⟨f, hf, rfl⟩)
    · have hlen : ps.length = fs.length := by simpa using hps.length_eq.symm
      have hget : ∀ {i p}, ps[i]? = some p → ∃ f, fs[i]? = some f ∧ p.index = i ∧ p.ty = f.ty ∧
          p.flip = f.flip ∧ (bundle fs).childId? i = some p.fieldId := by
        intro i p hp
        obtain ⟨hi, rfl⟩ := List.getElem?_eq_some_iff.1 hp
        have := hps.get (i := i) (by simpa [← hlen] using hi) hi
        simp only [List.get_eq_getElem, List.getElem_zipIdx, Nat.zero_add] at this
        obtain ⟨h₁, h₂, h₃, h₄⟩ := this
        exact ⟨_, List.getElem?_eq_getElem (by omega), h₁, h₂, h₃, h₄⟩
      refine ⟨rfl, fun hp => ?_, fun hp => ?_, fun hp => ?_, fun hp he => ?_, fun hp he => ?_, fun hc => ?_⟩
      · obtain ⟨f, -, h, -⟩ := hget hp
        exact h
      · obtain ⟨f, hf, -, h, -⟩ := hget hp
        simp [child?, hf, h]
      · obtain ⟨f, -, -, -, -, h⟩ := hget hp
        exact h
      · cases he
        obtain ⟨f, hf, -, -, h, -⟩ := hget hp
        simp [hf, h]
      · cases he
      · obtain ⟨f, hf, -⟩ := Option.map_eq_some_iff.1 hc
        rw [hlen]
        exact (List.getElem?_eq_some_iff.1 hf).1
  | vector e n =>
    refine (Ends.mapM (fun (j : Nat) p => p.index = j ∧ p.ty = e ∧ p.flip = false ∧
      (vector e n).childId? j = some p.fieldId) (List.range n) ?_).mono
      fun ps hps => ?_
    · intro j hj
      exact partAt_ends fun h => hid h (c := e) (by simp [child?, List.mem_range.1 hj])
    · have hlen : ps.length = n := by simpa using hps.length_eq.symm
      have hget : ∀ {i p}, ps[i]? = some p → i < n ∧ p.index = i ∧ p.ty = e ∧ p.flip = false ∧
          (vector e n).childId? i = some p.fieldId := by
        intro i p hp
        obtain ⟨hi, rfl⟩ := List.getElem?_eq_some_iff.1 hp
        have := hps.get (i := i) (by simpa [← hlen] using hi) hi
        simp only [List.get_eq_getElem, List.getElem_range] at this
        obtain ⟨h₁, h₂, h₃, h₄⟩ := this
        exact ⟨by omega, h₁, h₂, h₃, h₄⟩
      refine ⟨rfl, fun hp => ?_, fun hp => ?_, fun hp => ?_, fun hp he => ?_, fun hp he => ?_, fun hc => ?_⟩
      · exact (hget hp).2.1
      · obtain ⟨hi, -, h, -⟩ := hget hp
        simp [child?, hi, h]
      · exact (hget hp).2.2.2.2
      · cases he
      · exact (hget hp).2.2.2.1
      · simp only [child?] at hc
        split at hc
        · omega
        · cases hc

/-- What is split: the type stays whole if it is ground or kept. -/
theorem peel_ends {keep : Bool} (hm : must → t.lastId?.isSome) :
    Ends must (t.peel keep) fun r => match r with
      | none => t.isGround ∨ keep = true ∧ t.preservable
      | some ps => PartsOf t ps ∧ ¬(keep = true ∧ t.preservable) := by
  unfold peel
  split
  next h => exact .pure (by simpa using h)
  next h =>
    simp only [Bool.or_eq_true, Bool.and_eq_true, not_or, Bool.not_eq_true] at h
    exact .map ((parts_ends h.1 hm).mono fun ps hps => ⟨hps, fun hk => h.2 hk⟩)

end Scalarize.Ty
