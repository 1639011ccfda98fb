import Mathlib.Data.Nat.Bitwise
import Scalarize.Proofs.Leaves

/-!
# Words

A value of a type holds a string of bits at each leaf of the type, the low bit first.

* `fit`, `Ground.fit` : a string cut off or filled up to a width;
* `digits`, `natOf`, `Ground.number`, `Ty.number` : numbers in binary;
* `Ty.pack`, `Ty.unpack` : the bits of the leaves strung together, the first leaf lowest, and cut out again;
* `Ty.Exact`, `Ty.Accepts` : bits where there are leaves only, as many as the leaf is wide.
-/

namespace Scalarize

/-! ## Strings of a width -/

/-- The first `n` bits of a string, with zeros behind its end. -/
def fit (n : Nat) (bits : List Bool) : List Bool := (List.range n).map fun i => bits.getD i false

section Fit

variable {n m low : Nat} {bits : List Bool}

@[simp] theorem length_fit (n : Nat) (bits : List Bool) : (fit n bits).length = n := by simp [fit]

theorem getD_fit (n : Nat) (bits : List Bool) (i : Nat) :
    (fit n bits).getD i false = if i < n then bits.getD i false else false := by
  unfold fit
  split
  next h => simp [List.getD_eq_getElem?_getD, h]
  next h => simp [List.getD_eq_getElem?_getD, h]

theorem fit_congr {bits' : List Bool} (h : ∀ i < n, bits.getD i false = bits'.getD i false) : fit n bits = fit n bits' :=
  List.map_congr_left fun i hi => h i (List.mem_range.1 hi)

/-- A string of the width stays as it is. -/
theorem fit_eq_self (h : bits.length = n) : fit n bits = bits := by
  subst h
  refine List.ext_getElem (by simp) fun i hi hi' => ?_
  simp [fit, List.getD_eq_getElem?_getD, hi']

@[simp] theorem fit_fit (n : Nat) (bits : List Bool) : fit n (fit n bits) = fit n bits := fit_eq_self (length_fit n bits)

@[simp] theorem fit_zero (bits : List Bool) : fit 0 bits = [] := rfl

theorem fit_nil (n : Nat) : fit n [] = List.replicate n false := by simp [fit]

/-- Bits within a longer string are those of the string that it was made from. -/
theorem fit_drop_fit (h : low + n ≤ m) : fit n ((fit m bits).drop low) = fit n (bits.drop low) := by
  refine fit_congr fun i hi => ?_
  have hlt : low + i < m := by omega
  simpa [List.getD_eq_getElem?_getD, hlt] using getD_fit m bits (low + i)

theorem fit_take (n : Nat) (bits : List Bool) : fit n (bits.take n) = fit n bits := by
  refine fit_congr fun i hi => ?_
  simp [List.getD_eq_getElem?_getD, hi]

end Fit

namespace Ground

/-- The bits as many as the type is wide, if its width is known. -/
def fit (g : Ground) (bits : List Bool) : List Bool :=
  match g.width with
  | some n => Scalarize.fit n bits
  | none => bits

theorem fit_eq {g : Ground} {n : Nat} (h : g.width = some n) (bits : List Bool) : g.fit bits = Scalarize.fit n bits := by
  rw [fit, h]

theorem length_fit {g : Ground} {n : Nat} (h : g.width = some n) (bits : List Bool) : (g.fit bits).length = n := by
  rw [fit_eq h, Scalarize.length_fit]

@[simp] theorem fit_fit (g : Ground) (bits : List Bool) : g.fit (g.fit bits) = g.fit bits := by
  unfold fit
  cases g.width <;> simp

end Ground

/-! ## Numbers -/

/-- The low `n` binary digits of a number. -/
def digits (n value : Nat) : List Bool := (List.range n).map value.testBit

/-- The number with these binary digits. -/
def natOf (bits : List Bool) : Nat := bits.foldr Nat.bit 0

theorem natOf_digits {n value : Nat} (h : value < 2 ^ n) : natOf (digits n value) = value := by
  induction n generalizing value with
  | zero =>
    obtain rfl : value = 0 := by simpa using h
    rfl
  | succ n ih =>
    have hdigits : digits (n + 1) value = value.testBit 0 :: digits n (value >>> 1) := by
      unfold digits
      rw [List.range_succ_eq_map, List.map_cons, List.map_map]
      congr 1
      exact List.map_congr_left fun i _ => by simp [Nat.testBit_shiftRight, Nat.add_comm]
    have hlt : value >>> 1 < 2 ^ n := by
      rw [Nat.shiftRight_eq_div_pow]
      omega
    rw [hdigits, natOf, List.foldr_cons]
    change Nat.bit _ (natOf (digits n (value >>> 1))) = value
    rw [ih hlt]
    exact Nat.bit_testBit_zero_shiftRight_one value

theorem lt_two_pow_bitLength (n : Nat) : n < 2 ^ bitLength n := by
  unfold bitLength
  split
  next h => simp [h]
  next h => exact Nat.lt_log2_self

/-- The digits of a literal: as many as the type is wide, and all that it has. -/
def Ground.literal (g : Ground) (value : Nat) : List Bool := digits (max (g.width.getD 0) (bitLength value)) value

theorem Ground.natOf_literal (g : Ground) (value : Nat) : natOf (g.literal value) = value :=
  natOf_digits (Nat.lt_of_lt_of_le (lt_two_pow_bitLength value) (Nat.pow_le_pow_right (by decide) (Nat.le_max_right _ _)))

/-- The number that bits stand for; the highest bit of a signed integer counts negative. -/
def Ground.number : Ground → List Bool → Int
  | .sint _, bits => if bits.getLast? = some true then natOf bits - 2 ^ bits.length else natOf bits
  | _, bits => natOf bits

theorem natOf_lt (bits : List Bool) : natOf bits < 2 ^ bits.length := by
  induction bits with
  | nil => simp [natOf]
  | cons a bits ih =>
    change Nat.bit a (natOf bits) < _
    rw [List.length_cons, Nat.pow_succ]
    cases a <;> simp only [Nat.bit_true, Nat.bit_false] <;> omega

/-- A number that is not negative is the one that is written. -/
theorem Ground.toNat_number {g : Ground} {bits : List Bool} (h : 0 ≤ g.number bits) :
    (g.number bits).toNat = natOf bits := by
  have hlt : (natOf bits : Int) < 2 ^ bits.length := by exact_mod_cast natOf_lt bits
  cases g with
  | sint w =>
    simp only [number] at h ⊢
    split at h
    next => omega
    next hs => rw [if_neg hs, Int.toNat_natCast]
  | _ => simp only [number, Int.toNat_natCast]

namespace Ty

variable {t c : Ty} {ps : List Part} {f : List Nat → List Bool} {word : List Bool} {i w : Nat}

/-- The number that a ground value stands for. -/
def number (t : Ty) (f : List Nat → List Bool) : Int :=
  match t with
  | .ground g => g.number (f [])
  | _ => 0

/-! ## Packing -/

/-- The bits of the leaves strung together, the first leaf lowest. -/
def pack (t : Ty) (f : List Nat → List Bool) : List Bool := t.leaves.flatMap fun l => l.ground.fit (f l.path)

/-- The bits of each leaf, cut out of a string. -/
def unpack (t : Ty) (word : List Bool) (path : List Nat) : List Bool :=
  match t.sub? path with
  | some (.ground g) => g.fit (word.drop (t.offset path))
  | _ => []

/-- An aggregate is packed part by part. -/
theorem PartsOf.pack_eq (h : PartsOf t ps) (f : List Nat → List Bool) :
    t.pack f = ps.flatMap fun p => p.ty.pack fun path => f (p.index :: path) := by
  unfold pack
  rw [h.leaves_eq, List.flatMap_assoc]
  refine List.flatMap_congr fun p _ => ?_
  rw [List.flatMap_map]
  rfl

theorem length_pack (h : t.width = some w) (f : List Nat → List Bool) : (t.pack f).length = w := by
  rw [pack, List.flatMap_def]
  refine length_flatten_leaves h (List.forall₂_map_left_iff.2 (List.forall₂_same.2 fun l hl => ?_))
  obtain ⟨u, hu, -⟩ := offset_add_le h (mem_leaves.1 hl).1
  change l.ground.width = some u at hu
  rw [Ground.length_fit hu, Leaf.width, hu]
  rfl

theorem pack_ground (g : Ground) (f : List Nat → List Bool) : (ground g).pack f = g.fit (f []) := by
  simp [pack, leaves]

theorem unpack_ground_nil (g : Ground) (word : List Bool) : (ground g).unpack word [] = g.fit word := rfl

/-- A part is cut out of what stands behind the parts in front of it. -/
theorem unpack_child (h : t.child? i = some c) (word : List Bool) :
    (fun path => t.unpack word (i :: path)) = c.unpack (word.drop (t.bitsBefore i)) := by
  funext path
  unfold unpack
  rw [sub?_child h, offset, h, Option.elim_some, List.drop_drop]

/-- What lies beyond the width does not matter. -/
theorem unpack_fit (h : t.width = some w) (word : List Bool) : t.unpack (fit w word) = t.unpack word := by
  funext path
  unfold unpack
  split
  next g hg =>
    obtain ⟨u, hu, hle⟩ := offset_add_le h hg
    rw [Ground.fit_eq hu, Ground.fit_eq hu, fit_drop_fit hle]
  next => rfl

theorem pack_unpack_ground (g : Ground) (word : List Bool) : (ground g).pack ((ground g).unpack word) = g.fit word := by
  rw [pack_ground, unpack_ground_nil, Ground.fit_fit]

/-! ## Bits at leaves -/

/-- Bits are at leaves only, and as many as the leaf is wide. -/
structure Exact (t : Ty) (f : List Nat → List Bool) : Prop where
  off : ∀ path, (∀ g, t.sub? path ≠ some (.ground g)) → f path = []
  length : ∀ {path g n}, t.sub? path = some (.ground g) → g.width = some n → (f path).length = n

/-- Bits are at leaves only, and in an aggregate as many as the leaf is wide. A ground value may be a literal too long
for its type. -/
structure Accepts (t : Ty) (f : List Nat → List Bool) : Prop where
  off : ∀ path, (∀ g, t.sub? path ≠ some (.ground g)) → f path = []
  exact : t.isGround = false → t.Exact f

theorem Exact.accepts (h : t.Exact f) : t.Accepts f := ⟨h.off, fun _ => h⟩

theorem exact_unpack (t : Ty) (word : List Bool) : t.Exact (t.unpack word) where
  off path h := by
    unfold unpack
    split
    next g hg => exact absurd hg (h g)
    next => rfl
  length hg hn := by
    unfold unpack
    rw [hg]
    exact Ground.length_fit hn _

theorem Exact.child (h : t.Exact f) (hc : t.child? i = some c) : c.Exact fun path => f (i :: path) where
  off path hp := h.off _ fun g => by
    rw [sub?_child hc]
    exact hp g
  length {path g n} hg hn := h.length (by rw [sub?_child hc, hg]) hn

theorem isGround_of_child? (h : t.child? i = some c) : t.isGround = false := by
  cases t with
  | ground g => cases h
  | _ => rfl

/-- The parts of an aggregate are exact. -/
theorem Accepts.child (h : t.Accepts f) (hc : t.child? i = some c) : c.Exact fun path => f (i :: path) :=
  (h.exact (isGround_of_child? hc)).child hc

/-- Bits of a ground value are at the root. -/
theorem holds_ground_iff {g : Ground} : (ground g).Accepts f ↔ ∀ path, path ≠ [] → f path = [] := by
  have hsub : ∀ {path}, path ≠ [] → ∀ g', (ground g).sub? path ≠ some (.ground g') := by
    rintro (_ | ⟨i, path⟩) h g' <;> simp_all [sub?, child?]
  constructor
  · exact fun h path hp => h.off path (hsub hp)
  · refine fun h => ⟨fun path hp => h path ?_, fun hg => by cases hg⟩
    rintro rfl
    exact hp g rfl

/-- A ground value of exact width is what its bits are cut into. -/
theorem Exact.unpack_pack_ground {g : Ground} (h : (ground g).Exact f) (hg : g.width = some w) :
    (ground g).unpack ((ground g).pack f) = f := by
  have hfit : g.fit (f []) = f [] := by
    rw [Ground.fit_eq hg]
    exact fit_eq_self (h.length rfl hg)
  funext path
  cases path with
  | nil => rw [pack_ground, unpack_ground_nil, Ground.fit_fit, hfit]
  | cons i path => rw [h.off (i :: path) (by simp [sub?, child?])]; rfl

end Ty

end Scalarize
