/-!
# Hardware types

* `Ground` : the types without structure, `Ground.width` their bit width where it is known;
* `Ty` : a ground type, a bundle of named fields, or a vector of equal elements; `Field` : one
  field of a bundle, which may be flipped against its bundle;
* `Ty.induct` : induction with a hypothesis for every field of a bundle;
* `Ty.width`, `Ty.passive`, `Ty.hasAnalog`, `Ty.hasZeroWidth`, `Ty.mask`, `Ty.depth` : structural
  recursion over the type, each with an equation that reads a bundle through its field list;
* `Ty.child?`, `Ty.field?` : the immediate parts, by position and by name;
* `Ty.text` : the written form.
-/

namespace Scalarize

/-- Types without bundle or vector structure; a width is absent until it is inferred. -/
inductive Ground where
  | uint (width : Option Nat)
  | sint (width : Option Nat)
  | analog (width : Option Nat)
  | clock
  | reset
  | asyncReset
  deriving DecidableEq, Repr, Inhabited

mutual

/-- A hardware type. -/
inductive Ty where
  | ground (g : Ground)
  | bundle (fields : List Field)
  | vector (element : Ty) (len : Nat)

/-- A field of a bundle; a flipped field flows against its bundle. -/
structure Field where
  name : String
  flip : Bool
  ty : Ty

end

namespace Ty

instance : Inhabited Ty := ⟨.ground .clock⟩

/-- Unsigned integer of a known width. -/
abbrev uint (width : Nat) : Ty := .ground (.uint (some width))

/-- Signed integer of a known width. -/
abbrev sint (width : Nat) : Ty := .ground (.sint (some width))

/-- Clock signal. -/
abbrev clock : Ty := .ground .clock

/-! ## Induction and equality -/

/-- Induction over a type, with a hypothesis for every field of a bundle. -/
@[elab_as_elim, induction_eliminator]
theorem induct {motive : Ty → Prop} (ground : ∀ g, motive (.ground g))
    (bundle : ∀ fields : List Field, (∀ f ∈ fields, motive f.ty) → motive (.bundle fields))
    (vector : ∀ element len, motive element → motive (.vector element len)) (t : Ty) : motive t :=
  Ty.rec (motive_1 := motive) (motive_2 := fun f => motive f.ty)
    (motive_3 := fun fs => ∀ f ∈ fs, motive f.ty) ground bundle vector (fun _ _ _ h => h)
    (by simp) (fun _ _ hf hr => by simpa using ⟨hf, hr⟩) t

mutual

/-- Equality of types is decidable. -/
protected def decEq : (a b : Ty) → Decidable (a = b)
  | .ground g, .ground h =>
    if e : g = h then isTrue (by rw [e]) else isFalse (fun he => e (by injection he))
  | .bundle fs, .bundle gs =>
    match Ty.decEqFields fs gs with
    | isTrue e => isTrue (by rw [e])
    | isFalse e => isFalse (fun he => e (by injection he))
  | .vector s m, .vector t n =>
    match Ty.decEq s t with
    | isTrue e =>
      if h : m = n then isTrue (by rw [e, h]) else isFalse (fun he => h (by injection he))
    | isFalse e => isFalse (fun he => e (by injection he))
  | .ground _, .bundle _ => isFalse (fun he => by injection he)
  | .ground _, .vector _ _ => isFalse (fun he => by injection he)
  | .bundle _, .ground _ => isFalse (fun he => by injection he)
  | .bundle _, .vector _ _ => isFalse (fun he => by injection he)
  | .vector _ _, .ground _ => isFalse (fun he => by injection he)
  | .vector _ _, .bundle _ => isFalse (fun he => by injection he)

/-- Equality of field lists is decidable. -/
protected def decEqFields : (a b : List Field) → Decidable (a = b)
  | [], [] => isTrue rfl
  | [], _ :: _ => isFalse (fun he => by injection he)
  | _ :: _, [] => isFalse (fun he => by injection he)
  | ⟨n, p, s⟩ :: fs, ⟨m, q, t⟩ :: gs =>
    match Ty.decEq s t, Ty.decEqFields fs gs with
    | isTrue e, isTrue es =>
      if h : n = m ∧ p = q then isTrue (by rw [e, es, h.1, h.2])
      else isFalse (fun he => h (by
        injection he with hf _
        injection hf with hn hp _
        exact ⟨hn, hp⟩))
    | isFalse e, _ => isFalse (fun he => e (by
        injection he with hf _
        injection hf))
    | _, isFalse es => isFalse (fun he => es (by injection he))

end

instance : DecidableEq Ty := Ty.decEq

end Ty

instance : DecidableEq Field := fun ⟨n, p, s⟩ ⟨m, q, t⟩ =>
  decidable_of_iff (n = m ∧ p = q ∧ s = t) (by simp)

/-! ## Ground types -/

/-- Bit width; clocks and resets are one bit wide. -/
def Ground.width : Ground → Option Nat
  | .uint w | .sint w | .analog w => w
  | .clock | .reset | .asyncReset => some 1

/-- Written form of a type whose width may be absent. -/
def widthText (name : String) : Option Nat → String
  | some w => s!"{name}<{w}>"
  | none => name

/-- Written form of a ground type. -/
def Ground.text : Ground → String
  | .uint w => widthText "UInt" w
  | .sint w => widthText "SInt" w
  | .analog w => widthText "Analog" w
  | .clock => "Clock"
  | .reset => "Reset"
  | .asyncReset => "AsyncReset"

/-- Numbers are held in 64-bit words: `none` beyond them. -/
def word? (n : Nat) : Option Nat := if n < UInt64.size then some n else none

/-- The numbers of a list added up. -/
def total : List Nat → Nat
  | [] => 0
  | n :: ns => n + total ns

@[simp] theorem total_append (ns ms : List Nat) : total (ns ++ ms) = total ns + total ms := by
  induction ns with
  | nil => simp [total]
  | cons n ns ih => simp [total, ih, Nat.add_assoc]

theorem total_replicate (n w : Nat) : total (List.replicate n w) = w * n := by
  induction n with
  | zero => rfl
  | succ n ih => rw [List.replicate_succ, total, ih, Nat.mul_succ, Nat.add_comm]

theorem word?_eq_some_iff {n m : Nat} : word? n = some m ↔ m = n ∧ n < UInt64.size := by
  unfold word?
  split <;> simp_all [eq_comm]
  omega

namespace Ty

/-! ## Shape -/

/-- A type without bundle or vector structure. -/
def isGround : Ty → Bool
  | .ground _ => true
  | _ => false

/-- A bundle or a vector. -/
def isAggregate (t : Ty) : Bool := !t.isGround

/-- The fields of a bundle. -/
def fields : Ty → List Field
  | .bundle fs => fs
  | _ => []

/-- Type of the immediate part at a position. -/
def child? : Ty → Nat → Option Ty
  | .ground _, _ => none
  | .bundle fs, i => fs[i]?.map (·.ty)
  | .vector e n, i => if i < n then some e else none

/-- First field of a bundle with a name, and its position. -/
def field? (t : Ty) (name : String) : Option (Nat × Field) :=
  (t.fields.zipIdx.find? (·.1.name == name)).map fun (f, i) => (i, f)

mutual

/-- Number of layers of structure above the deepest leaf. -/
def depth : Ty → Nat
  | .ground _ => 0
  | .bundle fs => depthFields fs + 1
  | .vector e _ => e.depth + 1

/-- The largest depth in a field list. -/
def depthFields : List Field → Nat
  | [] => 0
  | ⟨_, _, t⟩ :: fs => max t.depth (depthFields fs)

end

theorem depth_le_depthFields {f : Field} {fs : List Field} (h : f ∈ fs) :
    f.ty.depth ≤ depthFields fs := by
  induction fs with
  | nil => simp at h
  | cons g fs ih =>
    cases g
    rcases List.mem_cons.1 h with rfl | h
    · simp only [depthFields]; omega
    · have := ih h
      simp only [depthFields]; omega

/-- A part lies strictly below the type that holds it. -/
theorem depth_lt_of_child? {t c : Ty} {i : Nat} (h : t.child? i = some c) : c.depth < t.depth := by
  cases t with
  | ground g => simp [child?] at h
  | bundle fs =>
    obtain ⟨f, hf, rfl⟩ := Option.map_eq_some_iff.1 h
    have := depth_le_depthFields (List.mem_of_getElem? hf)
    simp only [depth]; omega
  | vector e n =>
    simp only [child?] at h
    split at h <;> simp_all [depth]

/-! ## Width -/

mutual

/-- Total bit width; `none` if some width is unknown or the total leaves the 64-bit range. -/
def width : Ty → Option Nat
  | .ground g => g.width
  | .bundle fs => widthFields fs
  | .vector e n => e.width.bind fun w => word? (w * n)

/-- Total bit width of a field list. -/
def widthFields : List Field → Option Nat
  | [] => some 0
  | ⟨_, _, t⟩ :: fs => t.width.bind fun w => (widthFields fs).bind fun r => word? (w + r)

end

/-! ## Flow and leaves -/

mutual

/-- No field anywhere is flipped. -/
def passive : Ty → Bool
  | .ground _ => true
  | .bundle fs => passiveFields fs
  | .vector e _ => e.passive

/-- No field of the list is flipped, at any depth. -/
def passiveFields : List Field → Bool
  | [] => true
  | ⟨_, flip, t⟩ :: fs => !flip && t.passive && passiveFields fs

end

@[simp] theorem passiveFields_eq (fs : List Field) :
    passiveFields fs = fs.all fun f => !f.flip && f.ty.passive := by
  induction fs with
  | nil => rfl
  | cons f fs ih => cases f; simp [passiveFields, ih, Bool.and_assoc]

mutual

/-- An analog leaf is reachable. -/
def hasAnalog : Ty → Bool
  | .ground (.analog _) => true
  | .ground _ => false
  | .bundle fs => hasAnalogFields fs
  | .vector e _ => e.hasAnalog

/-- An analog leaf is reachable from the list. -/
def hasAnalogFields : List Field → Bool
  | [] => false
  | ⟨_, _, t⟩ :: fs => t.hasAnalog || hasAnalogFields fs

end

@[simp] theorem hasAnalogFields_eq (fs : List Field) :
    hasAnalogFields fs = fs.any fun f => f.ty.hasAnalog := by
  induction fs with
  | nil => rfl
  | cons f fs ih => cases f; simp [hasAnalogFields, ih]

mutual

/-- A leaf of width zero or an empty aggregate is reachable; an unknown width counts as zero. -/
def hasZeroWidth : Ty → Bool
  | .ground g => g.width.getD 0 == 0
  | .bundle fs => fs.isEmpty || hasZeroWidthFields fs
  | .vector e n => n == 0 || e.hasZeroWidth

/-- A leaf of width zero or an empty aggregate is reachable from the list. -/
def hasZeroWidthFields : List Field → Bool
  | [] => false
  | ⟨_, _, t⟩ :: fs => t.hasZeroWidth || hasZeroWidthFields fs

end

@[simp] theorem hasZeroWidthFields_eq (fs : List Field) :
    hasZeroWidthFields fs = fs.any fun f => f.ty.hasZeroWidth := by
  induction fs with
  | nil => rfl
  | cons f fs ih => cases f; simp [hasZeroWidthFields, ih]

/-- An aggregate that may be kept whole: it flows one way, holds no analog leaf and no part of
width zero. -/
def preservable (t : Ty) : Bool := t.passive && !t.hasAnalog && !t.hasZeroWidth

/-! ## Masks -/

mutual

/-- The same structure, every leaf one unsigned bit and nothing flipped. -/
def mask : Ty → Ty
  | .ground _ => .uint 1
  | .bundle fs => .bundle (maskFields fs)
  | .vector e n => .vector e.mask n

/-- The mask of every field. -/
def maskFields : List Field → List Field
  | [] => []
  | ⟨name, _, t⟩ :: fs => ⟨name, false, t.mask⟩ :: maskFields fs

end

@[simp] theorem maskFields_eq (fs : List Field) :
    maskFields fs = fs.map fun f => ⟨f.name, false, f.ty.mask⟩ := by
  induction fs with
  | nil => rfl
  | cons f fs ih => cases f; simp [maskFields, ih]

/-! ## Written form -/

mutual

/-- Written form: bundles in braces with `flip` in front of a flipped field, vectors with their
length in brackets. -/
def text : Ty → String
  | .ground g => g.text
  | .bundle fs => "\x7b" ++ ", ".intercalate (textFields fs) ++ "\x7d"
  | .vector e n => s!"{e.text}[{n}]"

/-- Written form of each field. -/
def textFields : List Field → List String
  | [] => []
  | ⟨name, flip, t⟩ :: fs =>
    ((if flip then "flip " else "") ++ name ++ ": " ++ t.text) :: textFields fs

end

end Ty

end Scalarize
