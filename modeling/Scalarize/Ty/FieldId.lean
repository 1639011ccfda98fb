import Scalarize.Ty

/-!
# Field IDs

A type numbers the nodes of its structure in pre-order: the whole value is 0, the first part is 1,
and the nodes below a part follow it directly. All arithmetic is checked against 64 bits.

* `Ty.lastId?` : the largest field ID of a type; `Ty.span?` : how many IDs it takes as a part;
* `Ty.childId?` : the ID of the part at a position;
* `Ty.childOf?` : the position of the part whose nodes hold an ID.
-/

namespace Scalarize.Ty

mutual

/-- The largest field ID of a type; `none` past 64 bits. -/
def lastId? : Ty → Option Nat
  | .ground _ => some 0
  | .bundle fs => spans? fs
  | .vector e n => e.lastId?.bind fun m => (word? (m + 1)).bind fun s => word? (n * s)

/-- How many IDs the fields of a list take together; `none` past 64 bits. -/
def spans? : List Field → Option Nat
  | [] => some 0
  | ⟨_, _, t⟩ :: fs =>
    t.lastId?.bind fun m => (word? (m + 1)).bind fun s => (spans? fs).bind fun r => word? (s + r)

end

/-- How many IDs a type takes as a part of another: one for itself and one for each node below. -/
def span? (t : Ty) : Option Nat := t.lastId?.bind fun m => word? (m + 1)

theorem spans?_cons (f : Field) (fs : List Field) :
    spans? (f :: fs) = f.ty.span?.bind fun s => (spans? fs).bind fun r => word? (s + r) := by
  cases f
  simp [spans?, span?, Option.bind_assoc]

theorem lastId?_vector (e : Ty) (n : Nat) :
    (vector e n).lastId? = e.span?.bind fun s => word? (n * s) := by
  simp [lastId?, span?, Option.bind_assoc]

/-- Field ID of the part at a position: all parts in front of it come first. The position just
past the last field of a bundle has an ID, later ones have none. -/
def childId? : Ty → Nat → Option Nat
  | .ground _, _ => none
  | .bundle fs, i => if i ≤ fs.length then (spans? (fs.take i)).bind fun s => word? (1 + s) else none
  | .vector e _, i => e.span?.bind fun s => word? (1 + i * s)

/-- Position of the first field that ends behind an ID, where `next` is the first ID of the list
and `i` the position of its head; the last position if the ID lies behind all fields. -/
def fieldOf? (id : Nat) : List Field → Nat → Nat → Option Nat
  | [], _, i => some (i - 1)
  | f :: fs, next, i =>
    f.ty.span?.bind fun s => (word? (next + s)).bind fun next =>
      if id < next then some i else fieldOf? id fs next (i + 1)

/-- Position of the part whose nodes hold an ID, which is not the ID of the whole. -/
def childOf? : Ty → Nat → Option Nat
  | .ground _, _ => none
  | .bundle fs, id => fieldOf? id fs 1 0
  | .vector e _, id => e.span?.map fun s => (id - 1) / s

end Scalarize.Ty
