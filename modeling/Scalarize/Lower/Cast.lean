import Scalarize.Lower.Producer

/-!
# Bit casts

A cast with an aggregate on either side goes through one unsigned value: the leaves are strung
together with the first one in the low bits, and cut out again in the same order.

* `Ty.castWidth` : the width of a type in a cast;
* `Lower.flatten` : an aggregate as one unsigned value; `Lower.slice` : one part of such a value;
* `Lower.bitcast` : replaces a cast.
-/

namespace Scalarize

/-- Width of a type in a cast, which must be known and fit in 32 bits. -/
def Ty.castWidth (t : Ty) : Except Failure Nat :=
  match t.width with
  | none => throw (.lower (.missingWidth t))
  | some w => if w < UInt32.size then return w else throw (.lower (.malformed (.wideCast w t)))

/-- Number of bits in front of the part at a position. -/
def bitOffset (parts : List Part) (index : Nat) : Nat :=
  total ((parts.take index).map fun p => p.ty.width.getD 0)

namespace Lower

/-- A value as another type, itself if it has that type. -/
def castTo (ty : Ty) (v : ValueId) : Build ValueId := do
  if (← Build.typeOf v) = ty then return v else Build.bitcast ty v

/-- Puts one part above the parts that are strung together so far; parts of width zero are left
out. -/
def appendPart (input : ValueId) (flat : Option ValueId) (part : Part) :
    Build (Option ValueId) := do
  let width ← part.ty.castWidth
  if width = 0 then return flat
  let leaf ← castTo (.uint width) (← Build.part input part.index)
  match flat with
  | none => return some leaf
  | some low => return some (← Build.cat leaf low)

/-- A value as one unsigned value. -/
def flatten (input : ValueId) : Build ValueId := do
  let ty ← Build.typeOf input
  match ← ty.peel false with
  | some parts =>
    match ← parts.foldlM (appendPart input) none with
    | some flat => return flat
    | none => Build.constant (.uint 0) 0
  | none =>
    match ty with
    | .ground (.uint _) => return input
    | _ => Build.asUInt input

/-- One part of an aggregate that is given as an unsigned value. -/
def slice (flat : ValueId) (parts : List Part) (part : Part) : Build ValueId := do
  let width ← part.ty.castWidth
  if width = 0 then Build.invalid part.ty
  else
    let low := bitOffset parts part.index
    let high := low + width - 1
    if UInt32.size ≤ high then throw (.lower (.malformed (.highSlice part.ty high)))
    let bits ← Build.bits flat high low
    if part.ty = .uint width then return bits else Build.bitcast part.ty bits

/-- Replaces a cast with an aggregate on either side. -/
def bitcast (o : OpId) : Lower Bool := do
  let input ← body (·.operand o 0)
  let result ← body (·.result o 0)
  let inputTy ← body (·.typeOf input)
  let resultTy ← body (·.typeOf result)
  if inputTy.isGround && resultTy.isGround then return false
  let flat ← flatten input
  match ← resultTy.peel false with
  | some parts => splitProducer o false (slice flat parts)
  | none =>
    let replacement ← match resultTy with
      | .ground (.sint _) => Build.asSInt flat
      | ty => castTo ty flat
    change (·.replaceAllUses result replacement)
    return true

end Lower

end Scalarize
