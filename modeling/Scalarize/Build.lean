import Scalarize.Body.Edit

/-!
# Building bodies

Operations are made at an insertion point, which moves past each of them. Every function either
makes exactly one operation or fails and makes none.

* `Point`, `Builder`, `Build` : the insertion point, the body with it, and computations over both;
* `Build.create` : makes an operation from its parts;
* one function for each kind of operation, which computes the types of the results.
-/

namespace Scalarize

/-- A slot of a block; new operations go in front of it. -/
structure Point where
  block : BlockId
  index : Nat
  deriving DecidableEq, Repr

/-- A body that is being built. -/
structure Builder where
  body : Body
  point : Point

/-- Computations that build a body. -/
abbrev Build := StateT Builder (Except Failure)

namespace Build

/-- Reads the body. -/
def read {α : Type} (f : Body → Except Failure α) : Build α := do f (← get).body

/-- Changes the body. -/
def edit {α : Type} (f : Body → Except Failure (α × Body)) : Build α := fun ⟨body, point⟩ => do
  let (a, body) ← f body
  return (a, ⟨body, point⟩)

/-- Changes the body without a result. -/
def change (f : Body → Except Failure Body) : Build Unit := fun ⟨body, point⟩ => do
  return ((), ⟨← f body, point⟩)

/-- Moves the insertion point. -/
def moveTo (point : Point) : Build Unit := modify fun s => { s with point }

/-- Makes an operation and moves past it. -/
def create (kind : OpKind) (operands : List ValueId) (types : List Ty) : Build OpId :=
  fun ⟨body, point⟩ => do
    let (o, body) ← body.insertOp point.block point.index kind operands types
    return (o, ⟨body, { point with index := point.index + 1 }⟩)

/-- Makes an operation with one result, which it returns. -/
def createValue (kind : OpKind) (operands : List ValueId) (ty : Ty) : Build ValueId := do
  let o ← create kind operands [ty]
  read (·.result o 0)

/-- Type of a value. -/
def typeOf (v : ValueId) : Build Ty := read (·.typeOf v)

/-- Bit width of a value, which must be known and fit in 32 bits. -/
def knownWidth (v : ValueId) : Build Nat := do
  let ty ← typeOf v
  match ty.width with
  | none => throw (.edit (.unknownWidth ty))
  | some w => if w < UInt32.size then return w else throw (.edit (.widthOverflow w))

/-! ## Declarations -/

/-- A wire. -/
def wire (ty : Ty) (decl : Decl) : Build OpId := create (.wire decl) [] [ty]

/-- A register without a reset. -/
def reg (ty : Ty) (clock : ValueId) (decl : Decl) : Build OpId := create (.reg decl) [clock] [ty]

/-- A register with a reset value. -/
def regReset (ty : Ty) (clock reset init : ValueId) (decl : Decl) : Build OpId :=
  create (.regReset decl) [clock, reset, init] [ty]

/-- A name for a value. -/
def node (input : ValueId) (decl : Decl) : Build OpId := do
  create (.node decl) [input] [← typeOf input]

/-- A memory. -/
def mem (m : Memory) : Build OpId := create (.mem m) [] m.portTypes

/-- An instance with the given result types. -/
def inst (i : Instance) (types : List Ty) : Build OpId := create (.inst i) [] types

/-! ## Values -/

/-- A literal. -/
def constant (ty : Ty) (value : Nat) : Build ValueId := createValue (.constant value) [] ty

/-- A value that nothing is known of. -/
def invalid (ty : Ty) : Build ValueId := createValue .invalid [] ty

/-- A field of a bundle. -/
def subfield (input : ValueId) (index : Nat) : Build ValueId := do
  match ← typeOf input with
  | .bundle fs =>
    match fs[index]? with
    | some f => createValue (.subfield index) [input] f.ty
    | none => throw (.edit (.indexOutOfRange index (.bundle fs)))
  | ty => throw (.edit (.notAggregate ty))

/-- An element of a vector at a fixed position. -/
def subindex (input : ValueId) (index : Nat) : Build ValueId := do
  match ← typeOf input with
  | .vector e n =>
    if index < n then createValue (.subindex index) [input] e
    else throw (.edit (.indexOutOfRange index (.vector e n)))
  | ty => throw (.edit (.notAggregate ty))

/-- An element of a vector at a computed position. -/
def subaccess (input index : ValueId) : Build ValueId := do
  match ← typeOf input with
  | .vector e _ => createValue .subaccess [input, index] e
  | ty => throw (.edit (.notAggregate ty))

/-- A part of an aggregate at a fixed position. -/
def part (input : ValueId) (index : Nat) : Build ValueId := do
  match ← typeOf input with
  | .bundle _ => subfield input index
  | .vector _ _ => subindex input index
  | ty => throw (.edit (.notAggregate ty))

/-- A choice between two values. -/
def mux (sel high low : ValueId) : Build ValueId := do
  createValue .mux [sel, high, low] (← typeOf high)

/-- A choice among values, listed from the highest position down. -/
def multiMux (index : ValueId) : List ValueId → Build ValueId
  | [] => throw (.edit .emptyMux)
  | first :: rest => do createValue .multiMux (index :: first :: rest) (← typeOf first)

/-- The bits of a value as another type. -/
def bitcast (ty : Ty) (input : ValueId) : Build ValueId := createValue .bitcast [input] ty

/-- A cast that is settled later. -/
def unrealizedCast (ty : Ty) (input : ValueId) : Build ValueId :=
  createValue .unrealizedCast [input] ty

/-- Any primitive with a given result type. -/
def prim (p : Prim) (operands : List ValueId) (ty : Ty) : Build ValueId :=
  createValue (.prim p) operands ty

/-- Equality of two values. -/
def eq (lhs rhs : ValueId) : Build ValueId := prim .eq [lhs, rhs] (.uint 1)

/-- Concatenation of two values. -/
def cat (high low : ValueId) : Build ValueId := do
  let highWidth ← knownWidth high
  let lowWidth ← knownWidth low
  let width := highWidth + lowWidth
  if width < UInt32.size then prim .cat [high, low] (.uint width)
  else throw (.edit (.widthOverflow width))

/-- Bits `hi` down to `lo`; their number must fit in 32 bits. -/
def bits (input : ValueId) (hi lo : Nat) : Build ValueId :=
  if hi < lo || UInt32.size ≤ hi - lo + 1 then throw .overflow
  else prim (.bits hi lo) [input] (.uint (hi - lo + 1))

/-- A value as an unsigned integer. -/
def asUInt (input : ValueId) : Build ValueId := do
  prim .asUInt [input] (.uint (← knownWidth input))

/-- A value as a signed integer. -/
def asSInt (input : ValueId) : Build ValueId := do
  prim .asSInt [input] (.sint (← knownWidth input))

/-! ## Statements -/

/-- Drives one value with another. -/
def connect (strict : Bool) (dest src : ValueId) : Build OpId :=
  create (.connect strict) [dest, src] []

/-- A guard over one or two empty blocks. -/
def when (cond : ValueId) (withElse : Bool) : Build (OpId × BlockId × Option BlockId) := do
  let first := (← get).body.blocks.size
  let thenBlock : BlockId := ⟨first⟩
  let elseBlock : Option BlockId := if withElse then some ⟨first + 1⟩ else none
  let o ← create (.when thenBlock elseBlock) [cond] []
  let _ ← edit fun b => return b.createBlock o
  if withElse then let _ ← edit fun b => return b.createBlock o
  return (o, thenBlock, elseBlock)

end Build

end Scalarize
