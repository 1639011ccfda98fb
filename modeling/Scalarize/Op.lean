import Scalarize.Decl
import Scalarize.Handle

/-!
# Operation kinds

* `Prim` : operations on ground values;
* `OpKind` : every kind of operation, with the order of its operands;
* `OpKind.decl?`, `OpKind.mapDecl` : the declaration that a kind carries;
* `OpKind.isAccessor` : the kinds that reach one part of an aggregate.
-/

namespace Scalarize

/-- Operations on ground values. -/
inductive Prim where
  | eq
  /-- Concatenation, first operand in the high bits. -/
  | cat
  /-- Bits `hi` down to `lo`, both included. -/
  | bits (hi lo : Nat)
  | asUInt
  | asSInt
  | add
  | sub
  | and
  | or
  | xor
  | not
  deriving DecidableEq, Repr

/-- Written form. -/
def Prim.text : Prim → String
  | eq => "eq"
  | cat => "cat"
  | bits _ _ => "bits"
  | asUInt => "asUInt"
  | asSInt => "asSInt"
  | add => "add"
  | sub => "sub"
  | and => "and"
  | or => "or"
  | xor => "xor"
  | not => "not"

/-- Every kind of operation. -/
inductive OpKind where
  | wire (decl : Decl)
  /-- Operand: clock. -/
  | reg (decl : Decl)
  /-- Operands: clock, reset, initial value. -/
  | regReset (decl : Decl)
  /-- Operand: the value that is named. -/
  | node (decl : Decl)
  | mem (memory : Memory)
  | inst (decl : Instance)
  | constant (value : Nat)
  /-- A value that nothing is known of. -/
  | invalid
  /-- Field of a bundle. Operand: the bundle. -/
  | subfield (index : Nat)
  /-- Element of a vector at a fixed position. Operand: the vector. -/
  | subindex (index : Nat)
  /-- Element of a vector at a computed position. Operands: the vector, the position. -/
  | subaccess
  /-- Operands: selector, value if set, value if not set. -/
  | mux
  /-- Operands: selector, then the inputs from the highest position down to position zero. -/
  | multiMux
  /-- The same bits read as another type. Operand: the value. -/
  | bitcast
  /-- A cast that is settled later. Operand: the value. -/
  | unrealizedCast
  | prim (p : Prim)
  /-- Drives the first operand with the second; `strict` joins equal types only. -/
  | connect (strict : Bool)
  /-- Guards one or two blocks. Operand: the condition. -/
  | when (thenBlock : BlockId) (elseBlock : Option BlockId)
  deriving DecidableEq

namespace OpKind

/-- Written form. -/
def text : OpKind → String
  | wire _ => "wire"
  | reg _ => "reg"
  | regReset _ => "regreset"
  | node _ => "node"
  | mem _ => "mem"
  | inst _ => "instance"
  | constant _ => "constant"
  | invalid => "invalid"
  | subfield _ => "subfield"
  | subindex _ => "subindex"
  | subaccess => "subaccess"
  | mux => "mux"
  | multiMux => "multibit_mux"
  | bitcast => "bitcast"
  | unrealizedCast => "unrealized_cast"
  | prim p => p.text
  | connect false => "connect"
  | connect true => "strict_connect"
  | when _ _ => "when"

/-- The declaration that a kind carries. -/
def decl? : OpKind → Option Decl
  | wire d | reg d | regReset d | node d => some d
  | mem m => some m.decl
  | inst i => some i.decl
  | _ => none

/-- Changes the declaration that a kind carries. -/
def mapDecl (f : Decl → Decl) : OpKind → OpKind
  | wire d => wire (f d)
  | reg d => reg (f d)
  | regReset d => regReset (f d)
  | node d => node (f d)
  | mem m => mem { m with decl := f m.decl }
  | inst i => inst { i with decl := f i.decl }
  | k => k

theorem decl?_mapDecl (f : Decl → Decl) (k : OpKind) : (k.mapDecl f).decl? = k.decl?.map f := by
  cases k <;> rfl

/-- Reaches one part of its first operand. -/
def isAccessor : OpKind → Bool
  | subfield _ | subindex _ | subaccess => true
  | _ => false

/-- Position of the part that a fixed accessor reaches. -/
def fixedIndex? : OpKind → Option Nat
  | subfield i | subindex i => some i
  | _ => none

/-- The blocks that a kind guards, in order. -/
def blocks : OpKind → List BlockId
  | when t e => t :: e.toList
  | _ => []

end OpKind

end Scalarize
