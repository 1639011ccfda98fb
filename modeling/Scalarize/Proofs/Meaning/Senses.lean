import Scalarize.Body.Outline
import Scalarize.Proofs.Meaning.Words

/-!
# What bodies mean

Every ground leaf of a port, of a wire, of a register and of a port of an instance is a variable, and so is
every leaf of an invalid value. The other values are functions of the variables. Connections are run in the
order of the blocks; the last one that drives a leaf decides.

* `Sense` : the bits of a value, and the place where it is driven, if it can be;
* `OpKind.reach?`, `OpKind.value?`, `Body.sense` : what an operation makes of its operands;
* `Body.vars`, `Body.given`, `Body.senses` : the variables, their values, and with them all values;
* `Ty.drives`, `Body.drives`, `Body.drivers` : what connections drive, and what each leaf is driven by at last;
* `Body.Ranged` : no access reaches past its vector.
-/

namespace Scalarize

/-- A part of the variables that a value holds: its leaves lie below a path. -/
abbrev Place := ValueId × List Nat

/-- What a value stands for: bits at each leaf, and where they are driven. -/
structure Sense where
  bits : List Nat → List Bool
  place : Option Place

/-- The sense of a part. -/
def Sense.part (s : Sense) (i : Nat) : Sense where
  bits path := s.bits (i :: path)
  place := s.place.map fun p => (p.1, p.2 ++ [i])

/-! ## Operations -/

/-- A value as its readers see it. -/
abbrev Reading := Ty × (List Nat → List Bool)

/-- The position that a value stands for; none if it is negative. -/
def Reading.position? (r : Reading) : Option Nat :=
  match r.1.number r.2 with
  | .ofNat n => some n
  | .negSucc _ => none

/-- The bits of a literal. -/
def Ty.literal (t : Ty) (value : Nat) (path : List Nat) : List Bool :=
  match t, path with
  | .ground g, [] => g.literal value
  | _, _ => []

/-- What the primitives make of the bits of their operands, but for those that lowering makes itself. -/
abbrev Interpretation := Prim → List (Ty × List Bool) → List Bool

/-- The bits that a primitive makes. -/
def Prim.result (I : Interpretation) : Prim → List Reading → List Bool
  | .eq, [x, y] => [decide (x.1.number x.2 = y.1.number y.2)]
  | .cat, [high, low] => low.1.pack low.2 ++ high.1.pack high.2
  | .bits hi lo, [x] => ((x.1.pack x.2).drop lo).take (hi + 1 - lo)
  | .asUInt, [x] | .asSInt, [x] => x.1.pack x.2
  | p, ins => I p (ins.map fun x => (x.1, x.1.pack x.2))

namespace OpKind

/-- The position of the part that an accessor reaches. -/
def reach? : OpKind → List Reading → Option Nat
  | subfield i, _ | subindex i, _ => some i
  | subaccess, [_, position] => position.position?
  | _, _ => none

/-- The bits that an operation makes of its operands, for a result of type `out`. -/
def value? (I : Interpretation) (out : Ty) : OpKind → List Reading → Option (List Nat → List Bool)
  | node _, [x] => some x.2
  | mux, [sel, high, low] => some (if true ∈ sel.2 [] then high.2 else low.2)
  | multiMux, index :: inputs =>
    -- the inputs come from the highest position down
    some ((index.position?.bind fun i => inputs.reverse[i]?).elim (out.unpack []) (·.2))
  | bitcast, [x] => some (out.unpack (x.1.pack x.2))
  | constant n, _ => some (out.literal n)
  | prim p, ins => some (out.unpack (p.result I ins))
  | _, _ => none

end OpKind

namespace Body

variable (I : Interpretation) (b : Body) (S : ValueId → Sense)

/-- Type of a value. -/
def tyOf (v : ValueId) : Ty := (b.ty? v).getD default

/-- A value as its readers see it. -/
def reading (v : ValueId) : Reading := (b.tyOf v, (S v).bits)

/-- The sense of the first result of an operation that is no variable. -/
def sense (kind : OpKind) (operands : List ValueId) (out : Ty) : Option Sense :=
  match kind.reach? (operands.map (b.reading S)) with
  | some i => operands.head?.map fun v => (S v).part i
  | none => (kind.value? I out (operands.map (b.reading S))).map (⟨·, none⟩)

/-- The senses once an operation has made its result. -/
def settle (x : OpId) : ValueId → Sense :=
  match b.op? x with
  | some op =>
    match op.results with
    | r :: _ => (b.sense I S op.kind op.operands (b.tyOf r)).elim S (Function.update S r)
    | [] => S
  | none => S

/-- The senses of all values, from those of the variables. -/
def senses (init : ValueId → Sense) : ValueId → Sense := b.walk.foldl (b.settle I) init

end Body

/-! ## Variables -/

/-- What holds variables. -/
inductive Role where
  | port
  | wire
  | register
  | instancePort
  | invalid
  deriving DecidableEq, Repr

/-- The role of the results of an operation that holds variables. -/
def OpKind.role? : OpKind → Option Role
  | wire _ => some .wire
  | reg _ | regReset _ => some .register
  | inst _ => some .instancePort
  | invalid => some .invalid
  | _ => none

/-- A leaf that nothing in the body computes. -/
structure Variable where
  value : ValueId
  path : List Nat
  role : Role
  ground : Ground
  deriving DecidableEq, Repr

/-- Nothing is known of the leaf because it has no bits. -/
def Variable.void (x : Variable) : Bool := x.role = .invalid ∧ x.ground.width = some 0

/-- The values of variables, by their position. -/
abbrev Valuation := Nat → List Bool

namespace Body

variable (b : Body)

/-- The leaves of a value. -/
def leavesOf (role : Role) (v : ValueId) : List Variable :=
  ((b.tyOf v).leaves.map fun l => ⟨v, l.path, role, l.ground⟩).filter (!·.void)

/-- The variables that an operation holds. -/
def held (x : OpId) : List Variable :=
  match b.op? x with
  | some op => op.kind.role?.elim [] fun role => op.results.flatMap (b.leavesOf role)
  | none => []

/-- The variables of a body, ports first. -/
def vars : List Variable := b.args.flatMap (b.leavesOf .port) ++ b.walk.flatMap b.held

/-- The value holds variables that are driven. -/
def drivable (v : ValueId) : Bool :=
  match b.origin? v with
  | some .argument => true
  | some (.result x _) => ((b.kind? x).bind (·.role?)).any (· ≠ .invalid)
  | none => false

/-- The senses of the values that hold variables. Other values have zeros. -/
def given (xs : Valuation) (v : ValueId) : Sense where
  bits path := ((b.vars.zipIdx.find? fun e => e.1.value = v ∧ e.1.path = path).map fun e => e.1.ground.fit (xs e.2)).getD
    ((b.tyOf v).unpack [] path)
  place := if b.drivable v then some (v, []) else none

end Body

/-! ## Connections -/

/-- What a connection of two values drives, leaf by leaf; a flipped leaf is driven the other way. -/
def Ty.drives (t : Ty) (dest src : Sense) : List (Place × List Bool) :=
  t.leaves.filterMap fun l =>
    (bif l.flip then src else dest).place.map fun p =>
      ((p.1, p.2 ++ l.path), l.ground.fit ((bif l.flip then dest else src).bits l.path))

namespace Outline

mutual

/-- What the operations of an outline drive in order; a guard runs one of its blocks. -/
def drives (own : OpId → List (Place × List Bool)) (holds : OpId → Bool) : Outline → List (Place × List Bool)
  | node o t e => own o ++ bif holds o then drivesOf own holds t else drivesOf own holds e

/-- What a list of outlines drives in order. -/
def drivesOf (own : OpId → List (Place × List Bool)) (holds : OpId → Bool) :
    List Outline → List (Place × List Bool)
  | [] => []
  | t :: ts => t.drives own holds ++ drivesOf own holds ts

end

end Outline

namespace Body

variable (I : Interpretation) (b : Body) (S : ValueId → Sense) (xs : Valuation)

/-- What an operation drives. -/
def drivesBy (x : OpId) : List (Place × List Bool) :=
  match b.op? x with
  | some ⟨.connect _, [dest, src], _, _, _⟩ => (b.tyOf dest).drives (S dest) (S src)
  | _ => []

/-- The condition of a guard holds. -/
def holds (x : OpId) : Bool :=
  match b.op? x with
  | some ⟨.when _ _, [cond], _, _, _⟩ => true ∈ (S cond).bits []
  | _ => false

/-- What the connections drive in order. -/
def drives : List (Place × List Bool) := Outline.drivesOf (b.drivesBy S) (b.holds S) (b.outline entry)

/-- The senses of all values, with given values of the variables. -/
def meaning : ValueId → Sense := b.senses I (b.given xs)

/-- The leaves of ports, wires, registers and ports of instances. -/
def sinks : List Variable := b.vars.filter (·.role ≠ .invalid)

/-- What each leaf of a port, wire, register or port of an instance is driven by at last, if by anything. -/
def drivers : List (Option (List Bool)) :=
  b.sinks.map fun x => ((b.drives (b.meaning I xs)).reverse.find? (·.1 = (x.value, x.path))).map (·.2)

/-- The operation, if it is an access at a computed position, reaches an element. -/
def ReachesWithin (kind : OpKind) (operands : List ValueId) : Prop :=
  kind = .subaccess → ∃ v x e n i, operands = [v, x] ∧ b.ty? v = some (.vector e n) ∧
    (b.reading S x).position? = some i ∧ i < n

/-- No access reaches past its vector. -/
def Ranged : Prop := ∀ x ∈ b.walk, ∀ op, b.op? x = some op → b.ReachesWithin (b.meaning I xs) op.kind op.operands

end Body

end Scalarize
