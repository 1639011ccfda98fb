import Scalarize.Annotation.Restrict
import Scalarize.Lower.Readers
import Scalarize.Lower.State

/-!
# Splitting producers

An operation that makes one aggregate gives way to one operation of its kind for each part.

* `Lower.splitProducer` : the split itself, given how the operation for a part is made;
* `Lower.producer` : the split of declarations, choices and casts that are settled later.
-/

namespace Scalarize.Lower

/-- Hands the declaration of a split operation on to the operation that makes a part. -/
def declarePart (decl : Decl) (part : Part) (restricted : Restricted) (value : ValueId) :
    Lower Unit := do
  let some o ← body (·.definer value) | return
  let sym ← match decl.sym with
    | some base =>
      some <$> mint (·.derive base part.suffix part.ty.isGround (.operation o))
    | none =>
      if restricted.needsSym then some <$> mint (·.detached decl.name part.suffix) else pure none
  let new : Decl := { decl.extendName part.suffix with annotations := restricted.annotations, sym }
  change fun b => return b.modifyDecl o fun _ => new

/-- Splits an operation with one result, which `clone` makes anew for each part. Returns whether
there was anything to split. -/
def splitProducer (o : OpId) (keep : Bool) (clone : Part → Build ValueId) : Lower Bool := do
  let result ← body (·.result o 0)
  let some parts ← (← body (·.typeOf result)).peel keep | return false
  let decl := (← body (·.kindOf o)).decl?.getD {}
  let values ← parts.mapM fun part => do
    let restricted ← restrict decl.annotations part
    let value ← clone part
    declarePart decl part restricted value
    return value
  change (·.rewire result values)
  return true

/-- First result of an operation that is being made. -/
def firstResult (make : Build OpId) : Build ValueId := do
  let o ← make
  Build.read (·.result o 0)

/-- Splits declarations, choices and casts that are settled later. -/
def producer (o : OpId) (keep : Bool) : OpKind → Lower Bool
  | .wire _ => splitProducer o keep fun part => firstResult (Build.wire part.ty {})
  | .reg _ => do
    let clock ← body (·.operand o 0)
    splitProducer o keep fun part => firstResult (Build.reg part.ty clock {})
  | .regReset _ => do
    let clock ← body (·.operand o 0)
    let reset ← body (·.operand o 1)
    let init ← body (·.operand o 2)
    splitProducer o keep fun part => do
      let init ← Build.part init part.index
      firstResult (Build.regReset part.ty clock reset init {})
  | .node _ => do
    let input ← body (·.operand o 0)
    splitProducer o keep fun part => do
      firstResult (Build.node (← Build.part input part.index) {})
  | .invalid => splitProducer o keep fun part => Build.invalid part.ty
  | .mux => do
    let sel ← body (·.operand o 0)
    let high ← body (·.operand o 1)
    let low ← body (·.operand o 2)
    splitProducer o keep fun part => do
      let high ← Build.part high part.index
      let low ← Build.part low part.index
      Build.mux sel high low
  | .multiMux => do
    match (← body (·.op o)).operands with
    | [] => throw (.lower (.malformed .muxWithoutIndex))
    | index :: inputs =>
      splitProducer o keep fun part => do
        Build.multiMux index (← inputs.mapM (Build.part · part.index))
  | .unrealizedCast => do
    let input ← body (·.operand o 0)
    splitProducer o keep fun part => do
      Build.unrealizedCast part.ty (← Build.part input part.index)
  | _ => return false

end Scalarize.Lower
