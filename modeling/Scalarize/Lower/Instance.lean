import Scalarize.Annotation.Restrict
import Scalarize.Lower.Readers
import Scalarize.Lower.State

/-!
# Instances

The ports of an instance are split under the policy for the ports of its module.

* `SplitPort` : what becomes of one port; `InstancePort.split` : splits it by one layer;
* `Body.handOver` : the readers of the former results read the new ones;
* `Lower.inst` : replaces an instance.
-/

namespace Scalarize

/-- What becomes of one port of an instance. -/
structure SplitPort where
  ports : List InstancePort
  types : List Ty
  changed : Bool
  needsSym : Bool

/-- The port of one part. -/
def InstancePort.part (p : InstancePort) (part : Part) (annotations : List Annotation) :
    InstancePort :=
  ⟨p.name ++ part.suffix, p.direction.flipIf part.flip, annotations⟩

/-- Splits a port by one layer, unless its type stays whole. -/
def InstancePort.split (p : InstancePort) (ty : Ty) (keep : Bool) : Except Failure SplitPort := do
  match ← ty.peel keep with
  | none => return ⟨[p], [ty], false, false⟩
  | some parts =>
    let restricted ← parts.mapM (restrict p.annotations)
    return {
      ports := (parts.zip restricted).map fun (part, r) => p.part part r.annotations
      types := parts.map (·.ty)
      changed := true
      needsSym := restricted.any (·.needsSym) }

/-- Lets the readers of former results read the new ones, each former result owning as many of them
as it was split into. -/
def Body.handOver : List (ValueId × SplitPort) → List ValueId → Body → Except Failure Body
  | [], _, b => return b
  | (old, s) :: rest, new, b => do
    let mine := new.take s.types.length
    let b ← match mine with
      | [v] => if s.types = [← b.typeOf old] then b.replaceAllUses old v else b.rewire old mine
      | _ => b.rewire old mine
    handOver rest (new.drop s.types.length) b

/-- Replaces an instance with a port that is split. -/
def Lower.inst (cx : Context) (o : OpId) (i : Instance) : Lower Bool := do
  let some entry := cx.modules.get? i.moduleName
    | throw (.lower (.missingModule i.moduleName))
  let keep := cx.options.portsMayPreserve entry
  let results := (← body (·.op o)).results
  let splits ← (i.ports.zip results).mapM fun (p, v) => do
    let ty ← body (·.typeOf v)
    return (v, ← p.split ty keep)
  if !splits.any (·.2.changed) then return false
  let sym ← if i.decl.sym.isNone && splits.any (·.2.needsSym) then
      some <$> mint (·.fresh ("sym" ++ i.decl.name.getD ""))
    else pure i.decl.sym
  let decl := { i.decl with sym }
  let new ← Build.inst { i with decl, ports := splits.flatMap (·.2.ports) }
    (splits.flatMap (·.2.types))
  let newResults := (← body (·.op new)).results
  change (Body.handOver splits newResults)
  return true

end Scalarize
