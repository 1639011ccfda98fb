import Scalarize.Body.Edit

/-!
# Readers of split values

`Body.rewire` : once a value is split, each reader must be a fixed accessor; it gives way to the
part that it reaches.
-/

namespace Scalarize.Body

/-- Replaces one accessor of a split value by the part that it reaches. -/
def rewireUser (v : ValueId) (parts : List ValueId) (b : Body) (user : OpId) :
    Except Failure Body := do
  let kind ← b.kindOf user
  match kind.fixedIndex? with
  | none => throw (.lower (.unknownAggregateUser kind.text (← b.typeOf v)))
  | some i =>
    match parts[i]? with
    | none => throw (.lower (.malformed (.accessorPastParts i parts.length)))
    | some part => (← b.replaceAllUses (← b.result user 0) part).eraseOp user

/-- Replaces every accessor of a split value by the part that it reaches. -/
def rewire (b : Body) (v : ValueId) (parts : List ValueId) : Except Failure Body := do
  (← b.users v).foldlM (rewireUser v parts) b

end Scalarize.Body
