import Scalarize.Body

/-!
# Outlines

The outline of a block is the tree of its standing operations, each with the outlines of the blocks
that it guards. Walking, printing and erasing all follow it.

* `Outline` : an operation with the operations below it; `Outline.ops` : all of them, in pre-order;
* `Body.outline` : the outline of a block; `Body.walk` : all standing operations of a body.
-/

namespace Scalarize

/-- An operation with the standing operations of the blocks that it guards. -/
inductive Outline where
  | node (op : OpId) (inThen inElse : List Outline)

namespace Outline

mutual

/-- The operations of an outline, each in front of those below it. -/
def ops : Outline → List OpId
  | node o t e => o :: (opsOf t ++ opsOf e)

/-- The operations of a list of outlines, in order. -/
def opsOf : List Outline → List OpId
  | [] => []
  | t :: ts => t.ops ++ opsOf ts

end

@[simp] theorem opsOf_eq (ts : List Outline) : opsOf ts = ts.flatMap ops := by
  induction ts with
  | nil => rfl
  | cons t ts ih => simp [opsOf, ih]

end Outline

namespace Body

/-- The outline of a block. A guarded block is made after the block that holds its guard, so that as
much fuel as there are blocks is enough. -/
def outlineWith (b : Body) : Nat → BlockId → List Outline
  | 0, _ => []
  | fuel + 1, k => (b.live k).map fun o =>
    match b.kind? o with
    | some (.when t (some e)) => .node o (b.outlineWith fuel t) (b.outlineWith fuel e)
    | some (.when t none) => .node o (b.outlineWith fuel t) []
    | _ => .node o [] []

/-- The outline of a block. -/
def outline (b : Body) (k : BlockId) : List Outline := b.outlineWith b.blocks.size k

/-- The standing operations of a body, each in front of those that it guards. -/
def walk (b : Body) : List OpId := (b.outline entry).flatMap Outline.ops

/-- The standing operations in the blocks that an operation guards. -/
def guarded (b : Body) (o : OpId) : List OpId :=
  match b.kind? o with
  | some kind => kind.blocks.flatMap fun k => (b.outline k).flatMap Outline.ops
  | none => []

end Body

end Scalarize
