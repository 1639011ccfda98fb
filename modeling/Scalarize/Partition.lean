import Scalarize.Assoc

/-!
# Partitions with leaders

Keys are grouped into sets, each led by one of its keys. The sets are held as a forest of parent
links, a leader being its own parent.

* `Partition.climb` : the keys on the way up to the leader, and the leader;
* `Partition.find` : the leader of a key, shortening the links on the way;
* `Partition.union` : joins two sets under the leader of the first.
-/

namespace Scalarize

/-- A partition as a forest of parent links. -/
structure Partition (α : Type) where
  parents : Assoc α α := []

namespace Partition

variable {α : Type} [DecidableEq α]

/-- Tracks a key, as a set of its own if it is new. -/
def track (p : Partition α) (a : α) : Partition α :=
  match p.parents.get? a with
  | some _ => p
  | none => ⟨p.parents ++ [(a, a)]⟩

/-- The keys below the leader of a key, from the key upward, and the leader. Links lead to ever new
keys, so that as much fuel as tracked keys is enough. -/
def climb (p : Partition α) : Nat → α → List α × α
  | 0, a => ([], a)
  | fuel + 1, a =>
    match p.parents.get? a with
    | none => ([], a)
    | some b =>
      if b = a then ([], a)
      else
        let (below, leader) := p.climb fuel b
        (a :: below, leader)

/-- The leader of a key. Every key on the way is linked to it directly. -/
def find (p : Partition α) (a : α) : α × Partition α :=
  let p := p.track a
  let (below, leader) := p.climb p.parents.length a
  (leader, ⟨below.foldl (fun parents b => parents.put b leader) p.parents⟩)

/-- Joins the sets of two keys under the leader of the first, which it returns. -/
def union (p : Partition α) (leader member : α) : α × Partition α :=
  let (root, p) := p.find leader
  let (other, p) := p.find member
  (root, if root = other then p else ⟨p.parents.put other root⟩)

end Partition

end Scalarize
