import Scalarize.Circuit.PathTable
import Scalarize.Lower.Symbols

/-!
# Hierarchical paths

A path that ends at a split symbol gives way to one path for each target. The first keeps the name,
and the annotations of each target follow its path.

* `Circuit.redirectTarget` : scopes the annotations of a target to another path;
* `PathState`, `PathState.splitPath`, `PathState.followSymbol` : one path, all paths of a symbol;
* `Circuit.followRenames` : all renames of a circuit; returns how many paths were split.
-/

namespace Scalarize

/-- Scopes the annotations of a target, in the module at a position, to another path; `none` if the
target is not there. -/
def Circuit.redirectTarget? (c : Circuit) (index : Nat) (t : Target) (old new : String) :
    Option Circuit := do
  let m ← c.modules[index]?
  let m ← match t.kind with
    | .operation o => do
      let b ← m.body
      let kind ← b.kind? o
      let _ ← kind.decl?
      let b := b.modifyDecl o fun d => { d with annotations := redirect old new d.annotations }
      some { m with body := some b }
    | .port => do
      let i ← m.portWithSym? t.sym
      some { m with ports := m.ports.modify i fun p =>
        { p with annotations := redirect old new p.annotations } }
  return { c with modules := c.modules.set index m }

/-- The circuit while its paths are split. -/
structure PathState where
  circuit : Circuit
  table : PathTable
  names : NamePool
  /-- Paths split so far. -/
  split : Nat := 0

namespace PathState

/-- Adds the path to one target, in place of `path`, under a name of its own unless it is the
first. -/
def addTarget (r : Renames) (path : HierPath) (s : PathState) (t : Target × Nat) :
    Except Failure PathState := do
  let (name, names) := if t.2 = 0 then (path.name, s.names) else s.names.fresh path.name
  let segments := path.segments.dropLast ++ [.inner ⟨r.moduleName, t.1.sym⟩]
  match s.circuit.redirectTarget? r.index t.1 path.name name with
  | none => throw (.lower (.malformed (.bareTarget t.1.sym)))
  | some circuit =>
    let (table, circuit) := s.table.add circuit ⟨name, segments⟩
    return { s with circuit, table, names }

/-- Splits a path among targets if it ends at a symbol. -/
def splitPath (r : Renames) (sym : String) (targets : List Target) (s : PathState)
    (name : String) : Except Failure PathState := do
  match s.circuit.path? name with
  | none => return s
  | some path =>
    if path.target? ≠ some ⟨r.moduleName, sym⟩ then return s
    match s.table.erase s.circuit name with
    | none => return s
    | some (path, table, circuit) =>
      let s ← targets.zipIdx.foldlM (addTarget r path) { s with circuit, table }
      return { s with split := s.split + 1 }

/-- Splits all paths that end at a symbol. -/
def followSymbol (r : Renames) (s : PathState) (e : String × List Target) :
    Except Failure PathState :=
  (s.table.lookup r.moduleName).foldlM (splitPath r e.1 e.2) s

end PathState

/-- Splits all paths that end at a renamed symbol; returns how many there were. -/
def Circuit.followRenames (c : Circuit) (renames : List Renames) :
    Except Failure (Circuit × Nat) := do
  let s ← renames.foldlM (fun s r => r.targets.foldlM (PathState.followSymbol r) s)
    { circuit := c, table := .ofCircuit c, names := c.namePool }
  return (s.circuit, s.split)

end Scalarize
