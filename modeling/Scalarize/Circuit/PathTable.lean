import Scalarize.Circuit
import Scalarize.NamePool

/-!
# Paths by module

* `PathTable` : for each module the names of the paths that pass through it; `PathTable.erase` and
  `PathTable.add` change the table and the circuit together;
* `Circuit.namePool` : the names that a circuit has taken.
-/

namespace Scalarize

/-- For each module, the names of the paths through it. -/
structure PathTable where
  byModule : Assoc String (List String) := []

namespace PathTable

/-- Notes a path at every module that it passes through, once. -/
def note (t : PathTable) (p : HierPath) : PathTable :=
  p.segments.foldl (fun t s =>
    ⟨t.byModule.adjust s.moduleName [] fun names =>
      if p.name ∈ names then names else names ++ [p.name]⟩) t

/-- Table of the paths of a circuit. -/
def ofCircuit (c : Circuit) : PathTable := c.paths.foldl note {}

/-- Names of the paths that pass through a module. -/
def lookup (t : PathTable) (moduleName : String) : List String :=
  (t.byModule.get? moduleName).getD []

/-- Takes a path out of the table and the circuit. -/
def erase (t : PathTable) (c : Circuit) (name : String) : Option (HierPath × PathTable × Circuit) :=
  (c.path? name).map fun p =>
    let t := p.segments.foldl (fun t s =>
      ⟨t.byModule.adjust s.moduleName [] fun names => names.filter (· != name)⟩) t
    (p, t, c.removePath name)

/-- Puts a path into the table and the circuit. -/
def add (t : PathTable) (c : Circuit) (p : HierPath) : PathTable × Circuit := (t.note p, c.putPath p)

end PathTable

/-- The names of a circuit, its modules and its paths. -/
def Circuit.namePool (c : Circuit) : NamePool :=
  let names := c.name :: c.modules.map (·.name) ++ c.paths.map (·.name)
  names.foldl NamePool.reserve {}

end Scalarize
