import Scalarize.Body.Edit

/-!
# Circuits

* `Port`, `Module` : a module with its ports; an external module has no body;
* `InnerRef`, `Segment`, `HierPath` : a path through instances to an inner symbol or a module;
* `Circuit` : modules and named paths; `Circuit.putPath` : a repeated name takes the former's place;
* `ModuleTable` : what an instance may know of the modules.
-/

namespace Scalarize

/-- A module port. -/
structure Port where
  name : String
  ty : Ty
  direction : Direction
  sym : Option String
  annotations : List Annotation
  deriving DecidableEq

/-- A module. The arguments of its body are its ports, in order. -/
structure Module where
  name : String
  isPublic : Bool
  ports : List Port
  annotations : List Annotation
  /-- Absent if the module is defined elsewhere. -/
  body : Option Body
  deriving DecidableEq

namespace Module

/-- Defined elsewhere. -/
def isExternal (m : Module) : Bool := m.body.isNone

/-- Argument of the port at a position. -/
def portValue? (m : Module) (i : Nat) : Option ValueId := m.body.bind (·.args[i]?)

/-- Position of the first port with a name. -/
def portNamed? (m : Module) (name : String) : Option Nat := m.ports.findIdx? (·.name == name)

/-- Position of the first port with a symbol. -/
def portWithSym? (m : Module) (sym : String) : Option Nat := m.ports.findIdx? (·.sym == some sym)

end Module

/-- An inner symbol of a module. -/
structure InnerRef where
  moduleName : String
  sym : String
  deriving DecidableEq, Repr

/-- A step of a hierarchical path. -/
inductive Segment where
  | inner (ref : InnerRef)
  /-- A whole module. -/
  | whole (moduleName : String)
  deriving DecidableEq, Repr

/-- Module in which a step lies. -/
def Segment.moduleName : Segment → String
  | inner ref => ref.moduleName
  | whole name => name

/-- A named path through the instances of a circuit. -/
structure HierPath where
  name : String
  segments : List Segment
  deriving DecidableEq, Repr

/-- The inner symbol at which a path ends, if it ends inside a module. -/
def HierPath.target? (p : HierPath) : Option InnerRef :=
  match p.segments.getLast? with
  | some (.inner ref) => some ref
  | _ => none

/-- A circuit. -/
structure Circuit where
  name : String
  modules : List Module
  paths : List HierPath
  deriving DecidableEq

namespace Circuit

/-- The path with a name. -/
def path? (c : Circuit) (name : String) : Option HierPath := c.paths.find? (·.name == name)

/-- Puts a path behind the others, or in the place of the one with its name. -/
def putPath (c : Circuit) (p : HierPath) : Circuit :=
  if c.paths.any (·.name == p.name) then
    { c with paths := c.paths.map fun q => if q.name = p.name then p else q }
  else { c with paths := c.paths ++ [p] }

/-- Takes the path with a name out. -/
def removePath (c : Circuit) (name : String) : Circuit :=
  { c with paths := c.paths.filter (·.name != name) }

end Circuit

/-! ## Module table -/

/-- What an instance may know of its module. -/
structure ModuleEntry where
  isExternal : Bool
  isPublic : Bool
  deriving DecidableEq, Repr

/-- Entry of a module. -/
def Module.entry (m : Module) : ModuleEntry := ⟨m.isExternal, m.isPublic⟩

/-- Entries of the modules by name. -/
abbrev ModuleTable := Assoc String ModuleEntry

/-- Entries of the modules of a circuit; of equal names the last counts. -/
def Circuit.moduleTable (c : Circuit) : ModuleTable :=
  c.modules.foldl (fun table m => table.put m.name m.entry) []

end Scalarize
