import Scalarize.Circuit
import Scalarize.Body.Outline
import Scalarize.NamePool
import Scalarize.Partition

/-!
# Symbols of split declarations

While a module is lowered, the parts of a declaration get symbols of their own. A symbol that is
derived from another joins its set, which the root of them all keeps leading.

* `Target` : a part that carries a piece of a root symbol; `Renames` : all of them, by root symbol;
* `Symbols` : the state while a module is lowered, `Symbols.ofModule` its start;
* `Symbols.fresh`, `Symbols.derive`, `Symbols.detached` : the three ways to a new symbol.
-/

namespace Scalarize

/-- Where a target is found. -/
inductive TargetKind where
  /-- A declaration in the body. -/
  | operation (op : OpId)
  /-- A port of the module, known by its symbol. -/
  | port
  deriving DecidableEq, Repr

/-- A ground part that carries a piece of a root symbol. -/
structure Target where
  sym : String
  kind : TargetKind
  deriving DecidableEq, Repr

/-- The targets of each root symbol of a module, in the order in which they were made. -/
structure Renames where
  /-- Position of the module in the circuit. -/
  index : Nat
  moduleName : String
  targets : Assoc String (List Target)
  deriving DecidableEq, Repr

/-- Number of targets of all symbols. -/
def Renames.targetCount (r : Renames) : Nat := total (r.targets.map (·.2.length))

/-- The symbols of a module that is being lowered. -/
structure Symbols where
  moduleName : String
  /-- Derived symbols, led by the symbol that they descend from. -/
  origins : Partition String := {}
  /-- Symbols of parts whose declaration had none. -/
  detachedSyms : List String := []
  names : NamePool := {}
  targets : Assoc String (List Target) := []
  /-- How many names were generated so far, over all modules. -/
  generated : Nat := 0

/-- The symbols that a module carries: those of its ports, then those of its declarations. -/
def Module.syms (m : Module) : List String :=
  m.ports.filterMap (·.sym) ++
    match m.body with
    | some b => b.walk.filterMap fun o => (b.kind? o).bind fun k => k.decl?.bind (·.sym)
    | none => []

namespace Symbols

/-- Start for a module: no symbol that it carries will be made again. -/
def ofModule (m : Module) (generated : Nat) : Symbols :=
  { moduleName := m.name, names := m.syms.foldl NamePool.reserve {}, generated }

/-- A new symbol near a text. -/
def fresh (s : Symbols) (text : String) : String × Symbols :=
  let (sym, names) := s.names.fresh text
  (sym, { s with names })

/-- A symbol for a part of the declaration with symbol `base`. A ground part becomes a target of
the root symbol. -/
def derive (s : Symbols) (base suffix : String) (ground : Bool) (kind : TargetKind) :
    String × Symbols :=
  let (sym, s) := s.fresh (base ++ suffix)
  let (root, origins) := s.origins.union base sym
  let s := { s with origins }
  if ground && root ∉ s.detachedSyms then
    (sym, { s with targets := s.targets.adjust root [] (· ++ [⟨sym, kind⟩]) })
  else (sym, s)

/-- A generated name. -/
def generatedName (n : Nat) : String := s!"__GEN_{n}"

/-- A symbol for a part of a declaration without a symbol, after the name of the declaration or a
generated name. It is nobody's target. -/
def detached (s : Symbols) (name : Option String) (suffix : String) : String × Symbols :=
  let (base, s) := match name.filter (· ≠ "") with
    | some name => (name, s)
    | none => (generatedName s.generated, { s with generated := s.generated + 1 })
  let (sym, s) := s.fresh (base ++ suffix)
  (sym, { s with detachedSyms := sym :: s.detachedSyms })

/-- What was renamed, for the module at a position of the circuit. -/
def renames (s : Symbols) (index : Nat) : Renames := ⟨index, s.moduleName, s.targets⟩

end Symbols

end Scalarize
