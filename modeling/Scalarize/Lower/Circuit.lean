import Scalarize.Lower.Block
import Scalarize.Lower.Paths
import Scalarize.Lower.Ports

/-!
# Lowering circuits

* `Module.lower` : a module, its body first and its ports after it;
* `Stats`, `Circuit.lower` : all modules in order, then the hierarchical paths.
-/

namespace Scalarize

/-- A lowered module, and its symbols at the end. -/
def Module.lower (cx : Context) (m : Module) (generated : Nat) :
    Except Failure (Module × Symbols) := do
  let symbols := Symbols.ofModule m generated
  let (body, symbols) ← match m.body with
    | none => pure (none, symbols)
    | some b => do
      let end_ ← b.slotCount Body.entry
      let start : LowerState := ⟨⟨b, ⟨Body.entry, end_⟩⟩, symbols⟩
      let ((), s) ← (Lower.lowerBlock cx b.loweringDepth Body.entry).run start
      pure (some s.builder.body, s.symbols)
  let keep := cx.options.portsMayPreserve m.entry
  let (ports, s) ← (Lower.ports keep m.ports).run ⟨body, symbols⟩
  return ({ m with ports, body := s.body.map Body.compact }, s.symbols)

/-- What a run did. -/
structure Stats where
  modules : Nat
  /-- Root symbols that were split. -/
  renamedSymbols : Nat
  /-- Parts that now stand for those symbols. -/
  renameTargets : Nat
  /-- Paths that were split to follow them. -/
  pathsSplit : Nat
  deriving DecidableEq, Repr

/-- The modules lowered so far, what was renamed in them, and how many names were generated. -/
structure Progress where
  modules : List Module := []
  renames : List Renames := []
  generated : Nat

/-- Lowers the next module. -/
def Progress.lowerModule (cx : Context) (p : Progress) (m : Module) : Except Failure Progress := do
  let (lowered, symbols) ← m.lower cx p.generated
  let renames := symbols.renames p.modules.length
  return ⟨p.modules ++ [lowered],
    if renames.targets.isEmpty then p.renames else p.renames ++ [renames], symbols.generated⟩

/-- Lowers a circuit; `generated` names were generated before. Returns the circuit, what was done,
and how many names were generated by then. -/
def Circuit.lower (c : Circuit) (options : Options) (generated : Nat) :
    Except Failure (Circuit × Stats × Nat) := do
  let cx : Context := ⟨options, c.moduleTable⟩
  let p ← c.modules.foldlM (Progress.lowerModule cx) { generated }
  let (circuit, split) ← { c with modules := p.modules }.followRenames p.renames
  let stats := {
    modules := c.modules.length
    renamedSymbols := total (p.renames.map (·.targets.length))
    renameTargets := total (p.renames.map Renames.targetCount)
    pathsSplit := split }
  return (circuit, stats, p.generated)

end Scalarize
