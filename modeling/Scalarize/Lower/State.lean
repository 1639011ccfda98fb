import Scalarize.Build
import Scalarize.Lower.Options
import Scalarize.Lower.Symbols

/-!
# The state of lowering

* `Context` : what all modules share; `LowerState`, `Lower` : the body that is being lowered and its
  symbols;
* `Lower.body`, `Lower.change` : reading and editing the body; building steps run as they are;
* `Lower.mint` : makes a symbol.
-/

namespace Scalarize

/-- What the lowering of every module may consult. -/
structure Context where
  options : Options
  modules : ModuleTable

/-- A body that is being lowered. -/
structure LowerState where
  builder : Builder
  symbols : Symbols

/-- Computations that lower a body. -/
abbrev Lower := StateT LowerState (Except Failure)

namespace Lower

/-- Runs a building step. -/
def build {α : Type} (step : Build α) : Lower α := fun ⟨builder, symbols⟩ => do
  let (a, builder) ← step builder
  return (a, ⟨builder, symbols⟩)

instance : MonadLift Build Lower := ⟨build⟩

/-- Reads the body. -/
def body {α : Type} (f : Body → Except Failure α) : Lower α := do f (← get).builder.body

/-- Changes the body. -/
def change (f : Body → Except Failure Body) : Lower Unit := build (Build.change f)

/-- Makes a symbol. -/
def mint (f : Symbols → String × Symbols) : Lower String := fun ⟨builder, symbols⟩ =>
  let (sym, symbols) := f symbols
  return (sym, ⟨builder, symbols⟩)

/-- The insertion point. -/
def point : Lower Point := return (← get).builder.point

end Lower

end Scalarize
