import Scalarize.Circuit
import Scalarize.Toml

/-!
# Lowering options

* `Options` : which aggregates survive; `Options.portsMayPreserve` : whether those at the ports of a
  module do;
* `Options.ofToml?` : reads the options from TOML.
-/

namespace Scalarize

/-- Which aggregates survive lowering. -/
structure Options where
  /-- Keep preservable aggregates. -/
  preserveAggregate : Bool := false
  /-- Split the ports of public and external modules even so. -/
  preservePublicTypes : Bool := true
  deriving DecidableEq, Repr

namespace Options

/-- Preservable aggregates at the ports of a module are kept. -/
def portsMayPreserve (o : Options) (e : ModuleEntry) : Bool :=
  o.preserveAggregate && (!o.preservePublicTypes || !e.isExternal && !e.isPublic)

/-- Sets one option by its key; an option that is set already, or unknown, is refused. -/
def set? : Options × List String → String × Bool → Option (Options × List String)
  | (o, seen), (key, value) =>
    if key ∈ seen then none
    else match key with
      | "preserve-aggregate" => some ({ o with preserveAggregate := value }, key :: seen)
      | "preserve-public-types" => some ({ o with preservePublicTypes := value }, key :: seen)
      | _ => none

/-- Reads options from TOML; an absent option has its default. -/
def ofToml? (text : String) : Option Options := do
  let switches ← Toml.switches? text
  let (options, _) ← switches.foldlM set? ({}, [])
  return options

end Options

end Scalarize
