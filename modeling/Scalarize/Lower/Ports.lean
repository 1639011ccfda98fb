import Scalarize.Annotation.Restrict
import Scalarize.Lower.Readers
import Scalarize.Lower.Symbols

/-!
# Module ports

Aggregate ports are split in place, layer by layer, and the arguments of the body with them.

* `Port.narrow` : the port of one part;
* `PortState`, `Lower.splitPort` : one port with all its layers; `Lower.ports` : all ports.
-/

namespace Scalarize

/-- The body whose arguments follow the ports, and the symbols of the module. -/
structure PortState where
  body : Option Body
  symbols : Symbols

/-- The port of one part, and the symbols after it got one where it needs one. -/
def Port.narrow (p : Port) (part : Part) (symbols : Symbols) : Except Failure (Port × Symbols) := do
  let restricted ← restrict p.annotations part
  let (sym, symbols) := match p.sym with
    | some base =>
      let (sym, symbols) := symbols.derive base part.suffix part.ty.isGround .port
      (some sym, symbols)
    | none =>
      if restricted.needsSym then
        let (sym, symbols) := symbols.detached (some p.name) part.suffix
        (some sym, symbols)
      else (none, symbols)
  return (⟨p.name ++ part.suffix, part.ty, p.direction.flipIf part.flip, sym,
    restricted.annotations⟩, symbols)

/-- Replaces the argument at a position by one argument for each type, and its accessors by them. -/
def Body.splitArgument (b : Body) (i : Nat) (types : List Ty) : Except Failure Body := do
  let (b, values) ← types.zipIdx.foldlM (fun (b, values) (ty, j) => do
    let (v, b) ← Body.insertArgument b (i + 1 + j) ty
    return (b, values ++ [v])) (b, [])
  let old ← orOutOfRange b.args[i]?
  let b ← b.rewire old values
  return (← b.removeArgument i).2

namespace Lower

/-- Splits the port at a position until its parts stay whole; returns them in order. As much fuel as
the type is deep is enough. -/
def splitPort (keep : Bool) : Nat → Port → Nat → StateT PortState (Except Failure) (List Port)
  | 0, p, _ => return [p]
  | fuel + 1, p, i => do
    match ← p.ty.peel keep with
    | none => return [p]
    | some parts =>
      let new ← parts.mapM fun part => do
        let (port, symbols) ← p.narrow part (← get).symbols
        modify fun s => { s with symbols }
        return port
      if let some b := (← get).body then
        let b ← b.splitArgument i (parts.map (·.ty))
        modify fun s => { s with body := some b }
      new.foldlM (fun done port => do
        return done ++ (← splitPort keep fuel port (i + done.length))) []

/-- Splits all ports. -/
def ports (keep : Bool) (ps : List Port) : StateT PortState (Except Failure) (List Port) :=
  ps.foldlM (fun done p => do return done ++ (← splitPort keep p.ty.depth p done.length)) []

end Lower

end Scalarize
