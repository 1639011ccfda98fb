import Scalarize.Annotation.Restrict
import Scalarize.Lower.State

/-!
# Memories

A memory of aggregates gives way to one memory for each part of the data type. Each former port
becomes a wire: its data and mask fields are shared out over the new memories, its other fields drive
all of them.

* `Memory.narrow` : the memory of one part;
* `Lower.portWires`, `Lower.narrowMemory`, `Lower.joinField` : the wires, the memories, and the
  connections between them;
* `Lower.memory` : replaces a memory.
-/

namespace Scalarize

/-- The memory that holds one part of every entry; its symbol is still to be made. -/
def Memory.narrow (m : Memory) (part : Part) : Except Failure Memory := do
  let ports ← m.ports.mapM fun p => do
    let source := portType m.depth m.dataType p.kind
    let narrowed := portType m.depth part.ty p.kind
    return { p with annotations := ← restrictPort p.annotations source narrowed part }
  return { m with
    decl := { m.decl.extendName part.suffix with sym := none }
    dataType := part.ty
    ports }

namespace Lower

/-- A wire for each port of a memory, which takes over the readers of the port. -/
def portWires (o : OpId) (m : Memory) : Lower (List ValueId) :=
  m.ports.zipIdx.mapM fun (p, i) => do
    let name := m.decl.name.getD "" ++ "_" ++ p.name
    let wire ← Build.wire (Memory.portType m.depth m.dataType p.kind) { name := some name }
    let value ← body (·.result wire 0)
    change fun b => do b.replaceAllUses (← b.result o i) value
    return value

/-- Makes the memory of one part. -/
def narrowMemory (m : Memory) (part : Part) : Lower OpId := do
  let memory ← m.narrow part
  let o ← Build.mem memory
  if let some base := m.decl.sym then
    let sym ← mint (·.derive base part.suffix part.ty.isGround (.operation o))
    change fun b => return b.modifyDecl o fun d => { d with sym := some sym }
  return o

/-- Connects one field of a port's wire with the ports of the new memories. -/
def joinField (wire : ValueId) (port : Nat) (memories : List (Part × OpId)) (field : Field)
    (position : Nat) : Lower Unit := do
  let whole ← Build.subfield wire position
  memories.forM fun (part, memory) => do
    if Memory.followsData field.name then
      let leaf ← Build.part whole part.index
      let newPort ← body (·.result memory port)
      let newField ← Build.subfield newPort position
      let _ ← if field.flip then Build.connect true leaf newField
        else Build.connect true newField leaf
    else
      let newPort ← body (·.result memory port)
      let newField ← Build.subfield newPort position
      let _ ← Build.connect true newField whole

/-- Replaces a memory of aggregates. -/
def memory (o : OpId) (m : Memory) : Lower Bool := do
  let some parts ← m.dataType.peel false | return false
  let wires ← portWires o m
  let memories ← parts.mapM fun part => return (part, ← narrowMemory m part)
  (wires.zip m.ports).zipIdx.forM fun ((wire, p), port) =>
    (Memory.portFields m.depth m.dataType p.kind).zipIdx.forM fun (field, position) =>
      joinField wire port memories field position
  return true

end Lower

end Scalarize
