import Scalarize.Lower.Access
import Scalarize.Ty.Part

/-!
# Connections

`Lower.connect` : a connection of aggregates gives way to one connection for each part, whatever is
preserved elsewhere. A flipped part is driven the other way.
-/

namespace Scalarize.Lower

/-- Connects one part of two aggregates. -/
def connectPart (strict : Bool) (dest src : ValueId) (part : Part) : Build Unit := do
  let src ← Build.part src part.index
  let dest ← Build.part dest part.index
  let _ ← if part.flip then Build.connect strict src dest else Build.connect strict dest src

/-- Replaces a connection with a computed or aggregate destination. -/
def connect (o : OpId) (strict : Bool) : Lower Bool := do
  if ← writePath o strict then return true
  let dest ← body (·.operand o 0)
  let src ← body (·.operand o 1)
  let some parts ← (← body (·.typeOf dest)).peel false | return false
  parts.forM fun part => connectPart strict dest src part
  return true

end Scalarize.Lower
