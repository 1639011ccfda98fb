import Scalarize.Json
import Scalarize.Ty

/-!
# Types as JSON

A ground type without a width is its name; any other type is an object with one member, whose key
names the kind of type.

* `Ty.toJson` : writes a type; `Ty.ofJson?` : reads one, and nothing that is not a type.
-/

namespace Scalarize.Ty

/-- A width, null if it is absent. -/
def widthToJson : Option Nat → Json
  | some w => .int w
  | none => .null

mutual

/-- JSON form of a type. -/
def toJson : Ty → Json
  | .ground (.uint w) => .obj [("UInt", widthToJson w)]
  | .ground (.sint w) => .obj [("SInt", widthToJson w)]
  | .ground (.analog w) => .obj [("Analog", widthToJson w)]
  | .ground .clock => .str "Clock"
  | .ground .reset => .str "Reset"
  | .ground .asyncReset => .str "AsyncReset"
  | .bundle fs => .obj [("Bundle", .obj [("elements", .arr (fieldsToJson fs))])]
  | .vector e n => .obj [("Vector", .obj [("element", e.toJson), ("len", .int n)])]

/-- JSON form of the fields of a bundle. -/
def fieldsToJson : List Field → List Json
  | [] => []
  | ⟨name, flip, t⟩ :: fs =>
    .obj [("name", .str name), ("flip", .bool flip), ("ty", t.toJson)] :: fieldsToJson fs

end

/-- A width: a 32-bit number, or null. -/
def widthOfJson? : Json → Option (Option Nat)
  | .null => some none
  | j => (j.word? UInt32.size).map some

/-- The ground types that are known by name alone. -/
def plain? : String → Option Ground
  | "Clock" => some .clock
  | "Reset" => some .reset
  | "AsyncReset" => some .asyncReset
  | _ => none

/-- Reads a type from JSON that is not nested deeper than the fuel. A name may also stand as the key
of a member that is null. -/
def ofJsonWith? : Nat → Json → Option Ty
  | 0, _ => none
  | fuel + 1, j =>
    let field? (j : Json) : Option Field := do
      let [.str name, .bool flip, ty] ← j.record? ["name", "flip", "ty"] | none
      return ⟨name, flip, ← ofJsonWith? fuel ty⟩
    match j with
    | .str name => (plain? name).map .ground
    | .obj [("UInt", w)] => (widthOfJson? w).map fun w => .ground (.uint w)
    | .obj [("SInt", w)] => (widthOfJson? w).map fun w => .ground (.sint w)
    | .obj [("Analog", w)] => (widthOfJson? w).map fun w => .ground (.analog w)
    | .obj [("Bundle", j)] => do
      let [.arr items] ← j.record? ["elements"] | none
      return .bundle (← items.mapM field?)
    | .obj [("Vector", j)] => do
      let [element, len] ← j.record? ["element", "len"] | none
      return .vector (← ofJsonWith? fuel element) (← len.word? UInt64.size)
    | .obj [(name, .null)] => (plain? name).map .ground
    | _ => none

/-- Reads a type from JSON. -/
def ofJson? (j : Json) : Option Ty := ofJsonWith? j.depth j

end Scalarize.Ty
