import Scalarize.Annotation
import Scalarize.Ty

/-!
# Declarations

* `Direction`, `Direction.flipIf` : which way a port flows;
* `Decl` : name, annotations and inner symbol of a declaration; `Decl.part` : those of one part;
* `Memory` : a memory and its ports, `Memory.portType` the bundle of a port;
* `Instance` : an instance of a module and its ports.
-/

namespace Scalarize

/-- Which way a port flows, seen from its module. -/
inductive Direction where
  | input
  | output
  deriving DecidableEq, Repr

namespace Direction

/-- The opposite direction if `flip` is set. -/
def flipIf (d : Direction) (flip : Bool) : Direction :=
  match d, flip with
  | d, false => d
  | input, true => output
  | output, true => input

/-- Written form. -/
def text : Direction → String
  | input => "in"
  | output => "out"

theorem flipIf_flipIf (d : Direction) (p q : Bool) : (d.flipIf p).flipIf q = d.flipIf (p != q) := by
  cases d <;> cases p <;> cases q <;> rfl

end Direction

/-- Whether a name may be dropped. -/
inductive NameKind where
  | droppable
  | interesting
  deriving DecidableEq, Repr

/-- Name kind as a word. -/
def NameKind.text : NameKind → String
  | droppable => "droppable"
  | interesting => "interesting"

/-- What every declaration carries. -/
structure Decl where
  name : Option String := none
  nameKind : NameKind := .droppable
  annotations : List Annotation := []
  /-- Inner symbol, by which hierarchical paths refer to the declaration. -/
  sym : Option String := none
  deriving DecidableEq

/-- The same declaration with its name extended. -/
def Decl.extendName (d : Decl) (suffix : String) : Decl :=
  { d with name := d.name.map (· ++ suffix) }

/-! ## Memories -/

/-- What a memory port does. -/
inductive PortKind where
  | read
  | write
  | readWrite
  deriving DecidableEq, Repr

/-- Written form. -/
def PortKind.text : PortKind → String
  | read => "read"
  | write => "write"
  | readWrite => "rw"

/-- What a read returns while the entry is written. -/
inductive ReadUnderWrite where
  | undefined
  | old
  | new
  deriving DecidableEq, Repr

/-- Written form. -/
def ReadUnderWrite.text : ReadUnderWrite → String
  | undefined => "undefined"
  | old => "old"
  | new => "new"

/-- A memory port. Its annotations address the port's bundle by field ID. -/
structure MemPort where
  name : String
  kind : PortKind
  annotations : List Annotation
  deriving DecidableEq

/-- A memory; it has one result for each port. -/
structure Memory where
  decl : Decl
  /-- Type of an entry. -/
  dataType : Ty
  /-- Number of entries. -/
  depth : Nat
  readLatency : Nat
  writeLatency : Nat
  ruw : ReadUnderWrite
  ports : List MemPort
  deriving DecidableEq

/-- Number of binary digits of a number, none for zero. -/
def bitLength (n : Nat) : Nat := if n = 0 then 0 else n.log2 + 1

/-- Digits needed to number `n` things from zero. -/
def selectWidth (n : Nat) : Nat := bitLength (n - 1)

namespace Memory

/-- Width of an address; a memory of one entry still has an address bit. -/
def addressWidth (depth : Nat) : Nat := max (selectWidth depth) 1

/-- Whether the type of a port's field follows the data type. -/
def followsData (field : String) : Bool :=
  ["data", "mask", "rdata", "wdata", "wmask"].contains field

/-- Fields of a port of a memory with entries of type `data`. -/
def portFields (depth : Nat) (data : Ty) (kind : PortKind) : List Field :=
  [⟨"addr", false, .uint (addressWidth depth)⟩, ⟨"en", false, .uint 1⟩, ⟨"clk", false, .clock⟩] ++
    match kind with
    | .read => [⟨"data", true, data⟩]
    | .write => [⟨"data", false, data⟩, ⟨"mask", false, data.mask⟩]
    | .readWrite =>
      [⟨"rdata", true, data⟩, ⟨"wmode", false, .uint 1⟩, ⟨"wdata", false, data⟩,
        ⟨"wmask", false, data.mask⟩]

/-- Type of a port of a memory with entries of type `data`. -/
def portType (depth : Nat) (data : Ty) (kind : PortKind) : Ty := .bundle (portFields depth data kind)

/-- Types of all ports, which are the memory's results. -/
def portTypes (m : Memory) : List Ty := m.ports.map fun p => portType m.depth m.dataType p.kind

end Memory

/-! ## Instances -/

/-- A port of an instance. -/
structure InstancePort where
  name : String
  direction : Direction
  annotations : List Annotation
  deriving DecidableEq

/-- An instance of a module; it has one result for each port. -/
structure Instance where
  decl : Decl
  moduleName : String
  ports : List InstancePort
  /-- Emitted apart from the module that holds it. -/
  bound : Bool
  deriving DecidableEq

end Scalarize
