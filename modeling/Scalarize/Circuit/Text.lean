import Scalarize.Circuit

/-!
# Written circuits

* `Writer` : the names that values got so far, and the next number;
* `Body.opText` : one operation; `Writer.blockText` : the operations of a block;
* `Module.text`, `Circuit.text` : a whole module, a whole circuit.

Results are numbered in the order in which they are written; arguments carry the names of their
ports. A value that has no name yet is written `%?`.
-/

namespace Scalarize

/-- Indentation of a level. -/
def pad (level : Nat) : String := String.join (List.replicate level "  ")

/-- Comma-separated list. -/
def commas (items : List String) : String := ", ".intercalate items

/-- An opening and a closing brace, which delimit blocks. -/
def openBrace : String := "\x7b"

@[inherit_doc openBrace] def closeBrace : String := "\x7d"

/-! ## Declarations -/

/-- A symbol, if there is one. -/
def symText : Option String → String
  | some sym => s!" sym @{sym}"
  | none => ""

/-- One annotation: its class, field ID and path. -/
def Annotation.text (a : Annotation) : String :=
  a.className ++ (a.fieldId.elim "" fun id => s!" fieldID={id}") ++
    (a.path.elim "" fun path => s!" nonlocal=@{path}")

/-- Annotations in brackets, nothing if there are none. -/
def annotationsText (annotations : List Annotation) : String :=
  if annotations.isEmpty then "" else s!" [{commas (annotations.map Annotation.text)}]"

/-- Name, symbol and annotations. -/
def Decl.text (d : Decl) : String :=
  (d.name.elim "" fun name => s!" \"{name}\"") ++ symText d.sym ++ annotationsText d.annotations

/-! ## Operations -/

/-- The names of the values written so far. -/
structure Writer where
  names : Assoc ValueId String
  next : Nat := 0

namespace Writer

/-- Name of a value. -/
def name (w : Writer) (v : ValueId) : String := (w.names.get? v).getD "%?"

/-- Numbers results; returns their names. -/
def number (w : Writer) (results : List ValueId) : List String × Writer :=
  let names := results.zipIdx.map fun (v, i) => (v, s!"%{w.next + i}")
  (names.map (·.2), ⟨names.reverse ++ w.names, w.next + results.length⟩)

end Writer

namespace Body

/-- Type of the first result; `UInt<0>` if there is none. -/
def resultText (b : Body) (op : Operation) : Except Failure String :=
  match op.results with
  | [] => return (Ty.uint 0).text
  | v :: _ => return (← b.typeOf v).text

/-- One operation without its results and without the blocks that it guards. -/
def opText (b : Body) (op : Operation) (name : ValueId → String) : Except Failure String := do
  let operand (i : Nat) : Except Failure String := return name (← orOutOfRange op.operands[i]?)
  let operands := commas (op.operands.map name)
  let ty ← b.resultText op
  match op.kind with
  | .wire d => return s!"wire{d.text} : {ty}"
  | .reg d => return s!"reg {operands}{d.text} : {ty}"
  | .regReset d => return s!"regreset {operands}{d.text} : {ty}"
  | .node d => return s!"node {operands}{d.text} : {ty}"
  | .mem m =>
    let ports := m.ports.map fun p => s!"{p.name}: {p.kind.text}" ++ annotationsText p.annotations
    return s!"mem{m.decl.text} {m.dataType.text} x {m.depth} ({commas ports})"
  | .inst i =>
    let ports ← (i.ports.zip op.results).mapM fun (p, v) =>
      return s!"{p.direction.text} {p.name}: {(← b.typeOf v).text}" ++ annotationsText p.annotations
    return s!"instance{i.decl.text} @{i.moduleName}({commas ports})"
  | .constant value => return s!"constant {value} : {ty}"
  | .invalid => return s!"invalid : {ty}"
  | .subfield i =>
    let input ← operand 0
    let inputTy ← b.typeOf (← orOutOfRange op.operands[0]?)
    let field := (inputTy.fields[i]?).elim (toString i) (·.name)
    return s!"subfield {input}.{field} : {ty}"
  | .subindex i => return s!"subindex {← operand 0}[{i}] : {ty}"
  | .subaccess => return s!"subaccess {← operand 0}[{← operand 1}] : {ty}"
  | .prim (.bits hi lo) => return s!"bits {← operand 0} {hi} {lo} : {ty}"
  | .connect _ => return s!"{op.kind.text} {operands}"
  | .when _ _ => return s!"when {← operand 0} {openBrace}"
  | _ => return s!"{op.kind.text} {operands} : {ty}"

end Body

namespace Writer

mutual

/-- An outline as lines: the operation, and the blocks that it guards one level further in. -/
def outlineText (b : Body) (level : Nat) (w : Writer) : Outline → Except Failure (String × Writer)
  | .node o inThen inElse => do
    let op ← b.op o
    let (results, w') := w.number op.results
    let head := pad level ++ (if results.isEmpty then "" else commas results ++ " = ") ++
      (← b.opText op w'.name) ++ "\n"
    match op.kind with
    | .when _ elseBlock =>
      let (inThen, w) ← outlinesText b (level + 1) w' inThen
      let (inElse, w) ← outlinesText b (level + 1) w inElse
      let middle := if elseBlock.isSome then pad level ++ closeBrace ++ " else " ++ openBrace ++ "\n"
        else ""
      return (head ++ inThen ++ middle ++ inElse ++ pad level ++ closeBrace ++ "\n", w)
    | _ => return (head, w')

/-- Outlines as lines, in order. -/
def outlinesText (b : Body) (level : Nat) (w : Writer) : List Outline →
    Except Failure (String × Writer)
  | [] => return ("", w)
  | t :: ts => do
    let (first, w) ← outlineText b level w t
    let (rest, w) ← outlinesText b level w ts
    return (first ++ rest, w)

end

end Writer

/-! ## Modules and circuits -/

/-- One port. -/
def Port.text (p : Port) : String :=
  s!"{p.direction.text} {p.name}: {p.ty.text}" ++ symText p.sym ++ annotationsText p.annotations

/-- A module as lines, each starting `level` steps in. -/
def Module.text (m : Module) (level : Nat) : Except Failure String := do
  let head := pad level ++ (if m.isExternal then "extmodule " else "module ") ++
    (if m.isPublic then "" else "private ") ++ s!"@{m.name}({commas (m.ports.map Port.text)})"
  match m.body with
  | none => return head ++ "\n"
  | some b =>
    let names := (m.ports.zip b.args).map fun (p, v) => (v, s!"%{p.name}")
    let (lines, _) ← Writer.outlinesText b (level + 1) ⟨names.reverse, 0⟩ (b.outline Body.entry)
    return head ++ " " ++ openBrace ++ "\n" ++ lines ++ pad level ++ closeBrace ++ "\n"

/-- One step of a path. -/
def Segment.text : Segment → String
  | inner ref => s!"@{ref.moduleName}::@{ref.sym}"
  | whole name => s!"@{name}"

/-- A path on one line. -/
def HierPath.text (p : HierPath) : String :=
  s!"  hierpath @{p.name} [{commas (p.segments.map Segment.text)}]\n"

/-- A circuit as lines: its paths, then its modules. -/
def Circuit.text (c : Circuit) : Except Failure String := do
  let modules ← c.modules.mapM (·.text 1)
  return s!"circuit @{c.name} " ++ openBrace ++ "\n" ++ String.join (c.paths.map HierPath.text) ++
    String.join modules ++ closeBrace ++ "\n"

end Scalarize
