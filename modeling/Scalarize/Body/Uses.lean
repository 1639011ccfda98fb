import Scalarize.Body

/-!
# Use lists

Every value lists the operand slots that read it. The lists are kept by adding the slots of an
operation when it gets its operands and removing them when it loses them.

* `Body.readSlots` : the slots in which an operation reads a value;
* `Body.addUses`, `Body.removeUses` : enter and take out the slots of an operation;
* `Body.getElem?_addUses`, `Body.getElem?_removeUses` : what either does to one value.
-/

namespace Scalarize.Body

/-- The operand slots in which an operation reads a value, given its operands from slot `i` on. -/
def readSlots (o : OpId) (v : ValueId) : List ValueId → Nat → List Use
  | [], _ => []
  | w :: operands, i =>
    if w = v then ⟨o, i⟩ :: readSlots o v operands (i + 1) else readSlots o v operands (i + 1)

/-- Notes that the operands of an operation read their values. -/
def addUses (values : Array Value) (o : OpId) (operands : List ValueId) : Array Value :=
  operands.zipIdx.foldl
    (fun values (v, i) => values.modify v.index fun x => { x with uses := x.uses ++ [⟨o, i⟩] }) values

/-- Forgets that the operands of an operation read their values. -/
def removeUses (values : Array Value) (o : OpId) (operands : List ValueId) : Array Value :=
  operands.zipIdx.foldl
    (fun values (v, i) => values.modify v.index fun x => { x with uses := x.uses.erase ⟨o, i⟩ }) values

theorem mem_readSlots {o : OpId} {v : ValueId} {operands : List ValueId} {i : Nat} {u : Use} :
    u ∈ readSlots o v operands i ↔
      u.op = o ∧ i ≤ u.operand ∧ operands[u.operand - i]? = some v := by
  induction operands generalizing i with
  | nil => simp [readSlots]
  | cons w operands ih =>
    have hu : u = ⟨o, i⟩ ↔ u.op = o ∧ u.operand = i := by cases u; simp
    by_cases hi : u.operand = i
    · have hrest : u ∉ readSlots o v operands (i + 1) := fun h => by
        have := (ih.1 h).2.1
        omega
      by_cases hw : w = v <;> simp [readSlots, hw, hu, hi, hrest]
    · have step : i ≤ u.operand ↔ i + 1 ≤ u.operand := by omega
      by_cases hle : i + 1 ≤ u.operand
      · obtain ⟨j, hj⟩ : ∃ j, u.operand - i = j + 1 := ⟨u.operand - i - 1, by omega⟩
        have hj' : u.operand - (i + 1) = j := by omega
        by_cases hw : w = v <;> simp [readSlots, hw, ih, hu, hi, step, hj, hj']
      · by_cases hw : w = v <;> simp [readSlots, hw, ih, hu, hi, step, hle]

@[simp] theorem size_addUses (values : Array Value) (o : OpId) (operands : List ValueId) :
    (addUses values o operands).size = values.size := by
  unfold addUses
  generalize 0 = i
  induction operands generalizing i values with
  | nil => simp
  | cons w operands ih => simp [List.zipIdx_cons, ih]

@[simp] theorem size_removeUses (values : Array Value) (o : OpId) (operands : List ValueId) :
    (removeUses values o operands).size = values.size := by
  unfold removeUses
  generalize 0 = i
  induction operands generalizing i values with
  | nil => simp
  | cons w operands ih => simp [List.zipIdx_cons, ih]

/-- A value gains the slots in which the operation reads it, behind those that it has. -/
theorem getElem?_addUses (values : Array Value) (o : OpId) (operands : List ValueId) (v : ValueId) :
    (addUses values o operands)[v.index]? =
      values[v.index]?.map fun x => { x with uses := x.uses ++ readSlots o v operands 0 } := by
  unfold addUses
  generalize 0 = i
  induction operands generalizing i values with
  | nil => simp [readSlots]
  | cons w operands ih =>
    obtain ⟨w⟩ := w
    obtain ⟨v⟩ := v
    simp only [List.zipIdx_cons, List.foldl_cons, ih, Array.getElem?_modify, readSlots]
    by_cases h : w = v <;> simp [h, Function.comp_def]

/-- A value loses the slots in which the operation reads it. -/
theorem getElem?_removeUses (values : Array Value) (o : OpId) (operands : List ValueId)
    (v : ValueId) :
    (removeUses values o operands)[v.index]? = values[v.index]?.map fun x =>
      { x with uses := (readSlots o v operands 0).foldl List.erase x.uses } := by
  unfold removeUses
  generalize 0 = i
  induction operands generalizing i values with
  | nil => simp [readSlots]
  | cons w operands ih =>
    obtain ⟨w⟩ := w
    obtain ⟨v⟩ := v
    simp only [List.zipIdx_cons, List.foldl_cons, ih, Array.getElem?_modify, readSlots]
    by_cases h : w = v <;> simp [h, Function.comp_def]

end Scalarize.Body
