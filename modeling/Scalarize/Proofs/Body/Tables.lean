import Mathlib.Data.List.InsertIdx
import Scalarize.Proofs.Ends

/-!
# The tables of a body and what edits do to them

* `Body.op?`, `Body.value?`, `Body.block?`, `Body.ty?` : the entries of the tables;
* `Body.Joined`, `Body.Inserted`, `Body.insertOp_ends` : a new operation;
* `Body.Replaced`, `Body.Dropped` : one value read in place of another, and operands taken away;
* `Body.Outlives` : operations and values keep what never changes about them.
-/

namespace Scalarize.Body

variable {must : Prop} {b b' : Body} {o x : OpId} {v w : ValueId} {k : BlockId}

/-! ## Entries -/

/-- The entry of an operation. -/
def op? (b : Body) (o : OpId) : Option Operation := b.ops[o.index]?

/-- The entry of a value. -/
def value? (b : Body) (v : ValueId) : Option Value := b.values[v.index]?

/-- The entry of a block. -/
def block? (b : Body) (k : BlockId) : Option Block := b.blocks[k.index]?

/-- Type of a value, if it is in the table. -/
def ty? (b : Body) (v : ValueId) : Option Ty := (b.value? v).map (·.ty)

/-- Where a value comes from, if it is in the table. -/
def origin? (b : Body) (v : ValueId) : Option Origin := (b.value? v).map (·.origin)

theorem op_eq (b : Body) (o : OpId) : b.op o = orOutOfRange (b.op? o) := rfl

theorem value_eq (b : Body) (v : ValueId) : b.value v = orOutOfRange (b.value? v) := rfl

theorem block_eq (b : Body) (k : BlockId) : b.block k = orOutOfRange (b.block? k) := rfl

theorem kind?_eq (b : Body) (o : OpId) : b.kind? o = (b.op? o).map (·.kind) := rfl

theorem stands_eq (b : Body) (o : OpId) : b.stands o = (b.op? o).any (!·.erased) := rfl

theorem lt_of_op? {op : Operation} (h : b.op? o = some op) : o.index < b.ops.size :=
  (Array.getElem?_eq_some_iff.1 h).1

theorem lt_of_value? {x : Value} (h : b.value? v = some x) : v.index < b.values.size :=
  (Array.getElem?_eq_some_iff.1 h).1

theorem lt_of_block? {blk : Block} (h : b.block? k = some blk) : k.index < b.blocks.size :=
  (Array.getElem?_eq_some_iff.1 h).1

theorem isSome_op? : (b.op? o).isSome ↔ o.index < b.ops.size := by
  simp [op?]

theorem isSome_value? : (b.value? v).isSome ↔ v.index < b.values.size := by
  simp [value?]

theorem isSome_ty? : (b.ty? v).isSome ↔ v.index < b.values.size := by
  simp [ty?, value?]

theorem ty?_eq_some_iff {t : Ty} : b.ty? v = some t ↔ ∃ x, b.value? v = some x ∧ x.ty = t := by
  simp [ty?]

theorem lt_of_ty? {t : Ty} (h : b.ty? v = some t) : v.index < b.values.size :=
  isSome_ty?.1 (by rw [h]; rfl)

theorem origin?_eq_some_iff {r : Origin} :
    b.origin? v = some r ↔ ∃ x, b.value? v = some x ∧ x.origin = r := by
  simp [origin?]

theorem isSome_of_origin? {r : Origin} (h : b.origin? v = some r) : (b.value? v).isSome := by
  obtain ⟨x, hx, -⟩ := origin?_eq_some_iff.1 h
  rw [hx]
  rfl

/-- The operation reads the value. -/
def Reads (b : Body) (o : OpId) (v : ValueId) : Prop :=
  ∃ op, b.op? o = some op ∧ v ∈ op.operands

/-! ## Reading entries -/

theorem op_ends {Q : Operation → Prop} (h : ∀ op, b.op? o = some op → Q op)
    (hm : must → (b.op? o).isSome) : Ends must (b.op o) Q :=
  .orOutOfRange h hm

theorem typeOf_ends {Q : Ty → Prop} (h : ∀ t, b.ty? v = some t → Q t)
    (hm : must → (b.ty? v).isSome) : Ends must (b.typeOf v) Q := by
  refine Ends.bind (P := fun x => b.value? v = some x) (.orOutOfRange (fun x hx => hx) ?_) ?_
  · intro h
    have := hm h
    rwa [isSome_ty?, ← isSome_value?] at this
  · exact fun x hx => .pure (h _ (ty?_eq_some_iff.2 ⟨x, hx, rfl⟩))

theorem kindOf_ends {Q : OpKind → Prop} (h : ∀ op, b.op? o = some op → Q op.kind)
    (hm : must → (b.op? o).isSome) : Ends must (b.kindOf o) Q :=
  Ends.bind (op_ends (fun _ h => h) hm) fun op hop => .pure (h op hop)

theorem operand_ends {i : Nat} {Q : ValueId → Prop}
    (h : ∀ op v, b.op? o = some op → op.operands[i]? = some v → Q v)
    (hm : must → ∃ op v, b.op? o = some op ∧ op.operands[i]? = some v) :
    Ends must (b.operand o i) Q := by
  refine Ends.bind (op_ends (fun _ h => h) fun hmust => ?_) fun op hop =>
    .orOutOfRange (fun v hv => h op v hop hv) fun hmust => ?_
  · obtain ⟨op, v, hop, -⟩ := hm hmust
    simp [hop]
  · obtain ⟨op', v, hop', hv⟩ := hm hmust
    obtain rfl : op = op' := Option.some.inj (hop.symm.trans hop')
    simp [hv]

theorem result_ends {i : Nat} {Q : ValueId → Prop}
    (h : ∀ op v, b.op? o = some op → op.results[i]? = some v → Q v)
    (hm : must → ∃ op v, b.op? o = some op ∧ op.results[i]? = some v) :
    Ends must (b.result o i) Q := by
  refine Ends.bind (op_ends (fun _ h => h) fun hmust => ?_) fun op hop =>
    .orOutOfRange (fun v hv => h op v hop hv) fun hmust => ?_
  · obtain ⟨op, v, hop, -⟩ := hm hmust
    simp [hop]
  · obtain ⟨op', v, hop', hv⟩ := hm hmust
    obtain rfl : op = op' := Option.some.inj (hop.symm.trans hop')
    simp [hv]

theorem definer_ends {Q : Option OpId → Prop}
    (harg : b.origin? v = some .argument → Q none)
    (hres : ∀ d i, b.origin? v = some (.result d i) → Q (some d))
    (hm : must → (b.value? v).isSome) : Ends must (b.definer v) Q := by
  refine Ends.bind (.orOutOfRange (fun x hx => hx) hm : Ends must (b.value v) fun x => b.value? v = some x)
    fun x hx => ?_
  cases hr : x.origin with
  | argument => exact .pure (harg (origin?_eq_some_iff.2 ⟨x, hx, hr⟩))
  | result d i => exact .pure (hres d i (origin?_eq_some_iff.2 ⟨x, hx, hr⟩))

theorem slotCount_ends {Q : Nat → Prop} (h : ∀ blk, b.block? k = some blk → Q blk.slots.length)
    (hm : must → (b.block? k).isSome) : Ends must (b.slotCount k) Q :=
  Ends.bind (.orOutOfRange (fun _ h => h) hm : Ends must (b.block k) fun blk => b.block? k = some blk)
    fun blk hblk => .pure (h blk hblk)

/-! ## Entries that are there -/

section

variable {op : Operation} {ty : Ty} {i : Nat}

theorem op_eq_ok (h : b.op? o = some op) : b.op o = .ok op := by rw [op_eq, h]; rfl

theorem kindOf_eq_ok (h : b.op? o = some op) : b.kindOf o = .ok op.kind := by
  unfold kindOf
  rw [op_eq_ok h]
  rfl

theorem operand_eq_ok (h : b.op? o = some op) (hv : op.operands[i]? = some v) :
    b.operand o i = .ok v := by
  unfold operand
  rw [op_eq_ok h]
  change orOutOfRange op.operands[i]? = _
  rw [hv]
  rfl

theorem result_eq_ok (h : b.op? o = some op) (hv : op.results[i]? = some v) :
    b.result o i = .ok v := by
  unfold result
  rw [op_eq_ok h]
  change orOutOfRange op.results[i]? = _
  rw [hv]
  rfl

theorem typeOf_eq_ok (h : b.ty? v = some ty) : b.typeOf v = .ok ty := by
  obtain ⟨x, hx, rfl⟩ := ty?_eq_some_iff.1 h
  unfold typeOf
  rw [value_eq, hx]
  rfl

theorem definer_of_argument (h : b.origin? v = some .argument) : b.definer v = .ok none := by
  obtain ⟨x, hx, ho⟩ := origin?_eq_some_iff.1 h
  unfold definer
  rw [value_eq, hx]
  dsimp only [orOutOfRange, bind, Except.bind]
  rw [ho]
  rfl

theorem definer_of_result {d : OpId} {j : Nat} (h : b.origin? v = some (.result d j)) :
    b.definer v = .ok (some d) := by
  obtain ⟨x, hx, ho⟩ := origin?_eq_some_iff.1 h
  unfold definer
  rw [value_eq, hx]
  dsimp only [orOutOfRange, bind, Except.bind]
  rw [ho]
  rfl

theorem slotCount_eq_ok {k : BlockId} {blk : Block} (h : b.block? k = some blk) :
    b.slotCount k = .ok blk.slots.length := by
  unfold slotCount
  rw [block_eq, h]
  rfl

end

/-! ## Reading entries while lowering -/

variable {α : Type} {t : LowerState} {Q : α → LowerState → Prop} {op : Operation}

theorem bind_op (h : t.builder.body.op? o = some op) {f : Operation → Lower α}
    (hf : Runs must (f op) t Q) : Runs must (Lower.body (·.op o) >>= f) t Q := by
  refine Runs.bind_body (op_ends (Q := (op = ·)) (fun op' hop' => ?_) fun _ => ?_) fun _ he => he ▸ hf
  · exact Option.some.inj (h.symm.trans hop')
  · rw [h]
    rfl

theorem bind_kindOf (h : t.builder.body.op? o = some op) {f : OpKind → Lower α}
    (hf : Runs must (f op.kind) t Q) : Runs must (Lower.body (·.kindOf o) >>= f) t Q := by
  refine Runs.bind_body (kindOf_ends (Q := (op.kind = ·)) (fun op' hop' => ?_) fun _ => ?_)
    fun _ he => he ▸ hf
  · rw [Option.some.inj (h.symm.trans hop')]
  · rw [h]
    rfl

theorem bind_operand (h : t.builder.body.op? o = some op) {i : Nat} (hv : op.operands[i]? = some v)
    {f : ValueId → Lower α} (hf : Runs must (f v) t Q) :
    Runs must (Lower.body (·.operand o i) >>= f) t Q := by
  refine Runs.bind_body (operand_ends (Q := (v = ·)) (fun op' w hop' hw => ?_)
    fun _ => ⟨op, v, h, hv⟩) fun _ he => he ▸ hf
  rw [← Option.some.inj (h.symm.trans hop'), hv] at hw
  exact Option.some.inj hw

theorem bind_result (h : t.builder.body.op? o = some op) {i : Nat} (hv : op.results[i]? = some v)
    {f : ValueId → Lower α} (hf : Runs must (f v) t Q) :
    Runs must (Lower.body (·.result o i) >>= f) t Q := by
  refine Runs.bind_body (result_ends (Q := (v = ·)) (fun op' w hop' hw => ?_)
    fun _ => ⟨op, v, h, hv⟩) fun _ he => he ▸ hf
  rw [← Option.some.inj (h.symm.trans hop'), hv] at hw
  exact Option.some.inj hw

theorem bind_typeOf {ty : Ty} (h : t.builder.body.ty? v = some ty) {f : Ty → Lower α}
    (hf : Runs must (f ty) t Q) : Runs must (Lower.body (·.typeOf v) >>= f) t Q := by
  refine Runs.bind_body (typeOf_ends (Q := (ty = ·)) (fun ty' hty => ?_) fun _ => ?_)
    fun _ he => he ▸ hf
  · exact Option.some.inj (h.symm.trans hty)
  · rw [h]
    rfl

/-! ## A new operation -/

/-- `b'` is `b` with a new operation `o` in block `k`, as far as operations and values go. -/
structure Joined (b : Body) (k : BlockId) (kind : OpKind) (operands : List ValueId) (types : List Ty) (o : OpId)
    (b' : Body) : Prop where
  id : o = ⟨b.ops.size⟩
  op? : ∀ x, b'.op? x = if x = o then
    some ⟨kind, operands, (List.range types.length).map fun j => ⟨b.values.size + j⟩, k, false⟩
    else b.op? x
  old : ∀ v : ValueId, v.index < b.values.size →
    b'.value? v = (b.value? v).map fun x => { x with uses := x.uses ++ readSlots o v operands 0 }
  new : ∀ j, b'.value? ⟨b.values.size + j⟩ = types[j]?.map fun ty => ⟨ty, .result o j, []⟩
  args : b'.args = b.args
  operands_lt : ∀ v ∈ operands, v.index < b.values.size

/-- `b'` is `b` with a new operation `o` in front of slot `i` of block `k`. -/
structure Inserted (b : Body) (k : BlockId) (i : Nat) (kind : OpKind) (operands : List ValueId)
    (types : List Ty) (o : OpId) (b' : Body) : Prop extends Joined b k kind operands types o b' where
  block? : ∀ k', b'.block? k' = (b.block? k').map fun blk =>
    if k' = k then { blk with slots := blk.slots.insertIdx i o } else blk
  place : ∃ blk, b.block? k = some blk ∧ i ≤ blk.slots.length

theorem insertOp_ends {i : Nat} {kind : OpKind} {operands : List ValueId} {types : List Ty}
    (hm : must → (∃ blk, b.block? k = some blk ∧ i ≤ blk.slots.length) ∧
      ∀ v ∈ operands, v.index < b.values.size) :
    Ends must (b.insertOp k i kind operands types) fun r =>
      Inserted b k i kind operands types r.1 r.2 := by
  unfold insertOp
  refine Ends.bind (P := fun blk => b.block? k = some blk) (.orOutOfRange (fun _ h => h) fun h => ?_) ?_
  · obtain ⟨⟨blk, hblk, -⟩, -⟩ := hm h
    simp only [block?] at hblk
    simp [hblk]
  intro blk hblk
  simp only [Bool.or_eq_true, decide_eq_true_eq, List.any_eq_true]
  split
  next hbad =>
    refine .throw fun h => ?_
    obtain ⟨⟨blk', hblk', hi⟩, hv⟩ := hm h
    obtain rfl : blk = blk' := Option.some.inj (hblk.symm.trans hblk')
    rcases hbad with hbad | ⟨v, hmem, hbad⟩
    · omega
    · have := hv v hmem
      omega
  next hok =>
    have hv : ∀ v ∈ operands, v.index < b.values.size := fun v hmem => by
      by_contra hlt
      exact hok (.inr ⟨v, hmem, by omega⟩)
    have hnew : ∀ v : ValueId, b.values.size ≤ v.index → readSlots ⟨b.ops.size⟩ v operands 0 = [] := by
      intro v hle
      rw [List.eq_nil_iff_forall_not_mem]
      intro u hu
      have := hv v (List.mem_of_getElem? (mem_readSlots.1 hu).2.2)
      omega
    refine .pure ⟨⟨rfl, fun x => ?_, fun v hlt => ?_, fun j => ?_, rfl, hv⟩, fun k' => ?_,
      ⟨blk, hblk, ?_⟩⟩
    · simp only [op?, Array.getElem?_push]
      by_cases hx : x = ⟨b.ops.size⟩
      · simp [hx]
      · have : x.index ≠ b.ops.size := fun h => hx (by cases x; simp_all)
        simp [hx, this]
    · simp only [value?, addResults_eq]
      rw [Array.getElem?_append_left (by simpa using hlt), getElem?_addUses]
    · simp only [value?, addResults_eq]
      rw [Array.getElem?_append_right (by simp)]
      simp [List.getElem?_map, List.getElem?_zipIdx, Function.comp_def]
    · simp only [block?, Array.getElem?_modify]
      by_cases hk : k' = k
      · simp [hk]
      · have : k.index ≠ k'.index := fun h => hk (by cases k; cases k'; simp_all)
        simp [hk, this]
    · by_contra hlt
      exact hok (.inl (by omega))

/-! ## Reading one value in place of another -/

/-- `b'` is `b` with `new` read wherever `old` was. -/
structure Replaced (b : Body) (old new : ValueId) (b' : Body) : Prop where
  op? : ∀ x, b'.op? x = (b.op? x).map fun op =>
    { op with operands := op.operands.map fun v => if v = old then new else v }
  value? : ∀ v, b'.value? v = (b.value? v).map fun x => { x with
    uses := if v = old then [] else
      if v = new then x.uses ++ (b.value? old).elim [] (·.uses) else x.uses }
  blocks : b'.blocks = b.blocks
  args : b'.args = b.args

/-! ## Taking operands away -/

/-- `b'` is `b` without the operands of `o`, which is marked as `f` says. -/
structure Dropped (b : Body) (o : OpId) (f : Bool → Bool) (b' : Body) : Prop where
  op? : ∀ x, b'.op? x = (b.op? x).map fun op =>
    if x = o then { op with operands := [], erased := f op.erased } else op
  value? : ∀ v, b'.value? v = (b.value? v).map fun x =>
    { x with uses := (readSlots o v ((b.op? o).elim [] (·.operands)) 0).foldl List.erase x.uses }
  blocks : b'.blocks = b.blocks
  args : b'.args = b.args

theorem dropOperands_ends (hm : must → (b.op? o).isSome) :
    Ends must (b.dropOperands o) (Dropped b o id) := by
  unfold dropOperands
  refine (op_ends (fun _ h => h) hm).bind fun op hop => .pure ⟨fun x => ?_, fun v => ?_, rfl, rfl⟩
  · simp only [op?, Array.getElem?_modify]
    by_cases hx : x = o
    · simp [hx]
    · have : o.index ≠ x.index := fun h => hx (by cases x; cases o; simp_all)
      simp [hx, this]
  · rw [hop]
    exact getElem?_removeUses _ _ _ _

theorem discard_ends (hm : must → (b.op? o).isSome) :
    Ends must (b.discard o) (Dropped b o fun _ => true) := by
  unfold discard
  refine (dropOperands_ends hm).bind fun b₁ h => .pure ⟨fun x => ?_, fun v => h.value? v, h.blocks, h.args⟩
  have := h.op? x
  simp only [op?] at this
  simp only [op?, modifyOp, Array.getElem?_modify, this]
  by_cases hx : x = o
  · simp [hx, Function.comp_def]
  · have : o.index ≠ x.index := fun h => hx (by cases x; cases o; simp_all)
    simp [hx, this]

end Scalarize.Body
