import Mathlib.Data.List.Nodup
import Scalarize.Proofs.Body.Tables

/-!
# Bodies whose tables agree

* `Body.Exact` : use lists name exactly the slots that read a value, and results know their operation;
* `Body.Coherent` : besides, slots and operations know each other, and every block but the entry is guarded by
  one operation;
* `Exact.users_ends`, `Exact.opHasUses_ends`, `Exact.replaceAllUses_ends` : what use lists are read for;
* `Coherent.created`, `Coherent.replaced`, `Coherent.dropped` : edits keep the tables in agreement.
-/

namespace Scalarize.Body

variable {must : Prop} {b b' : Body} {o x : OpId} {v w old new : ValueId} {k : BlockId}

/-- Use lists name exactly the slots that read a value, each once, and results know their operation. -/
structure Exact (b : Body) : Prop where
  uses : ∀ {v x}, b.value? v = some x → ∀ u, u ∈ x.uses ↔
    ∃ op, b.op? u.op = some op ∧ op.operands[u.operand]? = some v
  nodup_uses : ∀ {v x}, b.value? v = some x → x.uses.Nodup
  operand : ∀ {o op v}, b.op? o = some op → v ∈ op.operands → v.index < b.values.size
  result : ∀ {o op i v}, b.op? o = some op → op.results[i]? = some v →
    b.origin? v = some (.result o i)
  erased : ∀ {o op}, b.op? o = some op → op.erased → op.operands = []

/-- The tables of a body agree with each other. -/
structure Coherent (b : Body) : Prop extends Exact b where
  origin : ∀ {v o i}, b.origin? v = some (.result o i) →
    ∃ op, b.op? o = some op ∧ op.results[i]? = some v
  slot : ∀ {o op}, b.op? o = some op → op.erased = false →
    ∃ blk, b.block? op.block = some blk ∧ o ∈ blk.slots
  slots : ∀ {k blk o}, b.block? k = some blk → o ∈ blk.slots →
    ∃ op, b.op? o = some op ∧ op.block = k
  nodup_slots : ∀ {k blk}, b.block? k = some blk → blk.slots.Nodup
  args : ∀ v ∈ b.args, b.origin? v = some .argument
  nodup_args : b.args.Nodup
  guards : ∀ {o op k}, b.op? o = some op → k ∈ op.kind.blocks →
    op.block.index < k.index ∧ ∃ blk, b.block? k = some blk ∧ blk.parent = some o
  nodup_guards : ∀ {o op}, b.op? o = some op → op.kind.blocks.Nodup
  parent : ∀ {k blk o}, b.block? k = some blk → blk.parent = some o →
    ∃ op, b.op? o = some op ∧ k ∈ op.kind.blocks
  entry : ∃ blk, b.block? entry = some blk ∧ blk.parent = none
  guarded : ∀ {k blk}, b.block? k = some blk → k ≠ Body.entry → blk.parent.isSome

namespace Exact

/-! ## Readers -/

theorem mem_uses (h : b.Exact) {y : Value} (hv : b.value? v = some y) {u : Use} :
    u ∈ y.uses ↔ ∃ op, b.op? u.op = some op ∧ op.operands[u.operand]? = some v :=
  h.uses hv u

theorem reads_iff (h : b.Exact) {y : Value} (hv : b.value? v = some y) :
    b.Reads o v ↔ ∃ u ∈ y.uses, u.op = o := by
  constructor
  · rintro ⟨op, hop, hmem⟩
    obtain ⟨i, hi⟩ := List.mem_iff_getElem?.1 hmem
    exact ⟨⟨o, i⟩, (h.mem_uses hv).2 ⟨op, hop, hi⟩, rfl⟩
  · rintro ⟨u, hu, rfl⟩
    obtain ⟨op, hop, hi⟩ := (h.mem_uses hv).1 hu
    exact ⟨op, hop, List.mem_of_getElem? hi⟩

theorem isSome_of_reads (h : b.Exact) (hr : b.Reads o v) : (b.value? v).isSome := by
  obtain ⟨op, hop, hmem⟩ := hr
  exact isSome_value?.2 (h.operand hop hmem)

end Exact

theorem mem_usersOf {uses : List Use} : o ∈ usersOf uses ↔ ∃ u ∈ uses, u.op = o := by
  suffices h : ∀ acc : List OpId,
      o ∈ uses.foldl (fun users u => if u.op ∈ users then users else users ++ [u.op]) acc ↔
        o ∈ acc ∨ ∃ u ∈ uses, u.op = o by
    simpa [usersOf] using h []
  induction uses with
  | nil => simp
  | cons u uses ih =>
    intro acc
    rw [List.foldl_cons, ih]
    split
    next hu =>
      constructor
      · rintro (h | ⟨w, hw, rfl⟩)
        · exact .inl h
        · exact .inr ⟨w, List.mem_cons_of_mem _ hw, rfl⟩
      · rintro (h | ⟨w, hw, rfl⟩)
        · exact .inl h
        · rcases List.mem_cons.1 hw with rfl | hw
          · exact .inl hu
          · exact .inr ⟨w, hw, rfl⟩
    next hu => simp [or_assoc, eq_comm]

theorem nodup_usersOf (uses : List Use) : (usersOf uses).Nodup := by
  suffices h : ∀ acc : List OpId, acc.Nodup →
      (uses.foldl (fun users u => if u.op ∈ users then users else users ++ [u.op]) acc).Nodup from
    h [] List.nodup_nil
  induction uses with
  | nil => exact fun acc h => h
  | cons u uses ih =>
    intro acc hacc
    rw [List.foldl_cons]
    refine ih _ ?_
    split
    · exact hacc
    next hu =>
      rw [List.nodup_append]
      refine ⟨hacc, by simp, ?_⟩
      rintro x hx y hy rfl
      rw [List.mem_singleton.1 hy] at hx
      exact hu hx

/-- The readers of a value, each once. -/
theorem Exact.users_ends (h : b.Exact) (hm : must → (b.value? v).isSome) :
    Ends must (b.users v) fun us => us.Nodup ∧ (∀ o, o ∈ us ↔ b.Reads o v) := by
  refine Ends.bind (P := fun y => b.value? v = some y) (.orOutOfRange (fun _ h => h) hm)
    fun y hy => .pure ⟨nodup_usersOf _, fun o => ?_⟩
  rw [mem_usersOf, h.reads_iff hy]

theorem Exact.hasUses_ends (h : b.Exact) (hm : must → (b.value? v).isSome) :
    Ends must (b.hasUses v) fun r => r = true ↔ ∃ o, b.Reads o v := by
  refine Ends.bind (P := fun y => b.value? v = some y) (.orOutOfRange (fun _ h => h) hm)
    fun y hy => .pure ?_
  simp only [h.reads_iff hy, Bool.not_eq_true', List.isEmpty_eq_false_iff_exists_mem]
  exact ⟨fun ⟨u, hu⟩ => ⟨u.op, u, hu, rfl⟩, fun ⟨_, u, hu, _⟩ => ⟨u, hu⟩⟩

/-- Some operation reads a result of the operation. -/
def ResultRead (b : Body) (o : OpId) : Prop :=
  ∃ op v r, b.op? o = some op ∧ v ∈ op.results ∧ b.Reads r v

theorem Exact.opHasUses_ends (h : b.Exact) (hm : must → (b.op? o).isSome) :
    Ends must (b.opHasUses o) fun r => r = true ↔ b.ResultRead o := by
  refine (op_ends (fun _ h => h) hm).bind fun op hop => ?_
  suffices hs : ∀ vs : List ValueId, (∀ v ∈ vs, (b.value? v).isSome) →
      Ends must (vs.anyM b.hasUses) fun r => r = true ↔ ∃ v ∈ vs, ∃ r, b.Reads r v by
    refine (hs op.results fun v hv => ?_).mono fun r hr => hr.trans ?_
    · obtain ⟨i, hi⟩ := List.mem_iff_getElem?.1 hv
      obtain ⟨y, hy, -⟩ := origin?_eq_some_iff.1 (h.result hop hi)
      simp [hy]
    · constructor
      · rintro ⟨v, hv, r, hr⟩
        exact ⟨op, v, r, hop, hv, hr⟩
      · rintro ⟨op', v, r, hop', hv, hr⟩
        obtain rfl : op = op' := Option.some.inj (hop.symm.trans hop')
        exact ⟨v, hv, r, hr⟩
  intro vs
  induction vs with
  | nil => exact fun _ => .pure (by simp)
  | cons v vs ih =>
    intro hvs
    rw [List.anyM]
    refine (h.hasUses_ends fun _ => hvs v List.mem_cons_self).bind fun r hr => ?_
    cases r with
    | true => exact .pure (by simpa using .inl (hr.1 rfl))
    | false =>
      refine (ih fun w hw => hvs w (List.mem_cons_of_mem _ hw)).mono fun r' hr' => hr'.trans ?_
      have : ¬∃ o, b.Reads o v := fun hex => by simpa using hr.2 hex
      simp only [List.mem_cons, exists_eq_or_imp, this, false_or]

/-! ## Reading one value in place of another -/

theorem foldl_set_operands (uses : List Use) (new : ValueId) (ops : Array Operation) (o : OpId) :
    (uses.foldl (fun ops u => ops.modify u.op.index fun op =>
      { op with operands := op.operands.set u.operand new }) ops)[o.index]? =
    ops[o.index]?.map fun op => { op with
      operands := (uses.filter (·.op = o)).foldl (fun vs u => vs.set u.operand new) op.operands } := by
  induction uses generalizing ops with
  | nil => simp
  | cons u uses ih =>
    rw [List.foldl_cons, ih]
    simp only [Array.getElem?_modify]
    by_cases hu : u.op = o
    · simp [hu, Function.comp_def]
    · have : u.op.index ≠ o.index := fun h => hu (by cases h' : u.op; cases o; simp_all)
      simp [hu, this]

theorem foldl_set_getElem? (uses : List Use) (new : ValueId) (vs : List ValueId) (i : Nat) :
    (uses.foldl (fun vs u => vs.set u.operand new) vs)[i]? =
      vs[i]?.map fun v => if ∃ u ∈ uses, u.operand = i then new else v := by
  induction uses generalizing vs with
  | nil => simp
  | cons u uses ih =>
    rw [List.foldl_cons, ih, List.getElem?_set]
    by_cases hi : u.operand = i
    · subst hi
      by_cases hlt : u.operand < vs.length
      · simp [hlt]
      · simp [hlt]
    · simp [hi]

theorem Exact.replaceAllUses_ends (h : b.Exact) (hne : old ≠ new)
    (hm : must → (b.value? old).isSome ∧ (b.value? new).isSome) :
    Ends must (b.replaceAllUses old new) (Replaced b old new) := by
  unfold replaceAllUses
  rw [if_neg hne]
  refine Ends.bind (P := fun y => b.value? old = some y)
    (.orOutOfRange (fun _ h => h) fun hmust => (hm hmust).1) fun y hy => ?_
  refine Ends.bind (P := fun z => b.value? new = some z)
    (.orOutOfRange (fun _ h => h) fun hmust => (hm hmust).2) fun z hz => ?_
  have hidx : old.index ≠ new.index := fun he => hne (by cases old; cases new; simp_all)
  refine .pure ⟨fun r => ?_, fun v => ?_, rfl, rfl⟩
  · change (List.foldl _ b.ops y.uses)[r.index]? = _
    rw [foldl_set_operands]
    change Option.map _ (b.op? r) = _
    cases hr : b.op? r with
    | none => rfl
    | some op =>
      simp only [Option.map_some, Option.some.injEq, Operation.mk.injEq, true_and, and_true]
      apply List.ext_getElem?
      intro i
      rw [foldl_set_getElem?, List.getElem?_map]
      cases hi : op.operands[i]? with
      | none => rfl
      | some v =>
        have : (∃ u ∈ y.uses.filter (·.op = r), u.operand = i) ↔ v = old := by
          constructor
          · rintro ⟨u, hu, rfl⟩
            obtain ⟨hu, hur⟩ := List.mem_filter.1 hu
            obtain ⟨op', hop', hv⟩ := (h.mem_uses hy).1 hu
            rw [of_decide_eq_true hur, hr] at hop'
            obtain rfl := Option.some.inj hop'
            exact Option.some.inj (hi.symm.trans hv)
          · rintro rfl
            exact ⟨⟨r, i⟩, List.mem_filter.2 ⟨(h.mem_uses hy).2 ⟨op, hr, hi⟩, by simp⟩, rfl⟩
        simp only [Option.map_some, this]
  · rw [hy]
    simp only [value?, Array.getElem?_modify]
    by_cases hvo : v = old
    · subst hvo
      rw [if_neg (Ne.symm hidx), if_pos rfl]
      simp
    · have hvo' : old.index ≠ v.index := fun he => hvo (by cases old; cases v; simp_all)
      rw [if_neg hvo']
      by_cases hvn : v = new
      · subst hvn
        simp [hvo]
      · have hvn' : new.index ≠ v.index := fun he => hvn (by cases new; cases v; simp_all)
        simp [hvo, hvn, hvn']

/-- Use lists do not depend on blocks. -/
theorem Exact.blocks (h : b.Exact) (blocks : Array Block) : ({ b with blocks } : Body).Exact where
  uses := h.uses
  nodup_uses := h.nodup_uses
  operand := h.operand
  result := h.result
  erased := h.erased

/-! ## New operations keep the tables in agreement -/

/-- `b'` is `b` with a new operation in front of a slot, and with new empty blocks for it to guard. -/
structure Created (b : Body) (p : Point) (kind : OpKind) (operands : List ValueId) (types : List Ty)
    (o : OpId) (b' : Body) : Prop extends Joined b p.block kind operands types o b' where
  block? : ∀ k : BlockId, k.index < b.blocks.size → b'.block? k = (b.block? k).map fun blk =>
    if k = p.block then { blk with slots := blk.slots.insertIdx p.index o } else blk
  newBlock : ∀ j, b'.block? ⟨b.blocks.size + j⟩ =
    if j < kind.blocks.length then some ⟨[], some o⟩ else none
  guards : kind.blocks = (List.range kind.blocks.length).map fun j => ⟨b.blocks.size + j⟩
  place : ∃ blk, b.block? p.block = some blk ∧ p.index ≤ blk.slots.length

theorem Inserted.created {i : Nat} {kind : OpKind} {vs : List ValueId} {tys : List Ty}
    (h : Inserted b k i kind vs tys o b') (hk : kind.blocks = []) :
    Created b ⟨k, i⟩ kind vs tys o b' where
  toJoined := h.toJoined
  block? := fun k' _ => h.block? k'
  newBlock := fun j => by
    rw [h.block?, hk]
    simp [Body.block?]
  guards := by simp [hk]
  place := h.place

theorem Inserted.size_blocks {i : Nat} {kind : OpKind} {vs : List ValueId} {tys : List Ty}
    (h : Inserted b k i kind vs tys o b') : b'.blocks.size = b.blocks.size := by
  have hiff : ∀ n : Nat, n < b'.blocks.size ↔ n < b.blocks.size := by
    intro n
    have hsome : (b'.blocks[n]?).isSome = (b.blocks[n]?).isSome := by
      have := congrArg Option.isSome (h.block? ⟨n⟩)
      rwa [Option.isSome_map] at this
    rw [Bool.eq_iff_iff] at hsome
    simpa only [isSome_getElem?, decide_eq_true_eq] using hsome
  exact Nat.le_antisymm (Nat.le_of_not_lt fun hlt => Nat.lt_irrefl _ ((hiff _).1 hlt))
    (Nat.le_of_not_lt fun hlt => Nat.lt_irrefl _ ((hiff _).2 hlt))

/-- A guard is made together with the blocks that it guards. -/
theorem Inserted.guards {i n : Nat} {kind : OpKind} {vs : List ValueId} {tys : List Ty}
    (h : Inserted b k i kind vs tys o b')
    (hk : kind.blocks = (List.range n).map fun j => ⟨b.blocks.size + j⟩) :
    Created b ⟨k, i⟩ kind vs tys o
      { b' with blocks := b'.blocks ++ (List.replicate n (⟨[], some o⟩ : Block)).toArray } where
  toJoined := ⟨h.id, h.op?, h.old, h.new, h.args, h.operands_lt⟩
  block? k' hlt := by
    simp only [Body.block?]
    rw [Array.getElem?_append_left (by rw [h.size_blocks]; exact hlt)]
    exact h.block? k'
  newBlock j := by
    simp only [Body.block?]
    rw [Array.getElem?_append_right (by rw [h.size_blocks]; exact Nat.le_add_right _ _),
      h.size_blocks, Nat.add_sub_cancel_left, hk]
    simp [Array.getElem?_replicate]
  guards := by simp [hk]
  place := h.place

namespace Joined

variable {kind : OpKind} {vs : List ValueId} {tys : List Ty}

theorem fresh (h : Joined b k kind vs tys o b') : b.op? o = none := by
  rw [h.id]
  simp [Body.op?]

theorem op?_self (h : Joined b k kind vs tys o b') : b'.op? o = some ⟨kind, vs,
    (List.range tys.length).map fun j => ⟨b.values.size + j⟩, k, false⟩ := by
  rw [h.op?, if_pos rfl]

theorem op?_old (h : Joined b k kind vs tys o b') {op : Operation} (hx : b.op? x = some op) :
    b'.op? x = some op := by
  rw [h.op?, if_neg, hx]
  rintro rfl
  rw [h.fresh] at hx
  cases hx

theorem op?_cases (h : Joined b k kind vs tys o b') {op : Operation} (hx : b'.op? x = some op) :
    b.op? x = some op ∨ x = o ∧ op = ⟨kind, vs,
      (List.range tys.length).map fun j => ⟨b.values.size + j⟩, k, false⟩ := by
  rw [h.op?] at hx
  split at hx
  next he => exact .inr ⟨he, (Option.some.inj hx).symm⟩
  next => exact .inl hx

/-- Every value is an old one or one of the new results. -/
theorem value_cases (h : Joined b k kind vs tys o b') {y : Value} (hy : b'.value? v = some y) :
    (∃ y₀, b.value? v = some y₀ ∧ y = { y₀ with uses := y₀.uses ++ readSlots o v vs 0 }) ∨
    (∃ j ty, tys[j]? = some ty ∧ v = ⟨b.values.size + j⟩ ∧ y = ⟨ty, .result o j, []⟩) := by
  by_cases hlt : v.index < b.values.size
  · rw [h.old v hlt, Option.map_eq_some_iff] at hy
    obtain ⟨y₀, hy₀, rfl⟩ := hy
    exact .inl ⟨y₀, hy₀, rfl⟩
  · have hv : v = ⟨b.values.size + (v.index - b.values.size)⟩ := by
      cases v
      simp only [ValueId.mk.injEq]
      simp only at hlt
      omega
    rw [hv, h.new, Option.map_eq_some_iff] at hy
    obtain ⟨ty, hty, rfl⟩ := hy
    exact .inr ⟨_, ty, hty, hv, rfl⟩

theorem value?_old (h : Joined b k kind vs tys o b') {y : Value} (hy : b.value? v = some y) :
    b'.value? v = some { y with uses := y.uses ++ readSlots o v vs 0 } := by
  rw [h.old v (lt_of_value? hy), hy]
  rfl

theorem ty?_old (h : Joined b k kind vs tys o b') (hlt : v.index < b.values.size) :
    b'.ty? v = b.ty? v := by
  simp only [ty?, h.old v hlt, Option.map_map]
  rfl

theorem origin?_old (h : Joined b k kind vs tys o b') (hlt : v.index < b.values.size) :
    b'.origin? v = b.origin? v := by
  simp only [origin?, h.old v hlt, Option.map_map]
  rfl

theorem origin?_new (h : Joined b k kind vs tys o b') (j : Nat) :
    b'.origin? ⟨b.values.size + j⟩ = tys[j]?.map fun _ => .result o j := by
  simp only [origin?, h.new, Option.map_map]
  rfl

theorem ty?_new (h : Joined b k kind vs tys o b') (j : Nat) :
    b'.ty? ⟨b.values.size + j⟩ = tys[j]? := by
  simp only [ty?, h.new, Option.map_map]
  exact Option.map_id_fun ▸ rfl

theorem lt_values (h : Joined b k kind vs tys o b') (hlt : v.index < b.values.size) :
    v.index < b'.values.size := by
  rw [← isSome_value?, h.old v hlt, Option.isSome_map, isSome_value?]
  exact hlt

end Joined

namespace Created

variable {p : Point} {kind : OpKind} {vs : List ValueId} {tys : List Ty}

/-- Every block is an old one or one of those that the new operation guards. -/
theorem block_cases (h : Created b p kind vs tys o b') {blk : Block} (hk : b'.block? k = some blk) :
    (∃ blk₀, b.block? k = some blk₀ ∧ blk.parent = blk₀.parent ∧
      blk.slots = if k = p.block then blk₀.slots.insertIdx p.index o else blk₀.slots) ∨
    (k ∈ kind.blocks ∧ b.block? k = none ∧ blk = ⟨[], some o⟩) := by
  by_cases hlt : k.index < b.blocks.size
  · rw [h.block? k hlt, Option.map_eq_some_iff] at hk
    obtain ⟨blk₀, hblk₀, rfl⟩ := hk
    refine .inl ⟨blk₀, hblk₀, ?_, ?_⟩ <;> split <;> rfl
  · have hkj : k = ⟨b.blocks.size + (k.index - b.blocks.size)⟩ := by
      cases k
      simp only [BlockId.mk.injEq]
      simp only at hlt
      omega
    rw [hkj, h.newBlock] at hk
    split at hk
    next hj =>
      refine .inr ⟨?_, ?_, (Option.some.inj hk).symm⟩
      · rw [h.guards, List.mem_map]
        exact ⟨_, List.mem_range.2 hj, hkj.symm⟩
      · simp only [Body.block?]
        exact Array.getElem?_eq_none (Nat.le_of_not_lt hlt)
    next => cases hk

theorem block?_old (h : Created b p kind vs tys o b') {blk : Block} (hk : b.block? k = some blk) :
    ∃ blk', b'.block? k = some blk' ∧ blk'.parent = blk.parent ∧
      blk'.slots = if k = p.block then blk.slots.insertIdx p.index o else blk.slots := by
  rw [h.block? k (lt_of_block? hk), hk]
  refine ⟨_, rfl, ?_, ?_⟩ <;> split <;> rfl

theorem block?_new (h : Created b p kind vs tys o b') (hk : k ∈ kind.blocks) :
    b'.block? k = some ⟨[], some o⟩ := by
  rw [h.guards, List.mem_map] at hk
  obtain ⟨j, hj, rfl⟩ := hk
  rw [h.newBlock, if_pos (List.mem_range.1 hj)]

theorem mem_slots {blk : Block} (hp : p.index ≤ blk.slots.length) :
    x ∈ blk.slots.insertIdx p.index o ↔ x = o ∨ x ∈ blk.slots :=
  List.mem_insertIdx hp

end Created

theorem nodup_readSlots (o : OpId) (v : ValueId) (vs : List ValueId) (i : Nat) :
    (readSlots o v vs i).Nodup := by
  induction vs generalizing i with
  | nil => exact List.nodup_nil
  | cons w vs ih =>
    rw [readSlots]
    split
    · refine List.nodup_cons.2 ⟨fun hmem => ?_, ih (i + 1)⟩
      have := (mem_readSlots.1 hmem).2.1
      simp only at this
      omega
    · exact ih (i + 1)

/-- A new operation keeps the use lists exact. -/
theorem Exact.joined {kind : OpKind} {vs : List ValueId} {tys : List Ty} (h : b.Exact)
    (hc : Joined b k kind vs tys o b') : b'.Exact where
  uses := by
    intro v y hy u
    rcases hc.value_cases hy with ⟨y₀, hy₀, rfl⟩ | ⟨j, ty, -, rfl, rfl⟩
    · simp only [List.mem_append, h.mem_uses hy₀, mem_readSlots]
      constructor
      · rintro (⟨op, hop, hv⟩ | ⟨hu, -, hv⟩)
        · exact ⟨op, hc.op?_old hop, hv⟩
        · exact ⟨_, hu ▸ hc.op?_self, hv⟩
      · rintro ⟨op, hop, hv⟩
        rcases hc.op?_cases hop with hop | ⟨hu, rfl⟩
        · exact .inl ⟨op, hop, hv⟩
        · exact .inr ⟨hu, Nat.zero_le _, hv⟩
    · simp only [List.not_mem_nil, false_iff, not_exists, not_and]
      intro op hop hv
      have hmem := List.mem_of_getElem? hv
      have : b.values.size + j < b.values.size := by
        rcases hc.op?_cases hop with hop | ⟨-, rfl⟩
        · exact h.operand hop hmem
        · exact hc.operands_lt _ hmem
      omega
  nodup_uses := by
    intro v y hy
    rcases hc.value_cases hy with ⟨y₀, hy₀, rfl⟩ | ⟨j, ty, -, -, rfl⟩
    · refine List.nodup_append.2 ⟨h.nodup_uses hy₀, nodup_readSlots _ _ _ _, ?_⟩
      rintro u hu w hw rfl
      obtain ⟨op, hop, -⟩ := (h.mem_uses hy₀).1 hu
      rw [(mem_readSlots.1 hw).1, hc.fresh] at hop
      cases hop
    · exact List.nodup_nil
  operand := by
    intro x op v hop hmem
    rcases hc.op?_cases hop with hop | ⟨-, rfl⟩
    · exact hc.lt_values (h.operand hop hmem)
    · exact hc.lt_values (hc.operands_lt v hmem)
  result := by
    intro x op i v hop hv
    rcases hc.op?_cases hop with hop | ⟨rfl, rfl⟩
    · have hr := h.result hop hv
      obtain ⟨y, hy, -⟩ := origin?_eq_some_iff.1 hr
      rw [hc.origin?_old (lt_of_value? hy), hr]
    · rw [List.getElem?_map, Option.map_eq_some_iff] at hv
      obtain ⟨j, hj, rfl⟩ := hv
      obtain ⟨hi, rfl⟩ := List.getElem?_eq_some_iff.1 hj
      rw [List.length_range] at hi
      rw [hc.origin?_new]
      simp [hi]
  erased := by
    intro x op hop her
    rcases hc.op?_cases hop with hop | ⟨-, rfl⟩
    · exact h.erased hop her
    · cases her

namespace Coherent

variable {p : Point} {kind : OpKind} {vs : List ValueId} {tys : List Ty}

theorem not_mem_slots (h : b.Coherent) {blk : Block} (hk : b.block? k = some blk)
    (ho : b.op? o = none) : o ∉ blk.slots := fun hmem => by
  obtain ⟨op, hop, -⟩ := h.slots hk hmem
  rw [ho] at hop
  cases hop

/-- A new operation, with the blocks that it guards, keeps the tables in agreement. -/
theorem created (h : b.Coherent) (hc : Created b p kind vs tys o b') : b'.Coherent where
  toExact := h.toExact.joined hc.toJoined
  origin := by
    intro v x i hr
    obtain ⟨y, hy, hyr⟩ := origin?_eq_some_iff.1 hr
    rcases hc.value_cases hy with ⟨y₀, hy₀, rfl⟩ | ⟨j, ty, hty, rfl, rfl⟩
    · obtain ⟨op, hop, hv⟩ := h.origin (origin?_eq_some_iff.2 ⟨y₀, hy₀, hyr⟩)
      exact ⟨op, hc.op?_old hop, hv⟩
    · injection hyr with hx hi
      subst hx hi
      refine ⟨_, hc.op?_self, ?_⟩
      have := (List.getElem?_eq_some_iff.1 hty).1
      simp [this]
  slot := by
    intro x op hop he
    rcases hc.op?_cases hop with hop | ⟨rfl, rfl⟩
    · obtain ⟨blk, hblk, hmem⟩ := h.slot hop he
      obtain ⟨blk', hblk', -, hs⟩ := hc.block?_old hblk
      refine ⟨blk', hblk', ?_⟩
      rw [hs]
      split
      next he =>
        obtain ⟨blk₁, hblk₁, hle⟩ := hc.place
        rw [he] at hblk
        obtain rfl := Option.some.inj (hblk.symm.trans hblk₁)
        exact (Created.mem_slots hle).2 (.inr hmem)
      next => exact hmem
    · obtain ⟨blk, hblk, hle⟩ := hc.place
      obtain ⟨blk', hblk', -, hs⟩ := hc.block?_old hblk
      refine ⟨blk', hblk', ?_⟩
      rw [hs, if_pos rfl]
      exact (Created.mem_slots hle).2 (.inl rfl)
  slots := by
    intro k blk x hk hmem
    rcases hc.block_cases hk with ⟨blk₀, hblk₀, -, hs⟩ | ⟨-, -, rfl⟩
    · rw [hs] at hmem
      split at hmem
      next he =>
        obtain ⟨blk₁, hblk₁, hle⟩ := hc.place
        subst he
        obtain rfl := Option.some.inj (hblk₀.symm.trans hblk₁)
        rcases (Created.mem_slots hle).1 hmem with rfl | hmem
        · exact ⟨_, hc.op?_self, rfl⟩
        · obtain ⟨op, hop, hop'⟩ := h.slots hblk₀ hmem
          exact ⟨op, hc.op?_old hop, hop'⟩
      next =>
        obtain ⟨op, hop, hop'⟩ := h.slots hblk₀ hmem
        exact ⟨op, hc.op?_old hop, hop'⟩
    · cases hmem
  nodup_slots := by
    intro k blk hk
    rcases hc.block_cases hk with ⟨blk₀, hblk₀, -, hs⟩ | ⟨-, -, rfl⟩
    · rw [hs]
      split
      next he =>
        obtain ⟨blk₁, hblk₁, hle⟩ := hc.place
        subst he
        obtain rfl := Option.some.inj (hblk₀.symm.trans hblk₁)
        rw [(List.perm_insertIdx _ _ hle).nodup_iff]
        exact List.nodup_cons.2 ⟨h.not_mem_slots hblk₀ hc.fresh, h.nodup_slots hblk₀⟩
      next => exact h.nodup_slots hblk₀
    · exact List.nodup_nil
  args := by
    intro v hv
    rw [hc.args] at hv
    have hr := h.args v hv
    obtain ⟨y, hy, -⟩ := origin?_eq_some_iff.1 hr
    rw [hc.origin?_old (lt_of_value? hy), hr]
  nodup_args := hc.args ▸ h.nodup_args
  guards := by
    intro x op k hop hk
    rcases hc.op?_cases hop with hop | ⟨rfl, rfl⟩
    · obtain ⟨hlt, blk, hblk, hpar⟩ := h.guards hop hk
      obtain ⟨blk', hblk', hpar', -⟩ := hc.block?_old hblk
      exact ⟨hlt, blk', hblk', hpar'.trans hpar⟩
    · obtain ⟨blk, hblk, -⟩ := hc.place
      refine ⟨?_, _, hc.block?_new hk, rfl⟩
      have := lt_of_block? hblk
      rw [hc.guards, List.mem_map] at hk
      obtain ⟨j, -, rfl⟩ := hk
      simp only
      omega
  nodup_guards := by
    intro x op hop
    rcases hc.op?_cases hop with hop | ⟨rfl, rfl⟩
    · exact h.nodup_guards hop
    · rw [hc.guards]
      refine List.nodup_range.map fun i j hij => ?_
      injection hij
      omega
  parent := by
    intro k blk x hk hpar
    rcases hc.block_cases hk with ⟨blk₀, hblk₀, hp, -⟩ | ⟨hmem, -, rfl⟩
    · obtain ⟨op, hop, hmem⟩ := h.parent hblk₀ (hp.symm.trans hpar)
      exact ⟨op, hc.op?_old hop, hmem⟩
    · obtain rfl := Option.some.inj hpar
      exact ⟨_, hc.op?_self, hmem⟩
  entry := by
    obtain ⟨blk, hblk, hpar⟩ := h.entry
    obtain ⟨blk', hblk', hpar', -⟩ := hc.block?_old hblk
    exact ⟨blk', hblk', hpar'.trans hpar⟩
  guarded := by
    intro k blk hk hne
    rcases hc.block_cases hk with ⟨blk₀, hblk₀, hp, -⟩ | ⟨-, -, rfl⟩
    · rw [hp]
      exact h.guarded hblk₀ hne
    · rfl

end Coherent

/-! ## Other edits keep the tables in agreement -/

/-- Operations and values of `b` keep in `b'` what never changes about them, and the blocks stay as
they are. -/
structure Outlives (b b' : Body) : Prop where
  op? : ∀ x, (b'.op? x).map (fun op => (op.kind, op.results, op.block)) =
    (b.op? x).map fun op => (op.kind, op.results, op.block)
  erased : ∀ {x op op'}, b.op? x = some op → b'.op? x = some op' → op.erased → op'.erased
  value? : ∀ v, (b'.value? v).map (fun y => (y.ty, y.origin)) = (b.value? v).map fun y => (y.ty, y.origin)
  blocks : b'.blocks = b.blocks
  args : b'.args = b.args

namespace Outlives

theorem refl (b : Body) : Outlives b b :=
  ⟨fun _ => rfl, fun h h' he => by rw [h] at h'; cases h'; exact he, fun _ => rfl, rfl, rfl⟩

theorem op?_some (h : Outlives b b') {op : Operation} (hx : b.op? x = some op) :
    ∃ op', b'.op? x = some op' ∧ op'.kind = op.kind ∧ op'.results = op.results ∧
      op'.block = op.block ∧ (op.erased → op'.erased) := by
  have := h.op? x
  rw [hx, Option.map_some, Option.map_eq_some_iff] at this
  obtain ⟨op', hop', he⟩ := this
  simp only [Prod.mk.injEq] at he
  exact ⟨op', hop', he.1, he.2.1, he.2.2, h.erased hx hop'⟩

theorem op?_some' (h : Outlives b b') {op' : Operation} (hx : b'.op? x = some op') :
    ∃ op, b.op? x = some op ∧ op'.kind = op.kind ∧ op'.results = op.results ∧
      op'.block = op.block ∧ (op.erased → op'.erased) := by
  have := (h.op? x).symm
  rw [hx, Option.map_some, Option.map_eq_some_iff] at this
  obtain ⟨op, hop, he⟩ := this
  simp only [Prod.mk.injEq] at he
  exact ⟨op, hop, he.1.symm, he.2.1.symm, he.2.2.symm, h.erased hop hx⟩

theorem trans {b₁ b₂ b₃ : Body} (h : Outlives b₁ b₂) (h' : Outlives b₂ b₃) : Outlives b₁ b₃ where
  op? x := (h'.op? x).trans (h.op? x)
  erased hx hx' he := by
    obtain ⟨op₂, hop₂, -, -, -, he₂⟩ := h.op?_some hx
    exact h'.erased hop₂ hx' (he₂ he)
  value? v := (h'.value? v).trans (h.value? v)
  blocks := h'.blocks.trans h.blocks
  args := h'.args.trans h.args

theorem origin? (h : Outlives b b') (v : ValueId) : b'.origin? v = b.origin? v := by
  have := congrArg (Option.map Prod.snd) (h.value? v)
  rw [Option.map_map, Option.map_map] at this
  exact this

theorem ty? (h : Outlives b b') (v : ValueId) : b'.ty? v = b.ty? v := by
  have := congrArg (Option.map Prod.fst) (h.value? v)
  rw [Option.map_map, Option.map_map] at this
  exact this

theorem isSome_value? (h : Outlives b b') (v : ValueId) : (b'.value? v).isSome = (b.value? v).isSome := by
  have := congrArg Option.isSome (h.value? v)
  simpa only [Option.isSome_map] using this

theorem block? (h : Outlives b b') (k : BlockId) : b'.block? k = b.block? k := by
  simp only [Body.block?, h.blocks]

theorem kind? (h : Outlives b b') (x : OpId) : b'.kind? x = b.kind? x := by
  have := congrArg (Option.map Prod.fst) (h.op? x)
  rw [Option.map_map, Option.map_map] at this
  exact this

/-- Results are as before. -/
theorem result (hb : b.Exact) (h : Outlives b b') {op : Operation} {i : Nat} (hop : b'.op? o = some op)
    (hv : op.results[i]? = some v) : b'.origin? v = some (.result o i) := by
  obtain ⟨op, hop', -, hr, -⟩ := h.op?_some' hop
  rw [h.origin?]
  exact hb.result hop' (hr ▸ hv)

theorem lt_values (h : Outlives b b') (hv : (b.value? v).isSome) : v.index < b'.values.size := by
  rw [← Body.isSome_value?, h.isSome_value?]
  exact hv

/-- What does not concern operands and use lists is as before. -/
theorem coherent (hb : b.Coherent) (h : Outlives b b') (he : b'.Exact) : b'.Coherent where
  toExact := he
  origin hr := by
    rw [h.origin?] at hr
    obtain ⟨op, hop, hv⟩ := hb.origin hr
    obtain ⟨op', hop', -, hr', -⟩ := h.op?_some hop
    exact ⟨op', hop', hr' ▸ hv⟩
  slot hop he := by
    obtain ⟨op, hop', -, -, hk, he'⟩ := h.op?_some' hop
    rw [hk, h.block?]
    exact hb.slot hop' (Bool.eq_false_iff.2 fun hx => by simp [he' hx] at he)
  slots hk hmem := by
    rw [h.block?] at hk
    obtain ⟨op, hop, hop'⟩ := hb.slots hk hmem
    obtain ⟨op', hx, -, -, hk', -⟩ := h.op?_some hop
    exact ⟨op', hx, hk'.trans hop'⟩
  nodup_slots hk := hb.nodup_slots ((h.block? _).symm.trans hk)
  args v hv := by
    rw [h.origin?]
    exact hb.args v (h.args ▸ hv)
  nodup_args := h.args ▸ hb.nodup_args
  guards hop hk := by
    obtain ⟨op, hop', hkind, -, hblk, -⟩ := h.op?_some' hop
    rw [hblk, h.block?]
    exact hb.guards hop' (hkind ▸ hk)
  nodup_guards hop := by
    obtain ⟨op, hop', hkind, -⟩ := h.op?_some' hop
    rw [hkind]
    exact hb.nodup_guards hop'
  parent hk hpar := by
    rw [h.block?] at hk
    obtain ⟨op, hop, hmem⟩ := hb.parent hk hpar
    obtain ⟨op', hop', hkind, -⟩ := h.op?_some hop
    exact ⟨op', hop', hkind ▸ hmem⟩
  entry := by
    rw [h.block?]
    exact hb.entry
  guarded hk hne := hb.guarded ((h.block? _).symm.trans hk) hne

end Outlives

theorem Replaced.outlives (h : Replaced b old new b') : Outlives b b' where
  op? x := by
    rw [h.op?, Option.map_map]
    rfl
  erased hx hx' he := by
    rw [h.op?, hx] at hx'
    cases hx'
    exact he
  value? v := by
    rw [h.value?, Option.map_map]
    rfl
  blocks := h.blocks
  args := h.args

theorem Dropped.outlives {f : Bool → Bool} (hf : f true = true) (h : Dropped b o f b') :
    Outlives b b' where
  op? x := by
    rw [h.op?, Option.map_map]
    congr 1
    funext op
    simp only [Function.comp_apply]
    split <;> rfl
  erased hx hx' he := by
    rw [h.op?, hx] at hx'
    cases hx'
    simp only
    split
    · simp only [he, hf]
    · exact he
  value? v := by
    rw [h.value?, Option.map_map]
    rfl
  blocks := h.blocks
  args := h.args

theorem mem_foldl_erase {l : List Use} {us : List Use} (hus : us.Nodup) {u : Use} :
    u ∈ l.foldl List.erase us ↔ u ∈ us ∧ u ∉ l := by
  induction l generalizing us with
  | nil => simp
  | cons w l ih =>
    rw [List.foldl_cons, ih (hus.erase w), hus.mem_erase_iff, List.mem_cons, not_or]
    constructor
    · rintro ⟨⟨h₁, h₂⟩, h₃⟩
      exact ⟨h₂, h₁, h₃⟩
    · rintro ⟨h₁, h₂, h₃⟩
      exact ⟨⟨h₂, h₁⟩, h₃⟩

theorem nodup_foldl_erase {l : List Use} {us : List Use} (hus : us.Nodup) :
    (l.foldl List.erase us).Nodup := by
  induction l generalizing us with
  | nil => exact hus
  | cons w l ih => exact ih (hus.erase w)

namespace Exact

theorem replaced (h : b.Exact) (hr : Replaced b old new b') (hold : (b.value? old).isSome)
    (hnew : (b.value? new).isSome) (hne : old ≠ new) : b'.Exact := by
  obtain ⟨z, hz⟩ := Option.isSome_iff_exists.1 hold
  refine ⟨?_, ?_, ?_, hr.outlives.result h, ?_⟩
  · intro v y hy u
    rw [hr.value?, Option.map_eq_some_iff] at hy
    obtain ⟨y₀, hy₀, rfl⟩ := hy
    have hop : (∃ op, b'.op? u.op = some op ∧ op.operands[u.operand]? = some v) ↔
        ∃ op w, b.op? u.op = some op ∧ op.operands[u.operand]? = some w ∧
          (if w = old then new else w) = v := by
      simp only [hr.op?, Option.map_eq_some_iff]
      constructor
      · rintro ⟨_, ⟨op, hop, rfl⟩, hw⟩
        rw [List.getElem?_map, Option.map_eq_some_iff] at hw
        obtain ⟨w, hw, hwv⟩ := hw
        exact ⟨op, w, hop, hw, hwv⟩
      · rintro ⟨op, w, hop, hw, hwv⟩
        exact ⟨_, ⟨op, hop, rfl⟩, by simp [hw, hwv]⟩
    rw [hop]
    by_cases hvo : v = old
    · subst hvo
      simp only [if_true, List.not_mem_nil, false_iff, not_exists, not_and]
      intro op w _ _ hwv
      split at hwv
      · exact hne hwv.symm
      next hw => exact hw hwv
    by_cases hvn : v = new
    · subst hvn
      simp only [if_neg hvo, if_true, hz, Option.elim_some, List.mem_append, h.mem_uses hy₀,
        h.mem_uses hz]
      constructor
      · rintro (⟨op, hop', hw⟩ | ⟨op, hop', hw⟩)
        · exact ⟨op, v, hop', hw, if_neg hvo⟩
        · exact ⟨op, old, hop', hw, if_pos rfl⟩
      · rintro ⟨op, w, hop', hw, hwv⟩
        split at hwv
        next he => exact .inr ⟨op, hop', he ▸ hw⟩
        next => exact .inl ⟨op, hop', hwv ▸ hw⟩
    · simp only [if_neg hvo, if_neg hvn, h.mem_uses hy₀]
      constructor
      · rintro ⟨op, hop', hw⟩
        exact ⟨op, v, hop', hw, if_neg hvo⟩
      · rintro ⟨op, w, hop', hw, hwv⟩
        split at hwv
        · exact absurd hwv.symm hvn
        · exact ⟨op, hop', hwv ▸ hw⟩
  · intro v y hy
    rw [hr.value?, Option.map_eq_some_iff] at hy
    obtain ⟨y₀, hy₀, rfl⟩ := hy
    simp only
    split
    · exact List.nodup_nil
    next hvo =>
      split
      next hvn =>
        rw [hz]
        refine List.nodup_append.2 ⟨h.nodup_uses hy₀, h.nodup_uses hz, ?_⟩
        rintro u hu w hw rfl
        obtain ⟨op, hop, hv⟩ := (h.mem_uses hy₀).1 hu
        obtain ⟨op', hop', hv'⟩ := (h.mem_uses hz).1 hw
        obtain rfl := Option.some.inj (hop.symm.trans hop')
        exact hvo (Option.some.inj (hv.symm.trans hv'))
      next => exact h.nodup_uses hy₀
  · intro o op v hop hv
    rw [hr.op?, Option.map_eq_some_iff] at hop
    obtain ⟨op, hop, rfl⟩ := hop
    obtain ⟨w, hw, rfl⟩ := List.mem_map.1 hv
    split
    · exact hr.outlives.lt_values hnew
    · exact hr.outlives.lt_values (isSome_value?.2 (h.operand hop hw))
  · intro o op hop he
    rw [hr.op?, Option.map_eq_some_iff] at hop
    obtain ⟨op, hop, rfl⟩ := hop
    simp only at he ⊢
    rw [h.erased hop he]
    rfl

theorem dropped {f : Bool → Bool} (hf : f true = true) (h : b.Exact) (hd : Dropped b o f b') :
    b'.Exact := by
  refine ⟨?_, ?_, ?_, (hd.outlives hf).result h, ?_⟩
  · intro v y hy u
    rw [hd.value?, Option.map_eq_some_iff] at hy
    obtain ⟨y₀, hy₀, rfl⟩ := hy
    rw [mem_foldl_erase (h.nodup_uses hy₀), h.mem_uses hy₀, mem_readSlots, hd.op?]
    by_cases hu : u.op = o
    · subst hu
      cases hop : b.op? u.op with
      | none => simp
      | some op =>
        simp
    · cases hop : b.op? u.op with
      | none => simp
      | some op => simp [hu]
  · intro v y hy
    rw [hd.value?, Option.map_eq_some_iff] at hy
    obtain ⟨y₀, hy₀, rfl⟩ := hy
    exact nodup_foldl_erase (h.nodup_uses hy₀)
  · intro x op v hop hv
    rw [hd.op?, Option.map_eq_some_iff] at hop
    obtain ⟨op, hop, rfl⟩ := hop
    split at hv
    · cases hv
    · exact (hd.outlives hf).lt_values (isSome_value?.2 (h.operand hop hv))
  · intro x op hop he
    rw [hd.op?, Option.map_eq_some_iff] at hop
    obtain ⟨op, hop, rfl⟩ := hop
    split
    · rfl
    next hx =>
      rw [if_neg hx] at he
      exact h.erased hop he

end Exact

namespace Coherent

theorem replaced (h : b.Coherent) (hr : Replaced b old new b') (hold : (b.value? old).isSome)
    (hnew : (b.value? new).isSome) (hne : old ≠ new) : b'.Coherent :=
  hr.outlives.coherent h (h.toExact.replaced hr hold hnew hne)

theorem dropped {f : Bool → Bool} (hf : f true = true) (h : b.Coherent) (hd : Dropped b o f b') : b'.Coherent :=
  (hd.outlives hf).coherent h (h.toExact.dropped hf hd)

end Coherent

end Scalarize.Body
