import Scalarize.Lower.Ports
import Scalarize.Proofs.Handover

/-!
# Arguments

* `Body.Reargs` : only arguments were made or taken out of the list;
* `Body.insertArguments_ends` : arguments are made behind another;
* `Coherent.splitArgument_ends` : an argument gives way to its parts, if its readers do;
* `Lowered`, `Lowered.splitArgument_ends` : so it does where all operations are done.
-/

namespace Scalarize

namespace Body

variable {must : Prop} {b b' b'' : Body} {new new' : List Ty} {v : ValueId} {o : OpId}

/-! ## Bodies with other arguments -/

/-- Operations and blocks are as before; values of the types `new` were made, which are arguments. -/
structure Reargs (b b' : Body) (new : List Ty) : Prop where
  ops : b'.ops = b.ops
  blocks : b'.blocks = b.blocks
  values : b'.values = b.values ++ (new.map fun t => (⟨t, .argument, []⟩ : Value)).toArray

namespace Reargs

theorem refl (b : Body) : Reargs b b [] := ⟨rfl, rfl, by simp⟩

theorem trans (h : Reargs b b' new) (h' : Reargs b' b'' new') : Reargs b b'' (new ++ new') where
  ops := h'.ops.trans h.ops
  blocks := h'.blocks.trans h.blocks
  values := by rw [h'.values, h.values]; simp

theorem op? (h : Reargs b b' new) (o : OpId) : b'.op? o = b.op? o := by
  unfold Body.op?
  rw [h.ops]

theorem block? (h : Reargs b b' new) (k : BlockId) : b'.block? k = b.block? k := by
  unfold Body.block?
  rw [h.blocks]

theorem value?_old (h : Reargs b b' new) (hv : v.index < b.values.size) : b'.value? v = b.value? v := by
  unfold Body.value?
  rw [h.values, Array.getElem?_append_left hv]

theorem value?_new (h : Reargs b b' new) (j : Nat) :
    b'.value? ⟨b.values.size + j⟩ = new[j]?.map fun t => ⟨t, .argument, []⟩ := by
  unfold Body.value?
  rw [h.values, Array.getElem?_append_right (Nat.le_add_right _ _)]
  simp

theorem size (h : Reargs b b' new) : b'.values.size = b.values.size + new.length := by
  rw [h.values]
  simp

/-- Every value is an old one or a new argument. -/
theorem value_cases (h : Reargs b b' new) {x : Value} (hx : b'.value? v = some x) :
    b.value? v = some x ∨
      ∃ j t, new[j]? = some t ∧ v = ⟨b.values.size + j⟩ ∧ x = ⟨t, .argument, []⟩ := by
  by_cases hv : v.index < b.values.size
  · exact .inl (h.value?_old hv ▸ hx)
  · refine .inr ⟨v.index - b.values.size, ?_⟩
    have he : v = ⟨b.values.size + (v.index - b.values.size)⟩ := by
      cases v
      congr 1
      simp only at hv ⊢
      omega
    rw [he, h.value?_new, Option.map_eq_some_iff] at hx
    obtain ⟨t, ht, rfl⟩ := hx
    exact ⟨t, ht, he, rfl⟩

/-- The new values have the types that were asked for. -/
theorem types_new (h : Reargs b b' new) :
    b'.Types ((List.range new.length).map fun j => ⟨b.values.size + j⟩) new := by
  refine List.forall₂_iff_get.2 ⟨by simp, fun i h₁ h₂ => ?_⟩
  refine ty?_eq_some_iff.2 ⟨⟨new[i], .argument, []⟩, ?_, rfl⟩
  simp only [List.get_eq_getElem, List.getElem_map, List.getElem_range]
  rw [h.value?_new, List.getElem?_eq_getElem h₂]
  rfl

theorem toExtends (h : Reargs b b' new) : Extends b b' where
  op? {x op} hop := ⟨op, by rw [h.op?, hop], rfl, rfl, rfl, rfl, rfl⟩
  ty? hv := by unfold Body.ty?; rw [h.value?_old hv]
  origin? hv := by unfold Body.origin?; rw [h.value?_old hv]
  size := by rw [h.size]; exact Nat.le_add_right _ _

theorem reads_iff (h : Reargs b b' new) : b'.Reads o v ↔ b.Reads o v := by
  unfold Reads
  rw [h.op?]

theorem inner (h : Reargs b b' new) (o : OpId) : b'.inner o = b.inner o := by
  unfold Body.inner slotsOf
  rw [h.op?]
  simp only [h.block?]

theorem exact (h : Reargs b b' new) (hb : b.Exact) : b'.Exact where
  uses {v x} hx u := by
    rw [h.op?]
    rcases h.value_cases hx with hx | ⟨j, t, -, rfl, rfl⟩
    · exact hb.uses hx u
    · refine ⟨fun hu => (by cases hu), fun ⟨op, hop, hu⟩ => ?_⟩
      have := hb.operand hop (List.mem_of_getElem? hu)
      exact absurd this (by simp)
  nodup_uses {v x} hx := by
    rcases h.value_cases hx with hx | ⟨j, t, -, rfl, rfl⟩
    · exact hb.nodup_uses hx
    · exact List.nodup_nil
  operand hop hv := by
    rw [h.op?] at hop
    exact Nat.lt_of_lt_of_le (hb.operand hop hv) h.toExtends.size
  result hop hi := by
    rw [h.op?] at hop
    exact h.toExtends.origin?_some (hb.result hop hi)
  erased hop he := hb.erased (h.op? _ ▸ hop) he

theorem coherent (h : Reargs b b' new) (hb : b.Coherent)
    (hargs : ∀ v ∈ b'.args, b'.origin? v = some .argument) (hnd : b'.args.Nodup) : b'.Coherent where
  toExact := h.exact hb.toExact
  origin {v o i} hv := by
    obtain ⟨x, hx, hr⟩ := origin?_eq_some_iff.1 hv
    rcases h.value_cases hx with hx | ⟨j, t, -, rfl, rfl⟩
    · rw [h.op?]
      exact hb.origin (origin?_eq_some_iff.2 ⟨x, hx, hr⟩)
    · cases hr
  slot hop he := by
    rw [h.op?] at hop
    rw [h.block?]
    exact hb.slot hop he
  slots hk ho := by
    rw [h.block?] at hk
    rw [h.op?]
    exact hb.slots hk ho
  nodup_slots hk := hb.nodup_slots (h.block? _ ▸ hk)
  args := hargs
  nodup_args := hnd
  guards hop hk := by
    rw [h.op?] at hop
    rw [h.block?]
    exact hb.guards hop hk
  nodup_guards hop := hb.nodup_guards (h.op? _ ▸ hop)
  parent hk hp := by
    rw [h.block?] at hk
    rw [h.op?]
    exact hb.parent hk hp
  entry := by
    rw [h.block?]
    exact hb.entry
  guarded hk := hb.guarded (h.block? _ ▸ hk)

/-- An argument is made in front of a position. -/
theorem coherent_insert {i : Nat} {ty : Ty} (hr : Reargs b b' [ty]) (h : b.Coherent)
    (hargs : b'.args = b.args.insertIdx i ⟨b.values.size⟩) : b'.Coherent := by
  have hold : ∀ v ∈ b.args, v.index < b.values.size := fun v hv => by
    obtain ⟨x, hx, -⟩ := origin?_eq_some_iff.1 (h.args v hv)
    exact lt_of_value? hx
  refine hr.coherent h (fun v hv => ?_) ?_
  · rw [hargs] at hv
    rcases List.eq_or_mem_of_mem_insertIdx hv with rfl | hv
    · exact origin?_eq_some_iff.2 ⟨_, hr.value?_new 0, rfl⟩
    · exact hr.toExtends.origin?_some (h.args v hv)
  · rw [hargs]
    by_cases hi : i ≤ b.args.length
    · rw [(List.perm_insertIdx _ _ hi).nodup_iff]
      exact List.nodup_cons.2 ⟨fun hmem => Nat.lt_irrefl _ (hold _ hmem), h.nodup_args⟩
    · rw [List.insertIdx_of_length_lt (by omega)]
      exact h.nodup_args

/-- An argument is taken out of the list. -/
theorem coherent_erase {i : Nat} (hr : Reargs b b' []) (h : b.Coherent)
    (hargs : b'.args = b.args.eraseIdx i) : b'.Coherent := by
  refine hr.coherent h (fun v hv => ?_) ?_
  · rw [hargs] at hv
    exact hr.toExtends.origin?_some (h.args v (List.mem_of_mem_eraseIdx hv))
  · rw [hargs]
    exact h.nodup_args.eraseIdx i

/-- A body under way may get other arguments. -/
theorem lowering {q : Setting} {R : OpId → Nat} {Q Z D : List OpId} (h : Reargs b b' new)
    (hl : Lowering q b R Q Z D) (hargs : ∀ v ∈ b'.args, b'.origin? v = some .argument)
    (hnd : b'.args.Nodup) (hm : q.must → ∀ t ∈ new, t.lastId?.isSome ∧ t.depth ≤ q.depth) :
    Lowering q b' R Q Z D where
  coherent := h.coherent hl.coherent hargs hnd
  known hx := by rw [h.op?]; exact hl.known hx
  tracked hop he := hl.tracked (h.op? _ ▸ hop) he
  nodup := hl.nodup
  typed hx hop he := by
    obtain ⟨ins, outs, hins, houts, hs⟩ := hl.typed hx (h.op? _ ▸ hop) he
    exact ⟨ins, outs, h.toExtends.types hins, h.toExtends.types houts, hs⟩
  plain hop he := hl.plain (h.op? _ ▸ hop) he
  spent hop he hv hr := hl.spent (h.op? _ ▸ hop) he hv (h.reads_iff.1 hr)
  settled {x op ins outs} hx hop he hins houts := by
    rw [h.op?] at hop
    obtain ⟨ins', outs', hins', houts', -⟩ := hl.typed (hl.not_mem_of_done hx) hop he
    obtain rfl := (h.toExtends.types hins').unique hins
    obtain rfl := (h.toExtends.types houts').unique houts
    exact hl.settled hx hop he hins' houts'
  closed hord := by
    intro Q₁ x Q₂ op v hQ hop hv
    rw [h.op?] at hop
    have hmade := hl.closed hord hQ hop hv
    unfold MadeBy at hmade ⊢
    rwa [h.toExtends.origin? (MadeBy.lt hmade)]
  sized hmust {v t} ht := by
    obtain ⟨x, hx, rfl⟩ := ty?_eq_some_iff.1 ht
    rcases h.value_cases hx with hx | ⟨j, t, hj, rfl, rfl⟩
    · exact hl.sized hmust (ty?_eq_some_iff.2 ⟨x, hx, rfl⟩)
    · exact hm hmust t (List.mem_of_getElem? hj)
  ready hmust {x op outs} hx hop he houts := by
    rw [h.op?] at hop
    have hag := h.toExtends.agrees hl.coherent
    have hlt : ∀ v ∈ op.operands, v.index < b.values.size := fun v hv => hl.coherent.operand hop hv
    obtain ⟨ins', outs', -, houts', -⟩ := hl.typed (fun hz => by
      have := hl.nodup
      rw [List.append_assoc, List.nodup_append] at this
      exact this.2.2 x hx x (List.mem_append_left _ hz) rfl) hop he
    obtain rfl := (h.toExtends.types houts').unique houts
    obtain ⟨hr, hs⟩ := hl.ready hmust hx hop he houts'
    exact ⟨hr.agrees hag hlt, hs.agrees hag hlt⟩
  quiet hmust {x op v t} hx hop hv ht hg := by
    rw [h.op?] at hop
    refine hl.quiet hmust hx hop hv ?_ hg
    rw [← h.toExtends.ty? (hl.coherent.operand hop hv)]
    exact ht
  nested hmust {x x'} hx hx' := hl.nested hmust hx (h.inner x ▸ hx')

end Reargs

theorem insertArgument_ends {i : Nat} {t : Ty} (hm : must → i ≤ b.args.length) :
    Ends must (b.insertArgument i t) fun r => Reargs b r.2 [t] ∧ r.1 = ⟨b.values.size⟩ ∧
      r.2.args = b.args.insertIdx i r.1 ∧ i ≤ b.args.length := by
  unfold insertArgument
  split
  next hi => exact .ok ⟨⟨rfl, rfl, by simp⟩, rfl, rfl, hi⟩
  next hi => exact .error fun hmust => hi (hm hmust)

theorem removeArgument_ends {i : Nat} (hm : must → i < b.args.length) :
    Ends must (b.removeArgument i) fun r => Reargs b r.2 [] ∧ r.2.args = b.args.eraseIdx i := by
  unfold removeArgument
  refine (Ends.orOutOfRange (Q := fun _ => True) (fun _ _ => trivial) fun hmust => ?_).bind
    fun v _ => .pure ⟨⟨rfl, rfl, by simp⟩, rfl⟩
  rw [List.getElem?_eq_getElem (hm hmust)]
  rfl

theorem Coherent.lt_of_arg (h : b.Coherent) (hv : v ∈ b.args) : v.index < b.values.size := by
  obtain ⟨x, hx, -⟩ := origin?_eq_some_iff.1 (h.args v hv)
  exact lt_of_value? hx

/-- Arguments are made one behind the other. -/
theorem insertArguments_ends {A B : List ValueId} (hargs : b.args = A ++ B) (types : List Ty) :
    Ends must (types.zipIdx.foldlM (fun (e : Body × List ValueId) (t : Ty × Nat) => do
      let (v, b) ← Body.insertArgument e.1 (A.length + t.2) t.1
      return (b, e.2 ++ [v])) (b, [])) fun r => Reargs b r.1 types ∧ r.1.args = A ++ r.2 ++ B ∧
        r.2 = (List.range types.length).map fun j => ⟨b.values.size + j⟩ := by
  refine (Ends.foldlM (fun done r => Reargs b r.1 (done.map Prod.fst) ∧ r.1.args = A ++ r.2 ++ B ∧
    r.2 = (List.range done.length).map fun j => ⟨b.values.size + j⟩) types.zipIdx
    ⟨.refl b, by simpa using hargs, rfl⟩ ?_).mono ?_
  · rintro done ⟨t, i⟩ rest ⟨b', values⟩ hl ⟨hr, hargs', hvalues⟩
    obtain rfl : i = done.length := by
      have : types.zipIdx[done.length]? = some (t, i) := by
        rw [hl]
        simp
      rw [List.getElem?_zipIdx, Option.map_eq_some_iff] at this
      obtain ⟨t', -, he⟩ := this
      simpa using (congrArg Prod.snd he).symm
    dsimp only at hr hargs' hvalues ⊢
    have hlen : values.length = done.length := by simp [hvalues]
    refine (insertArgument_ends fun _ => ?_).bind ?_
    · rw [hargs']
      simp [hlen]
    rintro ⟨v, b''⟩ ⟨hr', hv, hargs'', -⟩
    dsimp only at hr' hv hargs'' ⊢
    have hindex : A.length + done.length = (A ++ values).length := by simp [hlen]
    refine .pure ⟨by simpa using hr.trans hr', ?_, ?_⟩
    · rw [hargs'', hargs', hindex, insertIdx_append]
      simp
    · rw [hvalues, hv, List.length_append, List.length_singleton, List.range_succ, List.map_append,
        hr.size]
      simp
  · rintro ⟨b', values⟩ ⟨hr, hargs', hvalues⟩
    exact ⟨by simpa using hr, hargs', by simpa using hvalues⟩

/-- The tables still agree then. -/
theorem Coherent.insertArguments_ends {A B : List ValueId} (hb : b.Coherent) (hargs : b.args = A ++ B)
    (types : List Ty) :
    Ends must (types.zipIdx.foldlM (fun (e : Body × List ValueId) (t : Ty × Nat) => do
      let (v, b) ← Body.insertArgument e.1 (A.length + t.2) t.1
      return (b, e.2 ++ [v])) (b, [])) fun r => Reargs b r.1 types ∧ r.1.args = A ++ r.2 ++ B ∧
        r.1.Coherent ∧ r.1.Types r.2 types ∧ ∀ w ∈ r.2, b.values.size ≤ w.index := by
  refine (Body.insertArguments_ends hargs types).mono ?_
  rintro ⟨b₁, values⟩ ⟨hr, hargs₁, hvalues⟩
  dsimp only at hr hargs₁ hvalues ⊢
  -- the new arguments are new values
  have hnew : ∀ w ∈ values, b.values.size ≤ w.index ∧ b₁.origin? w = some .argument := by
    intro w hw
    rw [hvalues, List.mem_map] at hw
    obtain ⟨j, hj, rfl⟩ := hw
    refine ⟨Nat.le_add_right _ _, origin?_eq_some_iff.2 ?_⟩
    rw [hr.value?_new, List.getElem?_eq_getElem (List.mem_range.1 hj)]
    exact ⟨_, rfl, rfl⟩
  have horigin : ∀ v ∈ b₁.args, b₁.origin? v = some .argument := by
    intro v hv
    rw [hargs₁] at hv
    by_cases hvn : v ∈ values
    · exact (hnew v hvn).2
    · refine hr.toExtends.origin?_some (hb.args v ?_)
      rw [hargs]
      simp only [List.mem_append] at hv ⊢
      tauto
  have hnd₁ : b₁.args.Nodup := by
    have hperm : (A ++ values ++ B).Perm (values ++ (A ++ B)) := by
      rw [List.append_assoc]
      exact List.perm_append_comm_assoc _ _ _
    rw [hargs₁, hperm.nodup_iff, List.nodup_append, ← hargs]
    refine ⟨?_, hb.nodup_args, fun v hv w hw hvw => ?_⟩
    · rw [hvalues]
      refine List.nodup_range.map_on fun i _ j _ hij => ?_
      simpa using hij
    · have h₁ := (hnew v hv).1
      have h₂ := hb.lt_of_arg hw
      rw [hvw] at h₁
      omega
  refine ⟨hr, hargs₁, hr.coherent hb horigin hnd₁, ?_, fun w hw => (hnew w hw).1⟩
  rw [hvalues]
  exact hr.types_new

/-- The argument at a position. -/
theorem Types.split {S T : List Ty} {t : Ty} (h : b.Types b.args (S ++ t :: T)) :
    ∃ A old B, b.args = A ++ [old] ++ B ∧ b.Types A S ∧ b.ty? old = some t ∧ b.Types B T := by
  have htake := List.forall₂_take_append _ _ _ h
  have hdrop := List.forall₂_drop_append _ _ _ h
  cases hd : b.args.drop S.length with
  | nil => rw [hd] at hdrop; cases hdrop
  | cons old B =>
    rw [hd] at hdrop
    cases hdrop with
    | cons hold hB =>
      refine ⟨b.args.take S.length, old, B, ?_, htake, hold, hB⟩
      rw [List.append_assoc, List.singleton_append, ← hd, List.take_append_drop]

/-- `b₁` is `b` with arguments `values`, of the types `types`, behind the argument `old`, of type `t`. -/
structure Widened (b : Body) (S : List Ty) (t : Ty) (T types : List Ty) (A : List ValueId) (old : ValueId)
    (values B : List ValueId) (b₁ : Body) : Prop where
  args₀ : b.args = A ++ [old] ++ B
  args : b₁.args = A ++ [old] ++ values ++ B
  reargs : Reargs b b₁ types
  coherent : b₁.Coherent
  front : b₁.Types A S
  old : b₁.ty? old = some t
  types : b₁.Types values types
  behind : b₁.Types B T
  new : ∀ w ∈ values, b.values.size ≤ w.index

namespace Widened

variable {S T types : List Ty} {t : Ty} {A values B : List ValueId} {old w : ValueId} {b₁ b₂ : Body}

theorem origin? (h : Widened b S t T types A old values B b₁) (hw : w ∈ values) :
    b₁.origin? w = some .argument := h.coherent.args w (by simp [h.args, hw])

theorem origin?_old (h : Widened b S t T types A old values B b₁) : b₁.origin? old = some .argument :=
  h.coherent.args old (by simp [h.args])

theorem ne (h : Widened b S t T types A old values B b₁) (hb : b.Coherent) (hw : w ∈ values) : w ≠ old := by
  rintro rfl
  exact Nat.lt_irrefl _ (Nat.lt_of_lt_of_le (hb.lt_of_arg (by simp [h.args₀])) (h.new _ hw))

/-- The former argument is taken out of the list. -/
theorem narrowed (h : Widened b S t T types A old values B b₁) (hty : ∀ {v u}, b₁.ty? v = some u → b₂.ty? v = some u)
    (hr : Reargs b₂ b' []) (hargs : b'.args = A ++ values ++ B) : b'.Types b'.args (S ++ types ++ T) := by
  have htypes : ∀ {vs us}, b₁.Types vs us → b'.Types vs us := fun hvs =>
    hr.toExtends.types (hvs.imp fun _ _ => hty)
  rw [hargs]
  exact List.rel_append (List.rel_append (htypes h.front) (htypes h.types)) (htypes h.behind)

end Widened

/-- An argument gives way to its parts, if its readers do. -/
theorem Coherent.splitArgument_ends {S T : List Ty} {t : Ty} {Q : Body → Prop} (hb : b.Coherent)
    (hargs : b.Types b.args (S ++ t :: T)) (types : List Ty)
    (hrewire : ∀ {A old values B b₁}, Widened b S t T types A old values B b₁ →
      Ends must (b₁.rewire old values) fun b₂ => b₂.args = b₁.args ∧
        ∀ {b₃}, Reargs b₂ b₃ [] → b₃.args.Sublist b₂.args → b₃.args = A ++ values ++ B → Q b₃) :
    Ends must (b.splitArgument S.length types) Q := by
  obtain ⟨A, old, B, hsplit, hA, hold, hB⟩ := hargs.split
  have hlen : (A ++ [old]).length = S.length + 1 := by simp [hA.length_eq]
  unfold Body.splitArgument
  rw [← hlen]
  refine (hb.insertArguments_ends hsplit types).bind ?_
  rintro ⟨b₁, values⟩ ⟨hr, hargs₁, hb₁, hvtypes, hnew⟩
  dsimp only at hr hargs₁ hb₁ hvtypes hnew ⊢
  refine (Ends.orOutOfRange (Q := (old = ·)) (fun v hv => ?_) fun _ => ?_).bind ?_
  · rw [hargs₁, ← hA.length_eq] at hv
    simpa using hv
  · rw [hargs₁, ← hA.length_eq]
    simp
  rintro _ rfl
  refine (hrewire ⟨hsplit, hargs₁, hr, hb₁, hr.toExtends.types hA, hr.toExtends.ty?_some hold, hvtypes,
    hr.toExtends.types hB, hnew⟩).bind fun b₂ ⟨hargs₂, hQ⟩ => ?_
  refine (removeArgument_ends fun _ => ?_).bind ?_
  · rw [hargs₂, hargs₁, ← hA.length_eq]
    simp
  rintro ⟨_, b₃⟩ ⟨hr₃, hargs₃⟩
  dsimp only at hr₃ hargs₃ ⊢
  refine .pure (hQ hr₃ (hargs₃ ▸ List.eraseIdx_sublist _ _) ?_)
  rw [hargs₃, hargs₂, hargs₁, ← hA.length_eq, List.append_assoc, List.append_assoc, List.append_assoc,
    List.eraseIdx_append_of_length_le (Nat.le_refl _), Nat.sub_self]
  rfl

end Body

open Body

variable {q : Setting} {b b' : Body} {R : OpId → Nat} {D : List OpId} {ts : List Ty}

/-- A body all of whose operations are done, with arguments of the types `ts`; former arguments are
read no more. -/
structure Lowered (q : Setting) (b : Body) (R : OpId → Nat) (D : List OpId) (ts : List Ty) : Prop where
  holds : Lowering q b R [] [] D
  args : b.Types b.args ts
  current : ∀ {v x}, b.origin? v = some .argument → v ∉ b.args → ¬b.Reads x v

namespace Lowered

/-- An argument gives way to its parts. -/
theorem splitArgument_ends {S T : List Ty} {t : Ty} {ps : List Part} (h : Lowered q b R D (S ++ t :: T))
    (hps : t.PartsOf ps) :
    Ends q.must (b.splitArgument S.length (ps.map (·.ty))) fun b' =>
      Lowered q b' R D (S ++ ps.map (·.ty) ++ T) ∧
        ∀ {x op}, b.op? x = some op → ∃ op', b'.op? x = some op' ∧ op'.kind = op.kind := by
  have hb := h.holds.coherent
  refine hb.splitArgument_ends h.args _ fun {A old values B b₁} hw => ?_
  have hr := hw.reargs
  have hold : b.ty? old = some t := by
    rw [← hw.old, hr.toExtends.ty? (hb.lt_of_arg (by simp [hw.args₀]))]
  have hlow₁ : Lowering q b₁ R [] [] D := by
    refine hr.lowering h.holds hw.coherent.args hw.coherent.nodup_args fun hm u hu => ?_
    obtain ⟨p, hp, rfl⟩ := List.mem_map.1 hu
    obtain ⟨hid, hdepth⟩ := h.holds.sized hm hold
    exact ⟨Ty.isSome_lastId?_child hid (hps.child_index hp),
      Nat.le_trans (Nat.le_of_lt (hps.depth_lt hp)) hdepth⟩
  have hparts : Lowering.Parts q b₁ [] [] old t ps values :=
    { ty := hw.old
      partsOf := hps
      types := (List.forall₂_map_right_iff.1 hw.types).flip
      ne := fun w hw' => hw.ne hb hw'
      stands := fun w hw' {d i} hd => by
        rw [hw.origin? hw'] at hd
        cases hd
      own := fun {d i op} hd _ => by
        rw [hw.origin?_old] at hd
        cases hd
      away := fun z hz => by cases hz
      ordered := fun _ => ⟨fun x hx => (by cases hx), fun w hw' => .inl (hw.origin? hw')⟩ }
  refine (hlow₁.rewire_ends hparts).mono fun b₂ ⟨hlow₂, hh⟩ => ⟨hh.outlives.args, fun {b₃} hr₃ hsub hargs₃ => ?_⟩
  have horigin₃ : ∀ v ∈ b₃.args, b₃.origin? v = some .argument := fun v hv =>
    hr₃.toExtends.origin?_some (hlow₂.coherent.args v (hsub.subset hv))
  refine ⟨⟨hr₃.lowering hlow₂ horigin₃ (hlow₂.coherent.nodup_args.sublist hsub)
    fun _ t ht => (by cases ht), ?_, fun {v x} hv hnot hx => ?_⟩, fun {x op} hop => ?_⟩
  · exact hw.narrowed (fun {v u} hv => (hh.outlives.ty? v).trans hv) hr₃ hargs₃
  · rw [hargs₃] at hnot
    have hx₂ : b₂.Reads x v := hr₃.reads_iff.1 hx
    have hlt : v.index < b₂.values.size := by
      obtain ⟨op, hop, hv⟩ := hx₂
      exact hlow₂.coherent.operand hop hv
    have hv₁ : b₁.origin? v = some .argument := by
      rw [← hh.outlives.origin?, ← hr₃.toExtends.origin? hlt]
      exact hv
    by_cases hvo : v = old
    · exact hh.unread x (hvo ▸ hx₂)
    simp only [List.mem_append, not_or] at hnot
    have hx₀ : b.Reads x v := hr.reads_iff.1 (hh.reads hnot.1.2 hx₂)
    have hlt₀ : v.index < b.values.size := by
      obtain ⟨op, hop, hv⟩ := hx₀
      exact hb.operand hop hv
    refine h.current (by rw [← hr.toExtends.origin? hlt₀, hv₁]) (fun hmem => ?_) hx₀
    rw [hw.args₀, List.mem_append, List.mem_append, List.mem_singleton] at hmem
    rcases hmem with (hA | he) | hB
    · exact hnot.1.1 hA
    · exact hvo he
    · exact hnot.2 hB
  · obtain ⟨op', hop', hk, -⟩ := hh.outlives.op?_some ((hr.op? x).trans hop)
    exact ⟨op', (hr₃.op? x).trans hop', hk⟩

end Lowered

end Scalarize
