import Mathlib.Data.List.Perm.Subperm
import Scalarize.Proofs.Body.Uses

/-!
# Erasing

An operation is erased together with all that stands in the blocks that it guards, at any depth.

* `Body.Under`, `Body.WellNested` : what stands below an operation, and that nothing stands below itself;
* `WellNested.mem_guarded_iff` : an outline holds all that stands below an operation;
* `Body.Pruned`, `Body.discardEach_ends` : operations are erased one after the other;
* `Body.Settled`, `Formed.erases` : when an operation is erased, and whether what still stands reads a result of an
  operation that is gone.
-/

namespace Scalarize.Body

variable {b b' : Body} {o x y z : OpId} {k k' : BlockId} {ks : List BlockId} {n : Nat}

/-! ## Below an operation -/

/-- The operation stands in a block that `o` guards, or in one that an operation below `o` guards. -/
inductive Under (b : Body) (o : OpId) : OpId → Prop
  | inside {k : BlockId} {x : OpId} (hk : k ∈ b.guardedBlocks o) (hx : x ∈ b.live k) : Under b o x
  | deeper {y : OpId} {k : BlockId} {x : OpId} (hy : Under b o y) (hk : k ∈ b.guardedBlocks y) (hx : x ∈ b.live k) :
    Under b o x

theorem Under.stands (h : b.Under o x) : b.stands x := by
  cases h with
  | inside _ hx => exact (mem_live.1 hx).2
  | deeper _ _ hx => exact (mem_live.1 hx).2

theorem Under.trans (h : b.Under o y) (h' : b.Under y x) : b.Under o x := by
  induction h' with
  | inside hk hx => exact .deeper h hk hx
  | deeper _ hk hx ih => exact .deeper ih hk hx

/-- Neither `o` nor an operation below it stands below itself. -/
def WellNested (b : Body) (o : OpId) : Prop := ∀ x, x = o ∨ b.Under o x → ¬b.Under x x

theorem WellNested.under (h : b.WellNested o) (hy : b.Under o y) : b.WellNested y := fun x hx =>
  h x (.inr (hx.elim (· ▸ hy) hy.trans))

/-- Guards that the builder makes guard blocks behind their own. -/
theorem Coherent.wellNested (h : b.Coherent) (o : OpId) : b.WellNested o := by
  have hlt : ∀ {y x}, b.Under y x → b.blockIndex y < b.blockIndex x := fun hyx => by
    induction hyx with
    | inside hk hx => exact h.blockIndex_lt (mem_inner_iff.2 ⟨_, hk, (mem_live.1 hx).1⟩)
    | deeper _ hk hx ih => exact Nat.lt_trans ih (h.blockIndex_lt (mem_inner_iff.2 ⟨_, hk, (mem_live.1 hx).1⟩))
  exact fun x _ hx => Nat.lt_irrefl _ (hlt hx)

/-! ## Chains of blocks -/

/-- Guards lead from block `k` through the blocks of a list, one inside of the other, to the block in which `x`
stands. -/
inductive Chain (b : Body) : BlockId → List BlockId → OpId → Prop
  | last {k : BlockId} {x : OpId} (hx : x ∈ b.live k) : Chain b k [] x
  | step {k k' : BlockId} {ks : List BlockId} {y x : OpId} (hy : y ∈ b.live k) (hk : k' ∈ b.guardedBlocks y)
    (h : Chain b k' ks x) : Chain b k (k' :: ks) x

theorem Chain.under (h : b.Chain k ks x) (hk : k ∈ b.guardedBlocks o) : b.Under o x := by
  induction h generalizing o with
  | last hx => exact .inside hk hx
  | step hy hk' _ ih => exact (Under.inside hk hy).trans (ih hk')

theorem Chain.concat (h : b.Chain k ks y) (hk : k' ∈ b.guardedBlocks y) (hx : x ∈ b.live k') :
    b.Chain k (ks ++ [k']) x := by
  induction h with
  | last hy => exact .step hy hk (.last hx)
  | step hy hk' _ ih => exact .step hy hk' (ih hk)

theorem Under.exists_chain (h : b.Under o x) : ∃ k ∈ b.guardedBlocks o, ∃ ks, b.Chain k ks x := by
  induction h with
  | inside hk hx => exact ⟨_, hk, [], .last hx⟩
  | deeper _ hk hx ih =>
    obtain ⟨k, hk₀, ks, hc⟩ := ih
    exact ⟨k, hk₀, _, hc.concat hk hx⟩

/-- What stands in a block of a chain stands below what guards the chain. -/
theorem Chain.under_of_mem (h : b.Chain k ks x) (hk : k ∈ b.guardedBlocks o) (hmem : k' ∈ k :: ks)
    (hz : z ∈ b.live k') : b.Under o z := by
  induction h generalizing o with
  | last =>
    obtain rfl := List.mem_singleton.1 hmem
    exact .inside hk hz
  | step hy hk' _ ih =>
    rcases List.mem_cons.1 hmem with rfl | hmem
    · exact .inside hk hz
    · exact (Under.inside hk hy).trans (ih hk' hmem)

/-- A chain does not lead through a block twice. -/
theorem Chain.nodup (h : b.Chain k ks x) (hk : k ∈ b.guardedBlocks o) (hb : b.WellNested o) : (k :: ks).Nodup := by
  induction h generalizing o with
  | last => exact List.nodup_singleton _
  | step hy hk' hc ih =>
    have hu := Under.inside hk hy
    exact List.nodup_cons.2 ⟨fun hmem => hb _ (.inr hu) (hc.under_of_mem hk' hmem hy), ih hk' (hb.under hu)⟩

theorem Chain.lt_size (h : b.Chain k ks x) : ∀ k' ∈ k :: ks, k'.index < b.blocks.size := by
  have hlive : ∀ {k' : BlockId} {z}, z ∈ b.live k' → k'.index < b.blocks.size := fun {k'} z hz => by
    by_contra hle
    rw [live_eq_nil (Nat.not_lt.1 hle)] at hz
    cases hz
  induction h with
  | last hx => exact fun k' hk' => List.mem_singleton.1 hk' ▸ hlive hx
  | step hy _ _ ih =>
    intro k' hk'
    rcases List.mem_cons.1 hk' with rfl | hk'
    · exact hlive hy
    · exact ih k' hk'

theorem Chain.length_lt (h : b.Chain k ks x) (hk : k ∈ b.guardedBlocks o) (hb : b.WellNested o) :
    ks.length < b.blocks.size := by
  have hnd : ((k :: ks).map (·.index)).Nodup := (h.nodup hk hb).map fun i j hij => by
    cases i
    cases j
    exact congrArg BlockId.mk hij
  have hsub : (k :: ks).map (·.index) ⊆ List.range b.blocks.size := fun i hi => by
    obtain ⟨k', hk', rfl⟩ := List.mem_map.1 hi
    exact List.mem_range.2 (h.lt_size k' hk')
  simpa [Nat.succ_le_iff] using (List.subperm_of_subset hnd hsub).length_le

/-! ## Outlines -/

theorem ops_outlineWith_succ (b : Body) (n : Nat) (k : BlockId) : (b.outlineWith (n + 1) k).flatMap Outline.ops =
    (b.live k).flatMap fun o => o :: (b.guardedBlocks o).flatMap fun k' => (b.outlineWith n k').flatMap Outline.ops := by
  rw [outlineWith, List.flatMap_map]
  refine List.flatMap_congr fun o _ => ?_
  rw [kind?_eq, guardedBlocks]
  cases hop : b.op? o with
  | none => simp [Outline.ops]
  | some op =>
    rw [Option.map_some, Option.elim_some]
    cases op.kind with
    | when t e => cases e <;> simp [Outline.ops, OpKind.blocks]
    | _ => simp [Outline.ops, OpKind.blocks]

theorem Chain.mem_outlineWith (h : b.Chain k ks x) (hn : ks.length < n) :
    x ∈ (b.outlineWith n k).flatMap Outline.ops := by
  induction h generalizing n with
  | last hx =>
    obtain ⟨n, rfl⟩ := Nat.exists_eq_succ_of_ne_zero (Nat.ne_of_gt hn)
    rw [ops_outlineWith_succ]
    exact List.mem_flatMap.2 ⟨_, hx, List.mem_cons_self⟩
  | step hy hk' _ ih =>
    obtain ⟨n, rfl⟩ := Nat.exists_eq_succ_of_ne_zero (Nat.ne_of_gt (Nat.zero_lt_of_lt hn))
    rw [ops_outlineWith_succ]
    have hin := ih (Nat.lt_of_succ_lt_succ hn)
    exact List.mem_flatMap.2 ⟨_, hy, List.mem_cons_of_mem _ (List.mem_flatMap.2 ⟨_, hk', hin⟩)⟩

theorem under_of_mem_outlineWith (n : Nat) : ∀ {k : BlockId} {o : OpId}, k ∈ b.guardedBlocks o →
    x ∈ (b.outlineWith n k).flatMap Outline.ops → b.Under o x := by
  induction n with
  | zero => exact fun _ hx => absurd hx (by simp [outlineWith])
  | succ n ih =>
    intro k o hk hx
    rw [ops_outlineWith_succ, List.mem_flatMap] at hx
    obtain ⟨y, hy, hx⟩ := hx
    rcases List.mem_cons.1 hx with rfl | hx
    · exact .inside hk hy
    · obtain ⟨k', hk', hx⟩ := List.mem_flatMap.1 hx
      exact (Under.inside hk hy).trans (ih hk' hx)

/-- An outline holds all that stands below an operation. -/
theorem WellNested.mem_guarded_iff (h : b.WellNested o) : x ∈ b.guarded o ↔ b.Under o x := by
  have hguarded : b.guarded o = (b.guardedBlocks o).flatMap fun k => (b.outline k).flatMap Outline.ops := by
    unfold guarded guardedBlocks
    rw [kind?_eq]
    cases b.op? o <;> rfl
  rw [hguarded, List.mem_flatMap]
  constructor
  · rintro ⟨k, hk, hx⟩
    exact under_of_mem_outlineWith _ hk hx
  · intro hx
    obtain ⟨k, hk, ks, hc⟩ := hx.exists_chain
    exact ⟨k, hk, hc.mem_outlineWith (hc.length_lt hk h)⟩

/-! ## Taking operations out -/

/-- `b'` is `b` with exactly the operations with `E` erased; but for the use lists, nothing else about operations, values
and blocks is different. -/
structure Pruned (b : Body) (E : OpId → Prop) (b' : Body) : Prop where
  gone : ∀ {x}, E x → b'.op? x = (b.op? x).map fun op => { op with operands := [], erased := true }
  kept : ∀ {x}, ¬E x → b'.op? x = b.op? x
  value? : ∀ v, (b'.value? v).map (fun y => (y.ty, y.origin)) = (b.value? v).map fun y => (y.ty, y.origin)
  blocks : b'.blocks = b.blocks
  args : b'.args = b.args

variable {E : OpId → Prop} {v : ValueId}

namespace Pruned

theorem refl (b : Body) : Pruned b (· ∈ []) b :=
  ⟨fun hx => absurd hx List.not_mem_nil, fun _ => rfl, fun _ => rfl, rfl, rfl⟩

theorem congr {E' : OpId → Prop} (h : Pruned b E b') (hE : ∀ x, E' x ↔ E x) : Pruned b E' b' :=
  ⟨fun hx => h.gone ((hE _).1 hx), fun hx => h.kept fun he => hx ((hE _).2 he), h.value?, h.blocks, h.args⟩

/-- One more operation is taken out. -/
theorem concat {os : List OpId} {b'' : Body} (h : Pruned b (· ∈ os) b') (hd : Dropped b' x (fun _ => true) b'') :
    Pruned b (· ∈ os ++ [x]) b'' where
  gone {y} hy := by
    rw [hd.op?]
    by_cases hmem : y ∈ os
    · rw [h.gone hmem]
      cases b.op? y <;> simp
    · obtain rfl : y = x := by simpa [hmem] using hy
      rw [h.kept hmem]
      simp
  kept {y} hy := by
    rw [List.mem_append, List.mem_singleton, not_or] at hy
    rw [hd.op?, h.kept hy.1]
    cases b.op? y <;> simp [hy.2]
  value? v := by
    rw [hd.value?, ← h.value?]
    cases b'.value? v <;> rfl
  blocks := hd.blocks.trans h.blocks
  args := hd.args.trans h.args

theorem isSome_op? (h : Pruned b E b') (x : OpId) : (b'.op? x).isSome = (b.op? x).isSome := by
  by_cases hx : E x
  · rw [h.gone hx, Option.isSome_map]
  · rw [h.kept hx]

theorem stands_iff (h : Pruned b E b') : b'.stands x ↔ b.stands x ∧ ¬E x := by
  rw [stands_eq, stands_eq]
  by_cases hx : E x
  · rw [h.gone hx]
    cases b.op? x <;> simp [hx]
  · rw [h.kept hx]
    simp [hx]

theorem reads_iff (h : Pruned b E b') : b'.Reads x v ↔ b.Reads x v ∧ ¬E x := by
  unfold Reads
  by_cases hx : E x
  · rw [h.gone hx]
    cases b.op? x <;> simp [hx]
  · rw [h.kept hx]
    simp [hx]

end Pruned

/-- Operations are erased one after the other. -/
theorem discardEach_ends (os : List OpId) (hos : ∀ x ∈ os, (b.op? x).isSome) :
    Ends True (os.foldlM discard b) (Pruned b (· ∈ os)) :=
  Ends.foldlM (fun done b' => Pruned b (· ∈ done) b') os (.refl b) fun done x rest b' hl h =>
    (discard_ends fun _ => by rw [h.isSome_op?]; exact hos x (by simp [hl])).mono fun _ => h.concat

/-! ## Readers of what is gone -/

/-- An operation reads a result of another. -/
def ReadsResult (b : Body) (x y : OpId) : Prop := ∃ op v, b.op? y = some op ∧ v ∈ op.results ∧ b.Reads x v

/-- No operation that stands reads a result of one that is erased. -/
def Settled (b : Body) : Prop := ∀ x y, b.stands x → b.ReadsResult x y → b.stands y

theorem Exact.stands_of_readsResult (h : b.Exact) (hr : b.ReadsResult x y) : b.stands x := by
  obtain ⟨-, v, -, -, op, hop, hv⟩ := hr
  rw [stands_eq, hop, Option.any_some, Bool.not_eq_true']
  by_contra he
  rw [h.erased hop (by simpa using he)] at hv
  cases hv

theorem Pruned.readsResult_iff (h : Pruned b E b') : b'.ReadsResult x y ↔ b.ReadsResult x y ∧ ¬E x := by
  unfold ReadsResult
  simp only [h.reads_iff]
  by_cases hy : E y
  · rw [h.gone hy]
    cases b.op? y <;> simp [← and_assoc]
  · rw [h.kept hy]
    simp only [← and_assoc, exists_and_right]

/-- Once operations are erased, whatever still stands reads results of what stands, just if it read none of what is
gone. -/
theorem Pruned.settled_iff (h : Pruned b E b') (hb : b.Exact) (hs : b.Settled) :
    b'.Settled ↔ ∀ x y, E y → b.ReadsResult x y → E x := by
  constructor
  · intro hs' x y hy hr
    by_contra hx
    exact (h.stands_iff.1 (hs' x y (h.stands_iff.2 ⟨hb.stands_of_readsResult hr, hx⟩)
      (h.readsResult_iff.2 ⟨hr, hx⟩))).2 hy
  · intro hE x y hx hr
    obtain ⟨hr, hnot⟩ := h.readsResult_iff.1 hr
    exact h.stands_iff.2 ⟨hs x y (h.stands_iff.1 hx).1 hr, fun hy => hnot (hE x y hy hr)⟩

/-- An operation is erased just if nothing reads its results, and with it all that stands below it; all others keep
their operands. What stands then reads no result of what is gone, just if whatever read a result of an operation below
is gone as well. -/
theorem Formed.erases (h : b.Formed) (ho : (b.op? o).isSome) (hw : b.WellNested o) :
    (b.ResultRead o → b.eraseOp o = .error (.edit (.opHasUses o))) ∧
      (¬b.ResultRead o → ∃ b', b.eraseOp o = .ok b' ∧ b.Pruned (fun x => x = o ∨ b.Under o x) b' ∧
        (b.Settled → (b'.Settled ↔ ∀ x y, b.Under o y → b.ReadsResult x y → x = o ∨ b.Under o x))) := by
  obtain ⟨r, hr, hread⟩ := (h.exact.opHasUses_ends fun _ => ho).exists_ok trivial
  unfold eraseOp
  rw [hr]
  refine ⟨fun hres => ?_, fun hres => ?_⟩
  · rw [hread.2 hres]
    rfl
  have hfalse : r = false := by simpa using fun hr => hres (hread.1 hr)
  have hin : ∀ x ∈ o :: b.guarded o, (b.op? x).isSome := fun x hx => by
    rcases List.mem_cons.1 hx with rfl | hx
    · exact ho
    · have hs := (hw.mem_guarded_iff.1 hx).stands
      rw [stands_eq] at hs
      cases hop : b.op? x with
      | some op => rfl
      | none => simp [hop] at hs
  obtain ⟨b', hb', hp⟩ := (discardEach_ends _ hin).exists_ok trivial
  have hpruned : b.Pruned (fun x => x = o ∨ b.Under o x) b' := hp.congr fun x => by
    rw [List.mem_cons, hw.mem_guarded_iff]
  refine ⟨b', ?_, hpruned, fun hs => ?_⟩
  · rw [hfalse]
    exact hb'
  · rw [hpruned.settled_iff h.exact hs]
    refine ⟨fun hE x y hy => hE x y (.inr hy), fun hE x y hy hxy => ?_⟩
    rcases hy with rfl | hy
    · obtain ⟨op, v, hop, hv, hx⟩ := hxy
      exact absurd ⟨op, v, x, hop, hv, hx⟩ hres
    · exact hE x y hy hxy

/-! ### A reader inside of a guard, and one outside -/

/-- A guard, a wire that it guards, and a node in block `k` that reads the wire. -/
def readerBody (k : BlockId) : Body where
  values := #[⟨.uint 1, .argument, [⟨⟨0⟩, 0⟩]⟩, ⟨.uint 1, .result ⟨1⟩ 0, [⟨⟨2⟩, 0⟩]⟩, ⟨.uint 1, .result ⟨2⟩ 0, []⟩]
  ops := #[⟨.when ⟨1⟩ none, [⟨0⟩], [], entry, false⟩, ⟨.wire {}, [], [⟨1⟩], ⟨1⟩, false⟩, ⟨.node {}, [⟨1⟩], [⟨2⟩], k, false⟩]
  blocks := if k = entry then #[⟨[⟨0⟩, ⟨2⟩], none⟩, ⟨[⟨1⟩], some ⟨0⟩⟩] else #[⟨[⟨0⟩], none⟩, ⟨[⟨1⟩, ⟨2⟩], some ⟨0⟩⟩]
  args := [⟨0⟩]

theorem readerBody_reachable : (readerBody entry).Reachable ∧ (readerBody ⟨1⟩).Reachable := by
  have hwire := (@Builder.Built.start [.uint 1] _ ⟨entry, 0⟩ rfl).call (.when ⟨0⟩ false) rfl
    |>.call (.moveTo ⟨⟨1⟩, 0⟩) rfl |>.call (.wire (.uint 1) {}) rfl
  have hout := hwire.call (.moveTo ⟨entry, 1⟩) rfl |>.call (.node ⟨1⟩ {}) rfl
  have hin := hwire.call (.node ⟨1⟩ {}) rfl
  exact ⟨hout.reachable, hin.reachable⟩

/-- Nothing is erased. -/
theorem readerBody_settled (k : BlockId) : (readerBody k).Settled := by
  rintro x y - ⟨op, -, hop, -⟩
  match y, lt_of_op? hop with
  | ⟨0⟩, _ => rfl
  | ⟨1⟩, _ => rfl
  | ⟨2⟩, _ => rfl

theorem Formed.erases_readerBody : (readerBody ⟨1⟩).Formed ∧ (readerBody ⟨1⟩).WellNested ⟨0⟩ ∧
    ∃ b', (readerBody ⟨1⟩).eraseOp ⟨0⟩ = .ok b' ∧
      (readerBody ⟨1⟩).Pruned (fun x => x = ⟨0⟩ ∨ (readerBody ⟨1⟩).Under ⟨0⟩ x) b' ∧ b'.Settled := by
  have hreach := readerBody_reachable.2
  have hw := hreach.coherent.wellNested ⟨0⟩
  refine ⟨hreach.formed, hw, ?_⟩
  have hnone : ¬(readerBody ⟨1⟩).ResultRead ⟨0⟩ := by
    rintro ⟨op, v, -, hop, hv, -⟩
    obtain rfl := Option.some.inj hop
    cases hv
  obtain ⟨b', hb', hp, hs⟩ := (hreach.formed.erases rfl hw).2 hnone
  refine ⟨b', hb', hp, (hs (readerBody_settled _)).2 fun x _ _ hr => ?_⟩
  obtain ⟨-, -, -, -, op, hop, -⟩ := hr
  have hblock : (⟨1⟩ : BlockId) ∈ (readerBody ⟨1⟩).guardedBlocks ⟨0⟩ := List.mem_cons_self
  match x, lt_of_op? hop with
  | ⟨0⟩, _ => exact .inl rfl
  | ⟨1⟩, _ => exact .inr (.inside hblock (by decide))
  | ⟨2⟩, _ => exact .inr (.inside hblock (by decide))

/-- A node outside of a guard goes on reading the wire that was erased inside. -/
theorem readerBody_unsettled : (readerBody entry).Reachable ∧ (readerBody entry).Settled ∧
    ∃ b', (readerBody entry).eraseOp ⟨0⟩ = .ok b' ∧ ¬b'.Settled := by
  refine ⟨readerBody_reachable.1, readerBody_settled _, _, rfl, fun hs => ?_⟩
  have herased := hs ⟨2⟩ ⟨1⟩ rfl ⟨_, ⟨1⟩, rfl, by decide, _, rfl, by decide⟩
  cases herased

end Scalarize.Body
