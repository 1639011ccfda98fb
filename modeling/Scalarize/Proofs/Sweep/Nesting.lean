import Scalarize.Proofs.Sweep.Rounds

/-!
# Calls within calls

* `Visit.At`, `Visit.Moves` : where an operation is dispatched, and that the body moves on meanwhile;
* `Records.advances`, `Rounds.advances` : so it does over all rounds of a call;
* `Records.reaches`, `Records.slotsOf_eq` : calls are for blocks below, and the slots of other blocks stay;
* `Records.acyclic` : a call that ends is for a block that does not lie below itself;
* `Visit.Puts`, `Records.puts` : what a dispatch does to the block of its operation.
-/

namespace Scalarize

open Body Relation

namespace Lower

variable {α : Type} {cx : Context} {k m : BlockId} {i j : Nat} {t t' : LowerState} {c c' c₁ : Sweep}

/-- The operation stands in the block, right behind the point. -/
structure Visit.At (v : Visit α) (k : BlockId) : Prop where
  block : v.start.builder.point.block = k
  slot : (v.start.builder.body.slotsOf k)[v.start.builder.point.index]? = some v.op
  stands : v.start.builder.body.stands v.op

theorem Visit.At.of_start {v : Visit α} {op : Operation} (hs : (t.builder.body.slotsOf k)[i]? = some v.op)
    (hop : t.builder.body.op? v.op = some op) (he : op.erased = false)
    (start : v.start = ⟨⟨t.builder.body, ⟨k, i⟩⟩, t.symbols⟩) : v.At k where
  block := by rw [start]
  slot := by rwa [start]
  stands := by rw [start]; simp [stands_eq, hop, he]

theorem Rounds.at {V : List (Visit α)} (h : Rounds k i t V j t') : ∀ v ∈ V, v.At k := by
  induction h with
  | done => exact nofun
  | skip _ _ _ _ ih => exact ih
  | visit hs hop he start _ _ ih =>
    intro w hw
    rcases List.mem_cons.1 hw with rfl | hw
    · exact .of_start hs hop he start
    · exact ih w hw

namespace Visit.At

variable {v : Visit α}

theorem mem_live (h : v.At k) : v.op ∈ v.start.builder.body.live k :=
  Body.mem_live.2 ⟨List.mem_of_getElem? h.slot, h.stands⟩

theorem isSome_block (h : v.At k) : (v.start.builder.body.block? k).isSome := by
  obtain ⟨blk, hblk⟩ := exists_block_of_mem_slotsOf (List.mem_of_getElem? h.slot)
  rw [hblk]
  rfl

theorem isSome_op (h : v.At k) : (v.start.builder.body.op? v.op).isSome := by
  have hs := h.stands
  rw [stands_eq] at hs
  cases hop : v.start.builder.body.op? v.op with
  | none => rw [hop] at hs; cases hs
  | some op => rfl

theorem split (h : v.At k) : ∃ A B, v.start.builder.body.slotsOf k = A ++ v.op :: B ∧
    A.length = v.start.builder.point.index :=
  exists_around h.slot

theorem inPlace (h : v.At k) : v.start.builder.InPlace := by
  obtain ⟨A, B, hs, hA⟩ := h.split
  exact ⟨h.block ▸ h.isSome_block, A, _, h.block ▸ hs, hA⟩

end Visit.At

/-! ## The body moves on -/

/-- The body moves on, and only an operation that guards nothing gives way. -/
structure Visit.Moves (v : Visit α) : Prop where
  advances : v.start.builder.body.Advances v.stop.builder.body
  plain : v.replaced = true → v.start.builder.body.guardedBlocks v.op = []

/-- What a dispatch leaves is what it made, and the operation is erased if it gave way. -/
theorem Visit.Moves.leaves {v : Visit α} (h : v.Moves) (hv : (v.start.builder.body.op? v.op).isSome) {b : Body}
    (hb : v.Leaves b) : v.stop.builder.body.Quiet b ∧
      (v.replaced = true → ∃ op, b.op? v.op = some op ∧ op.erased = true) := by
  unfold Visit.Leaves at hb
  split at hb
  next hr =>
    have hplain : v.stop.builder.body.guardedBlocks v.op = [] := by rw [h.advances.guardedBlocks hv, h.plain hr]
    have herase := (eraseOp_quiet hplain).of_ok hb
    exact ⟨herase.1, fun _ => herase.2⟩
  next hr =>
    subst hb
    exact ⟨.refl _, fun h => absurd h hr⟩

/-- What a dispatch in some rounds started from, and what is left of it in the end. -/
structure Visit.Between (v : Visit α) (b b' : Body) : Prop where
  before : b.Advances v.start.builder.body
  after : v.stop.builder.body.Advances b'
  gone : v.replaced = true → ∃ op, b'.op? v.op = some op ∧ op.erased = true

theorem Rounds.advances {V : List (Visit α)} (h : Rounds k i t V j t') (hV : ∀ v ∈ V, v.Moves) :
    t.builder.body.Advances t'.builder.body ∧ ∀ v ∈ V, v.Between t.builder.body t'.builder.body := by
  induction h with
  | done => exact ⟨.refl _, nofun⟩
  | skip _ _ _ _ ih => exact ih hV
  | @visit i j t t' v V op b hs hop he start leave rest ih =>
    have hv := hV v List.mem_cons_self
    have hbody : v.start.builder.body = t.builder.body := by rw [start]
    have hat : v.At k := .of_start hs hop he start
    obtain ⟨hquiet, hgone⟩ := hv.leaves hat.isSome_op leave
    obtain ⟨hrest, hbetween⟩ := ih fun w hw => hV w (List.mem_cons_of_mem v hw)
    have hround : t.builder.body.Advances b := hbody ▸ hv.advances.trans hquiet.advances
    refine ⟨hround.trans hrest, fun w hw => ?_⟩
    rcases List.mem_cons.1 hw with rfl | hw
    · refine ⟨hbody ▸ .refl _, hquiet.advances.trans hrest, fun hr => ?_⟩
      obtain ⟨op₁, hop₁, he₁⟩ := hgone hr
      obtain ⟨op₂, hop₂, hp⟩ := hrest.op? hop₁
      exact ⟨op₂, hop₂, hp.erased he₁⟩
    · obtain ⟨hbefore, hafter, hgone'⟩ := hbetween w hw
      exact ⟨hround.trans hbefore, hafter, hgone'⟩

theorem Follows.advances {cs : List Sweep} (h : Follows t cs t')
    (hcs : ∀ c ∈ cs, c.start.builder.body.Advances c.stop.builder.body) :
    t.builder.body.Advances t'.builder.body ∧ ∀ c ∈ cs,
      t.builder.body.Advances c.start.builder.body ∧ c.stop.builder.body.Advances t'.builder.body := by
  induction h with
  | nil => exact ⟨.refl _, nofun⟩
  | @cons c cs t h ih =>
    have hc := hcs c List.mem_cons_self
    obtain ⟨hrest, hall⟩ := ih fun c' hc' => hcs c' (List.mem_cons_of_mem c hc')
    refine ⟨hc.trans hrest, fun c' hc' => ?_⟩
    rcases List.mem_cons.1 hc' with rfl | hc'
    · exact ⟨.refl _, hrest⟩
    · exact ⟨hc.trans (hall c' hc').1, (hall c' hc').2⟩

/-- A plain operation has new operations put in front of it. -/
theorem Visit.Dispatches.fills {v : Visit Sweep} {op : Operation} (hv : v.At k)
    (run : (step cx v.op op.kind).run v.start = .ok (v.replaced, v.stop)) :
    (∃ N, v.start.builder.Fills v.stop.builder N) ∧ (v.replaced = false → v.stop = v.start) :=
  ⟨(step_spawns cx v.op op.kind v.start).of_ok run hv.inPlace, (step_idles cx v.op op.kind v.start).of_ok run⟩

theorem Visit.Dispatches.moves {v : Visit Sweep} (h : v.Dispatches cx) (hv : v.At k)
    (hcs : ∀ c ∈ v.calls, c.start.builder.body.Advances c.stop.builder.body) : v.Moves := by
  cases h with
  | plain hop hk hc run =>
    obtain ⟨⟨N, hN⟩, -⟩ := fills hv run
    exact ⟨hN.advances, fun _ => by rw [guardedBlocks_eq hop, hk]⟩
  | guard hop hk kept blocks run =>
    exact ⟨(run.advances hcs).1, fun hr => by rw [kept] at hr; cases hr⟩

namespace Sweep

theorem Records.moves (h : c.Records cx) : (∀ v ∈ c.visits, v.Moves) ∧
    c.start.builder.body.Advances c.stop.builder.body := by
  induction h with
  | @mk c n hn rounds dispatches calls ih =>
    have hmoves : ∀ v ∈ c.visits, v.Moves := fun v hv =>
      (dispatches v hv).moves (rounds.at v hv) fun c' hc' => (ih v hv c' hc').2
    exact ⟨hmoves, (rounds.advances hmoves).1⟩

theorem Records.advances (h : c.Records cx) : c.start.builder.body.Advances c.stop.builder.body := h.moves.2

theorem Records.at (h : c.Records cx) : ∀ v ∈ c.visits, v.At c.block := by
  cases h with
  | mk hn rounds dispatches calls => exact rounds.at

theorem Records.dispatches (h : c.Records cx) : ∀ v ∈ c.visits, v.Dispatches cx := by
  cases h with
  | mk hn rounds dispatches calls => exact dispatches

theorem Records.calls (h : c.Records cx) : ∀ v ∈ c.visits, ∀ c' ∈ v.calls, c'.Records cx := by
  cases h with
  | mk hn rounds dispatches calls => exact calls

theorem Records.between (h : c.Records cx) : ∀ v ∈ c.visits, v.Between c.start.builder.body c.stop.builder.body := by
  have hmoves := h.moves.1
  cases h with
  | mk hn rounds dispatches calls => exact (rounds.advances hmoves).2

theorem Records.visit_advances (h : c.Records cx) {v : Visit Sweep} (hv : v ∈ c.visits) :
    v.start.builder.body.Advances c.stop.builder.body :=
  (h.moves.1 v hv).advances.trans (h.between v hv).after

theorem Records.isSome_block (h : c.Records cx) : (c.start.builder.body.block? c.block).isSome := by
  cases h with
  | mk hn rounds dispatches calls =>
    unfold slotCount at hn
    rw [block_eq] at hn
    cases hblk : c.start.builder.body.block? c.block with
    | none => rw [hblk] at hn; cases hn
    | some blk => rfl

end Sweep

/-! ## Blocks below -/

section Calls

variable {v : Visit Sweep}

theorem Visit.Dispatches.mem_guardedBlocks (h : v.Dispatches cx) (hc : c ∈ v.calls) :
    c.block ∈ v.start.builder.body.guardedBlocks v.op := by
  cases h with
  | plain hop hk hnil run => simp [hnil] at hc
  | guard hop hk kept blocks run =>
    rw [guardedBlocks_eq hop, ← blocks]
    exact List.mem_map_of_mem hc

/-- Every block that a guard guards is lowered. -/
theorem Visit.Dispatches.exists_call (h : v.Dispatches cx) (hk : k ∈ v.start.builder.body.guardedBlocks v.op) :
    ∃ c ∈ v.calls, c.block = k := by
  cases h with
  | plain hop hnil hc run => simp [guardedBlocks_eq hop, hnil] at hk
  | guard hop hne kept blocks run =>
    rw [guardedBlocks_eq hop, ← blocks, List.mem_map] at hk
    exact hk

theorem Visit.Dispatches.calls_advance (h : v.Dispatches cx) (hr : ∀ c ∈ v.calls, c.Records cx) (hc : c ∈ v.calls) :
    v.start.builder.body.Advances c.start.builder.body ∧ c.stop.builder.body.Advances v.stop.builder.body := by
  cases h with
  | plain hop hk hnil run => simp [hnil] at hc
  | guard hop hk kept blocks run => exact (run.advances fun c' hc' => (hr c' hc').advances).2 c hc

/-- A call is for a block right below. -/
theorem Visit.Dispatches.opens (h : v.Dispatches cx) (hv : v.At k) (hc : c ∈ v.calls) :
    v.start.builder.body.Opens k c.block :=
  ⟨v.op, hv.mem_live, h.mem_guardedBlocks hc⟩

end Calls

namespace Sweep

variable {v : Visit Sweep}

/-- From the start of a call to the start of a call below it, and from the end of the latter to that of the former. -/
theorem Records.advances_all (h : c.Records cx) : ∀ c' ∈ c.all,
    c.start.builder.body.Advances c'.start.builder.body ∧ c'.stop.builder.body.Advances c.stop.builder.body := by
  induction h with
  | @mk c n hn rounds dispatches calls ih =>
    intro c' hc'
    rcases mem_all.1 hc' with rfl | ⟨v, hv, c₁, hc₁, hc'⟩
    · exact ⟨.refl _, .refl _⟩
    have hbetween := (Records.mk hn rounds dispatches calls).between v hv
    have hcall := (dispatches v hv).calls_advance (calls v hv) hc₁
    have hall := ih v hv c₁ hc₁ c' hc'
    exact ⟨(hbetween.before.trans hcall.1).trans hall.1, hall.2.trans (hcall.2.trans hbetween.after)⟩

theorem Records.call_advances (h : c.Records cx) (hv : v ∈ c.visits) (hc : c₁ ∈ v.calls) :
    c.start.builder.body.Advances c₁.start.builder.body ∧ c₁.stop.builder.body.Advances c.stop.builder.body :=
  h.advances_all c₁ (mem_all_of_call hv hc c₁.self_mem_all)

/-- The block of a call below is there in the end. -/
theorem Records.isSome_of_mem (h : c.Records cx) (hc : c' ∈ c.all) : (c.stop.builder.body.block? c'.block).isSome :=
  (h.advances_all c' hc).2.block ((h.of_mem_all hc).advances.block (h.of_mem_all hc).isSome_block)

/-- Calls are for blocks below. -/
theorem Records.reaches (h : c.Records cx) : ∀ c' ∈ c.all,
    ReflTransGen c.stop.builder.body.Opens c.block c'.block := by
  induction h with
  | @mk c n hn rounds dispatches calls ih =>
    intro c' hc'
    rcases mem_all.1 hc' with rfl | ⟨v, hv, c₁, hc₁, hc'⟩
    · exact .refl
    have h : c.Records cx := .mk hn rounds dispatches calls
    have hopens := (dispatches v hv).opens (rounds.at v hv) hc₁
    exact .head ((h.visit_advances hv).opens hopens) ((h.call_advances hv hc₁).2.below (ih v hv c₁ hc₁ c' hc'))

end Sweep

/-! ## Slots of other blocks -/

/-- The slots of a block stay over all rounds if they stay over each dispatch. -/
theorem Rounds.slotsOf_eq {V : List (Visit α)} (h : Rounds k i t V j t') (hV : ∀ v ∈ V, v.Moves)
    (hm : (t.builder.body.block? m).isSome) (hs : ∀ v ∈ V, (v.start.builder.body.block? m).isSome →
      v.stop.builder.body.slotsOf m = v.start.builder.body.slotsOf m) :
    t'.builder.body.slotsOf m = t.builder.body.slotsOf m := by
  induction h with
  | done => rfl
  | skip _ _ _ _ ih => exact ih hV hm hs
  | @visit i j t t' v V op b hslot hop he start leave rest ih =>
    have hv := hV v List.mem_cons_self
    have hbody : v.start.builder.body = t.builder.body := by rw [start]
    have hat : v.At k := .of_start hslot hop he start
    obtain ⟨hquiet, -⟩ := hv.leaves hat.isSome_op leave
    have hb : b.slotsOf m = t.builder.body.slotsOf m := by
      rw [hquiet.slotsOf, hs v List.mem_cons_self (by rwa [hbody]), hbody]
    refine (ih (fun w hw => hV w (List.mem_cons_of_mem v hw)) ?_ fun w hw => hs w (List.mem_cons_of_mem v hw)).trans hb
    show (b.block? m).isSome
    rw [hquiet.block?]
    exact hv.advances.block (by rwa [hbody])

theorem Follows.slotsOf_eq {cs : List Sweep} (h : Follows t cs t')
    (hcs : ∀ c ∈ cs, c.start.builder.body.Advances c.stop.builder.body) (hm : (t.builder.body.block? m).isSome)
    (hs : ∀ c ∈ cs, (c.start.builder.body.block? m).isSome →
      c.stop.builder.body.slotsOf m = c.start.builder.body.slotsOf m) :
    t'.builder.body.slotsOf m = t.builder.body.slotsOf m := by
  induction h with
  | nil => rfl
  | @cons c cs t h ih =>
    refine (ih (fun c' hc' => hcs c' (List.mem_cons_of_mem c hc')) ?_
      fun c' hc' => hs c' (List.mem_cons_of_mem c hc')).trans (hs c List.mem_cons_self hm)
    exact (hcs c List.mem_cons_self).block hm

/-- A plain operation has operations put in front of it in its own block alone. -/
theorem Visit.Dispatches.slotsOf_eq {v : Visit Sweep} (h : v.Dispatches cx) (hv : v.At k) (hne : m ≠ k)
    (hm : (v.start.builder.body.block? m).isSome) (hr : ∀ c ∈ v.calls, c.Records cx)
    (hs : ∀ c ∈ v.calls, (c.start.builder.body.block? m).isSome →
      c.stop.builder.body.slotsOf m = c.start.builder.body.slotsOf m) :
    v.stop.builder.body.slotsOf m = v.start.builder.body.slotsOf m := by
  cases h with
  | plain hop hk hc run =>
    obtain ⟨⟨N, hN⟩, -⟩ := fills hv run
    exact hN.others hm (hv.block ▸ hne)
  | guard hop hk kept blocks run => exact run.slotsOf_eq (fun c hc => (hr c hc).advances) hm hs

namespace Sweep

/-- The slots of a block stay if no call is for it. -/
theorem Records.slotsOf_eq (h : c.Records cx) : (c.start.builder.body.block? m).isSome →
    m ∉ c.all.map block → c.stop.builder.body.slotsOf m = c.start.builder.body.slotsOf m := by
  induction h with
  | @mk c n hn rounds dispatches calls ih =>
    intro hm hnot
    have hmoves := (Records.mk hn rounds dispatches calls).moves.1
    have hne : m ≠ c.block := fun he => hnot (List.mem_map.2 ⟨c, c.self_mem_all, he.symm⟩)
    refine rounds.slotsOf_eq hmoves hm fun v hv hm => ?_
    refine (dispatches v hv).slotsOf_eq (rounds.at v hv) hne hm (calls v hv) fun c₁ hc₁ hm => ih v hv c₁ hc₁ hm ?_
    rw [List.mem_map]
    rintro ⟨c', hc', rfl⟩
    exact hnot (List.mem_map.2 ⟨c', mem_all_of_call hv hc₁ hc', rfl⟩)

end Sweep

theorem Ran.moves {V : List (Visit Sweep)} (h : Ran cx V) (hV : ∀ v ∈ V, v.At k) : ∀ v ∈ V, v.Moves := fun v hv =>
  (h v hv).1.moves (hV v hv) fun c hc => ((h v hv).2 c hc).advances

/-- The slots of another block stay over all rounds if no call is for it. -/
theorem Rounds.slotsOf_other {V : List (Visit Sweep)} (h : Rounds k i t V j t') (hran : Ran cx V) (hne : m ≠ k)
    (hm : (t.builder.body.block? m).isSome) (hnot : ∀ v ∈ V, ∀ c ∈ v.calls, m ∉ c.all.map (·.block)) :
    t'.builder.body.slotsOf m = t.builder.body.slotsOf m :=
  h.slotsOf_eq (hran.moves h.at) hm fun v hv hm => (hran v hv).1.slotsOf_eq (h.at v hv) hne hm (hran v hv).2
    fun c hc hm => ((hran v hv).2 c hc).slotsOf_eq hm (hnot v hv c hc)

/-! ## No block lies below itself -/

/-- The block does not lie below itself when the call starts. -/
def Sweep.Acyclic (c : Sweep) : Prop := ¬TransGen c.start.builder.body.Opens c.block c.block

section Calls

variable {v : Visit Sweep}

/-- The block of a guard does not lie below a block that the guard guards. -/
theorem Visit.Dispatches.not_below (h : v.Dispatches cx) (hv : v.At k) (hr : ∀ c ∈ v.calls, c.Records cx)
    (hc : c ∈ v.calls) (hac : c.Acyclic) : ¬ReflTransGen c.start.builder.body.Opens c.block k := fun hback =>
  hac (.tail' hback ((h.calls_advance hr hc).1.opens (h.opens hv hc)))

/-- Lowering the blocks of a guard leaves the slots of its own block as they are. -/
theorem Visit.Dispatches.slotsOf_self (h : v.Dispatches cx) (hv : v.At k) (hr : ∀ c ∈ v.calls, c.Records cx)
    (hac : ∀ c ∈ v.calls, c.Acyclic) (hg : v.start.builder.body.guardedBlocks v.op ≠ []) :
    v.stop.builder.body.slotsOf k = v.start.builder.body.slotsOf k := by
  cases h with
  | plain hop hk hc run => exact absurd (by rw [guardedBlocks_eq hop, hk]) hg
  | guard hop hk kept blocks run =>
    have hguard : v.Dispatches cx := .guard hop hk kept blocks run
    refine run.slotsOf_eq (fun c hc => (hr c hc).advances) hv.isSome_block fun c hc hblk => ?_
    refine (hr c hc).slotsOf_eq hblk fun hmem => ?_
    obtain ⟨c', hc', rfl⟩ := List.mem_map.1 hmem
    -- a call below for the block itself would close a cycle
    exact hguard.not_below hv hr hc (hac c hc) ((hr c hc).advances.below_back ((hr c hc).reaches c' hc') hblk)

/-- Operations are put right in front of the one that is dispatched. -/
structure Visit.Puts (v : Visit α) (k : BlockId) (N : List OpId) : Prop where
  slots : ∀ {A B}, v.start.builder.body.slotsOf k = A ++ B → A.length = v.start.builder.point.index →
    v.stop.builder.body.slotsOf k = A ++ N ++ B
  fresh : ∀ x ∈ N, v.start.builder.body.op? x = none
  sorted : N.Pairwise (·.index < ·.index)
  idle : v.replaced = false → N = []

theorem Visit.At.puts {v : Visit α} {N : List OpId} (hv : v.At k) (hN : v.start.builder.Fills v.stop.builder N)
    (hidle : v.replaced = false → v.stop = v.start) : v.Puts k N := by
  have hslots := @hN.slots
  rw [hv.block] at hslots
  refine ⟨hslots, hN.fresh, hN.sorted, fun hf => ?_⟩
  obtain ⟨A, B, hs, hA⟩ := hv.split
  have hlen := congrArg List.length (hslots hs hA)
  rw [hidle hf, hs] at hlen
  simp only [List.length_append] at hlen
  exact List.length_eq_zero_iff.1 (by omega)

theorem Visit.Dispatches.puts (h : v.Dispatches cx) (hv : v.At k) (hr : ∀ c ∈ v.calls, c.Records cx)
    (hac : ∀ c ∈ v.calls, c.Acyclic) : ∃ N, v.Puts k N := by
  by_cases hg : v.start.builder.body.guardedBlocks v.op = []
  · cases h with
    | guard hop hk kept blocks run => exact absurd (guardedBlocks_eq hop ▸ hg) hk
    | plain hop hk hc run =>
      obtain ⟨⟨N, hN⟩, hidle⟩ := fills hv run
      exact ⟨N, hv.puts hN hidle⟩
  · have hself := h.slotsOf_self hv hr hac hg
    exact ⟨[], fun hs _ => by rw [hself, hs, List.append_nil], nofun, .nil, fun _ => rfl⟩

end Calls

/-- No operation in front of the cursor guards a block that the block of the cursor lies below. -/
theorem Rounds.not_below {V : List (Visit Sweep)} (h : Rounds k i t V j t') (hj : j = 0) (hran : Ran cx V)
    (hac : ∀ v ∈ V, ∀ c ∈ v.calls, c.Acyclic) : ∀ p < i, ∀ g, (t.builder.body.slotsOf k)[p]? = some g →
      t.builder.body.stands g → ∀ k₁ ∈ t.builder.body.guardedBlocks g, ¬ReflTransGen t.builder.body.Opens k₁ k := by
  induction h with
  | done =>
    subst hj
    exact nofun
  | @skip i j t t' V o op hs hop he rest ih =>
    intro p hp g hg hst
    rcases Nat.lt_succ_iff_lt_or_eq.1 hp with hp | rfl
    · exact ih hj hran hac p hp g hg hst
    · obtain rfl := Option.some.inj (hs.symm.trans hg)
      simp [stands_eq, hop, he] at hst
  | @visit i j t t' v V op b hs hop he start leave rest ih =>
    intro p hp g hg hst k₁ hk₁ hback
    have hbody : v.start.builder.body = t.builder.body := by rw [start]
    have hat : v.At k := .of_start hs hop he start
    obtain ⟨hdisp, hrec⟩ := hran v List.mem_cons_self
    have hacv := hac v List.mem_cons_self
    have hmoves := hdisp.moves hat fun c hc => (hrec c hc).advances
    obtain ⟨hquiet, -⟩ := hmoves.leaves hat.isSome_op leave
    rcases Nat.lt_succ_iff_lt_or_eq.1 hp with hp | rfl
    · -- the guard keeps its slot, and what lay below it still does
      have hround : t.builder.body.Advances b := hbody ▸ hmoves.advances.trans hquiet.advances
      have hsome := isSome_of_mem_guardedBlocks hk₁
      refine ih hj (fun w hw => hran w (List.mem_cons_of_mem v hw)) (fun w hw => hac w (List.mem_cons_of_mem v hw))
        p (Nat.lt_add_right _ hp) g ?_ (by rwa [hround.stands_guard hk₁]) k₁ (by rwa [hround.guardedBlocks hsome])
        (hround.below hback)
      show (b.slotsOf k)[p]? = some g
      obtain ⟨N, hN⟩ := hdisp.puts hat hrec hacv
      obtain ⟨A, B, hAB, hA⟩ := hat.split
      have hpA : p < A.length := by rwa [hA, start]
      rw [hquiet.slotsOf, hN.slots hAB hA, List.append_assoc, List.getElem?_append_left hpA, ← hg, ← hbody, hAB,
        List.getElem?_append_left hpA]
    · obtain rfl := Option.some.inj (hs.symm.trans hg)
      obtain ⟨c, hc, rfl⟩ := hdisp.exists_call (hbody ▸ hk₁)
      have hstart := hbody ▸ (hdisp.calls_advance hrec hc).1
      exact hdisp.not_below hat hrec hc (hacv c hc) (hstart.below hback)

namespace Sweep

/-- A call that ends is for a block that does not lie below itself. -/
theorem Records.acyclic (h : c.Records cx) : c.Acyclic := by
  induction h with
  | @mk c n hn rounds dispatches calls ih =>
    intro hcycle
    obtain ⟨k₁, ⟨g, hg, hk₁⟩, hback⟩ := TransGen.head'_iff.1 hcycle
    obtain ⟨hslot, hst⟩ := mem_live.1 hg
    obtain ⟨p, hp, rfl⟩ := List.mem_iff_getElem.1 hslot
    rw [← eq_length_of_slotCount hn] at hp
    exact rounds.not_below rfl (fun v hv => ⟨dispatches v hv, calls v hv⟩) ih p hp _
      (List.getElem?_eq_getElem _) hst k₁ hk₁ hback

theorem Records.puts (h : c.Records cx) {v : Visit Sweep} (hv : v ∈ c.visits) : ∃ N, v.Puts c.block N :=
  (h.dispatches v hv).puts (h.at v hv) (h.calls v hv) fun c' hc' => (h.calls v hv c' hc').acyclic

/-- No call below is for the same block. -/
theorem Records.block_ne (h : c.Records cx) {v : Visit Sweep} (hv : v ∈ c.visits) {c₁ : Sweep} (hc₁ : c₁ ∈ v.calls)
    {c' : Sweep} (hc' : c' ∈ c₁.all) : c'.block ≠ c.block := by
  intro he
  have hrec := h.calls v hv c₁ hc₁
  have hblk : (c₁.start.builder.body.block? c.block).isSome :=
    ((h.dispatches v hv).calls_advance (h.calls v hv) hc₁).1.block (h.at v hv).isSome_block
  refine (h.dispatches v hv).not_below (h.at v hv) (h.calls v hv) hc₁ hrec.acyclic ?_
  exact hrec.advances.below_back (he ▸ hrec.reaches c' hc') hblk

end Sweep

end Lower

end Scalarize
