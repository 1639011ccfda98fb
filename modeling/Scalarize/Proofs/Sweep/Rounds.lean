import Scalarize.Proofs.Sweep.Step
import Scalarize.Proofs.Worklist

/-!
# What a walk over a block did

* `Lower.Visit`, `Lower.Sweep` : the record of one dispatch, and of one call that lowers a block, with the calls for the
  blocks of its guards; `Sweep.all` : a call with all calls below it;
* `Lower.Rounds` : the rounds of the cursor, from the last slot down, and back up over what was made;
* `Visit.Dispatches`, `Sweep.Records` : the record agrees with what lowering does; `Records.unique` : no other does;
* `Lower.exists_records` : every call that lowers a block has a record.
-/

namespace Scalarize

open Body

namespace Lower

/-- The dispatch of one operation. -/
structure Visit (α : Type) where
  op : OpId
  /-- Right before it, with the point in front of the operation. -/
  start : LowerState
  /-- Right after it. -/
  stop : LowerState
  /-- The answer. -/
  replaced : Bool
  /-- The calls for the blocks that the operation guards. -/
  calls : List α

/-- A call that lowers a block. -/
structure Sweep where
  block : BlockId
  start : LowerState
  visits : List (Visit Sweep)
  stop : LowerState

/-- What the dispatch made in a block, in the order of its slots. -/
def Visit.made {α : Type} (v : Visit α) (k : BlockId) : List OpId :=
  (v.stop.builder.body.slotsOf k).filter fun x => (v.start.builder.body.op? x).isNone

namespace Sweep

variable {c c' : Sweep} {v : Visit Sweep}

theorem sizeOf_lt (hv : v ∈ c.visits) (hc : c' ∈ v.calls) : sizeOf c' < sizeOf c := by
  have hvisit := List.sizeOf_lt_of_mem hv
  have hcall := List.sizeOf_lt_of_mem hc
  cases c
  cases v
  simp only [mk.sizeOf_spec, Visit.mk.sizeOf_spec] at *
  omega

/-- The call and all calls below it, in the order in which they end. -/
def all (c : Sweep) : List Sweep :=
  (c.visits.attach.flatMap fun v => v.1.calls.attach.flatMap fun c' => c'.1.all) ++ [c]
termination_by sizeOf c
decreasing_by exact sizeOf_lt v.2 c'.2

theorem all_eq (c : Sweep) : c.all = (c.visits.flatMap fun v => v.calls.flatMap all) ++ [c] := by
  rw [all]
  simp

theorem mem_all : c' ∈ c.all ↔ c' = c ∨ ∃ v ∈ c.visits, ∃ c₁ ∈ v.calls, c' ∈ c₁.all := by
  rw [all_eq]
  simp [or_comm]

theorem self_mem_all (c : Sweep) : c ∈ c.all := mem_all.2 (.inl rfl)

theorem mem_all_of_call (hv : v ∈ c.visits) {c₁ : Sweep} (hc : c₁ ∈ v.calls) (h : c' ∈ c₁.all) : c' ∈ c.all :=
  mem_all.2 (.inr ⟨v, hv, c₁, hc, h⟩)

end Sweep

/-! ## Rounds -/

variable {α : Type} {cx : Context} {k : BlockId} {i j l : Nat} {t t' t'' : LowerState}

/-- The body once an operation was dispatched: it is erased if the answer was `true`. -/
def Visit.Leaves (v : Visit α) (b : Body) : Prop :=
  if v.replaced then v.stop.builder.body.eraseOp v.op = .ok b else b = v.stop.builder.body

/-- Rounds lead the cursor of a block from `i` to `j`. The cursor passes over erased operations. From any other it
goes on in front of what the dispatch has put in front of the operation; the point is where it was. -/
inductive Rounds (k : BlockId) : Nat → LowerState → List (Visit α) → Nat → LowerState → Prop
  | done {i : Nat} {t : LowerState} : Rounds k i t [] i t
  | skip {i j : Nat} {t t' : LowerState} {V : List (Visit α)} {o : OpId} {op : Operation}
      (hs : (t.builder.body.slotsOf k)[i]? = some o) (hop : t.builder.body.op? o = some op) (he : op.erased = true)
      (rest : Rounds k i t V j t') : Rounds k (i + 1) t V j t'
  | visit {i j : Nat} {t t' : LowerState} {v : Visit α} {V : List (Visit α)} {op : Operation} {b : Body}
      (hs : (t.builder.body.slotsOf k)[i]? = some v.op) (hop : t.builder.body.op? v.op = some op)
      (he : op.erased = false) (start : v.start = ⟨⟨t.builder.body, ⟨k, i⟩⟩, t.symbols⟩) (leave : v.Leaves b)
      (rest : Rounds k (i + ((v.stop.builder.body.slotsOf k).length - (t.builder.body.slotsOf k).length))
        ⟨⟨b, t.builder.point⟩, v.stop.symbols⟩ V j t') :
      Rounds k (i + 1) t (v :: V) j t'

theorem Rounds.trans {V V' : List (Visit α)} (h : Rounds k i t V j t') (h' : Rounds k j t' V' l t'') :
    Rounds k i t (V ++ V') l t'' := by
  induction h with
  | done => exact h'
  | skip hs hop he _ ih => exact .skip hs hop he (ih h')
  | visit hs hop he start leave _ ih => exact .visit hs hop he start leave (ih h')

/-- The point is where it was. -/
theorem Rounds.point {V : List (Visit α)} (h : Rounds k i t V j t') : t'.builder.point = t.builder.point := by
  induction h with
  | done => rfl
  | skip _ _ _ _ ih => exact ih
  | visit _ _ _ _ _ _ ih => exact ih

/-! ## Records -/

/-- One call after the other. -/
inductive Follows : LowerState → List Sweep → LowerState → Prop
  | nil {t : LowerState} : Follows t [] t
  | cons {c : Sweep} {cs : List Sweep} {t : LowerState} (h : Follows c.stop cs t) : Follows c.start (c :: cs) t

theorem Follows.concat {cs : List Sweep} {c : Sweep} (h : Follows t cs c.start) : Follows t (cs ++ [c]) c.stop := by
  generalize hs : c.start = s at h
  induction h with
  | nil => exact hs ▸ .cons .nil
  | cons _ ih => exact .cons (ih hs)

/-- The dispatch is what lowering does: an operation that guards nothing is lowered by one layer; the blocks of a guard
are lowered one after the other, and the answer is `false`. -/
inductive Visit.Dispatches (cx : Context) (v : Visit Sweep) : Prop
  | plain {op : Operation} (hop : v.start.builder.body.op? v.op = some op) (hk : op.kind.blocks = [])
      (hc : v.calls = []) (run : (step cx v.op op.kind).run v.start = .ok (v.replaced, v.stop))
  | guard {op : Operation} (hop : v.start.builder.body.op? v.op = some op) (hk : op.kind.blocks ≠ [])
      (kept : v.replaced = false) (blocks : v.calls.map (·.block) = op.kind.blocks)
      (run : Follows v.start v.calls v.stop)

/-- The record of a call agrees with what lowering does, and so do those of all calls below. -/
inductive Sweep.Records (cx : Context) : Sweep → Prop
  | mk {c : Sweep} {n : Nat} (hn : c.start.builder.body.slotCount c.block = .ok n)
      (rounds : Rounds c.block n c.start c.visits 0 c.stop) (dispatches : ∀ v ∈ c.visits, v.Dispatches cx)
      (calls : ∀ v ∈ c.visits, ∀ c' ∈ v.calls, c'.Records cx) : c.Records cx

theorem Sweep.Records.of_mem_all {c c' : Sweep} (h : c.Records cx) (hc : c' ∈ c.all) : c'.Records cx := by
  induction h with
  | mk hn rounds dispatches calls ih =>
    rcases Sweep.mem_all.1 hc with rfl | ⟨v, hv, c₁, hc₁, hc⟩
    · exact .mk hn rounds dispatches calls
    · exact ih v hv c₁ hc₁ hc

/-! ## A call has one record -/

theorem Visit.Leaves.unique {v : Visit α} {b b' : Body} (h : v.Leaves b) (h' : v.Leaves b') : b' = b := by
  unfold Visit.Leaves at h h'
  split at h
  next hr =>
    rw [if_pos hr] at h'
    exact Except.ok.inj (h'.symm.trans h)
  next hr =>
    rw [if_neg hr] at h'
    exact h'.trans h.symm

theorem Rounds.unique {V V' : List (Visit α)} (h : Rounds k i t V j t') (hj : j = 0) (h' : Rounds k i t V' 0 t'')
    (hone : ∀ v ∈ V, ∀ v' ∈ V', v'.op = v.op → v'.start = v.start → v' = v) : V' = V ∧ t'' = t' := by
  induction h generalizing V' with
  | done =>
    subst hj
    cases h'
    exact ⟨rfl, rfl⟩
  | skip hs hop he _ ih =>
    cases h' with
    | skip _ _ _ rest' => exact ih hj rest' hone
    | visit hs' hop' he' _ _ _ =>
      obtain rfl := Option.some.inj (hs.symm.trans hs')
      obtain rfl := Option.some.inj (hop.symm.trans hop')
      rw [he] at he'
      cases he'
  | @visit i j t t' v V op b hs hop he start leave rest ih =>
    cases h' with
    | skip hs' hop' he' _ =>
      obtain rfl := Option.some.inj (hs.symm.trans hs')
      obtain rfl := Option.some.inj (hop.symm.trans hop')
      rw [he] at he'
      cases he'
    | @visit _ _ _ _ v' V' _ _ hs' _ _ start' leave' rest' =>
      obtain rfl := hone v List.mem_cons_self v' List.mem_cons_self (Option.some.inj (hs'.symm.trans hs))
        (start'.trans start.symm)
      obtain rfl := leave.unique leave'
      obtain ⟨rfl, rfl⟩ := ih hj rest' fun w hw w' hw' =>
        hone w (List.mem_cons_of_mem _ hw) w' (List.mem_cons_of_mem _ hw')
      exact ⟨rfl, rfl⟩

theorem Follows.of_cons {cs : List Sweep} {c : Sweep} (h : Follows t (c :: cs) t') :
    c.start = t ∧ Follows c.stop cs t' := by
  generalize hL : c :: cs = L at h
  cases h with
  | nil => cases hL
  | cons h =>
    obtain ⟨rfl, rfl⟩ := List.cons_eq_cons.1 hL
    exact ⟨rfl, h⟩

theorem Follows.unique {cs cs' : List Sweep} (h : Follows t cs t') (h' : Follows t cs' t'')
    (hblocks : cs'.map (·.block) = cs.map (·.block))
    (hone : ∀ c ∈ cs, ∀ c' ∈ cs', c'.block = c.block → c'.start = c.start → c' = c) : cs' = cs ∧ t'' = t' := by
  induction h generalizing cs' with
  | nil =>
    obtain rfl := List.map_eq_nil_iff.1 hblocks
    cases h'
    exact ⟨rfl, rfl⟩
  | @cons c cs t _ ih =>
    obtain ⟨c', cs', rfl, hblock, hmap⟩ := List.map_eq_cons_iff.1 hblocks
    obtain ⟨hstart, hrest⟩ := h'.of_cons
    obtain rfl := hone c List.mem_cons_self c' List.mem_cons_self hblock hstart
    obtain ⟨rfl, rfl⟩ := ih hrest hmap fun c₁ hc₁ c₂ hc₂ =>
      hone c₁ (List.mem_cons_of_mem _ hc₁) c₂ (List.mem_cons_of_mem _ hc₂)
    exact ⟨rfl, rfl⟩

theorem Visit.Dispatches.unique {v v' : Visit Sweep} (h : v.Dispatches cx) (h' : v'.Dispatches cx) (hop : v'.op = v.op)
    (hstart : v'.start = v.start)
    (hone : ∀ c ∈ v.calls, ∀ c' ∈ v'.calls, c'.block = c.block → c'.start = c.start → c' = c) : v' = v := by
  obtain ⟨o, t, t', r, cs⟩ := v
  obtain ⟨o', s, s', r', cs'⟩ := v'
  obtain rfl : o' = o := hop
  obtain rfl : s = t := hstart
  cases h with
  | plain hop hk hc run =>
    cases h' with
    | guard hop' hk' _ _ _ =>
      obtain rfl := Option.some.inj (hop.symm.trans hop')
      exact absurd hk hk'
    | plain hop' _ hc' run' =>
      obtain rfl := Option.some.inj (hop.symm.trans hop')
      obtain ⟨rfl, rfl⟩ := Prod.mk.inj (Except.ok.inj (run.symm.trans run'))
      obtain rfl : cs = [] := hc
      obtain rfl : cs' = [] := hc'
      rfl
  | guard hop hk kept blocks run =>
    cases h' with
    | plain hop' hk' _ _ =>
      obtain rfl := Option.some.inj (hop.symm.trans hop')
      exact absurd hk' hk
    | guard hop' _ kept' blocks' run' =>
      obtain rfl := Option.some.inj (hop.symm.trans hop')
      obtain ⟨rfl, rfl⟩ := run.unique run' (blocks'.trans blocks.symm) hone
      obtain rfl : r = false := kept
      obtain rfl : r' = false := kept'
      rfl

/-- What lowering does decides the record. -/
theorem Sweep.Records.unique {c c' : Sweep} (h : c.Records cx) (h' : c'.Records cx) (hblock : c'.block = c.block)
    (hstart : c'.start = c.start) : c' = c := by
  induction h generalizing c' with
  | @mk c n hn rounds dispatches _ ih =>
    cases h' with
    | mk hn' rounds' dispatches' calls' =>
      obtain ⟨k, t, V, s⟩ := c
      obtain ⟨k', t', V', s'⟩ := c'
      obtain rfl : k' = k := hblock
      obtain rfl : t' = t := hstart
      obtain rfl := Except.ok.inj (hn.symm.trans hn')
      obtain ⟨rfl, rfl⟩ := rounds.unique rfl rounds' fun v hv v' hv' hop hs =>
        (dispatches v hv).unique (dispatches' v' hv') hop hs fun c₁ hc₁ c₂ hc₂ =>
          ih v hv c₁ hc₁ (calls' v' hv' c₂ hc₂)
      rfl

/-! ## Every call has a record -/

/-- The visits agree with what lowering does. -/
def Ran (cx : Context) (V : List (Visit Sweep)) : Prop :=
  ∀ v ∈ V, v.Dispatches cx ∧ ∀ c ∈ v.calls, c.Records cx

theorem Ran.nil : Ran cx [] := nofun

theorem Ran.append {V V' : List (Visit Sweep)} (h : Ran cx V) (h' : Ran cx V') : Ran cx (V ++ V') := fun v hv =>
  (List.mem_append.1 hv).elim (h v) (h' v)

theorem Ran.cons {v : Visit Sweep} {V : List (Visit Sweep)} (hv : v.Dispatches cx) (hc : ∀ c ∈ v.calls, c.Records cx)
    (h : Ran cx V) : Ran cx (v :: V) := fun w hw => by
  rcases List.mem_cons.1 hw with rfl | hw
  · exact ⟨hv, hc⟩
  · exact h w hw

theorem eachSlot_rounds {f : BlockId → Nat → Lower Unit}
    (hf : ∀ i t, Runs False (f k i) t fun _ t' => ∃ V, Rounds k (i + 1) t V i t' ∧ Ran cx V) (i n : Nat)
    (t : LowerState) : Runs False (eachSlot f k i n) t fun _ t' => ∃ V, Rounds k (i + n) t V i t' ∧ Ran cx V := by
  induction n generalizing t with
  | zero => exact .pure ⟨[], .done, .nil⟩
  | succ n ih =>
    rw [Stages.eachSlot_succ]
    refine (hf (i + n) t).bind fun _ t₁ ⟨V, hV, hran⟩ => ?_
    exact (ih t₁).mono fun _ t₂ ⟨V', hV', hran'⟩ => ⟨V ++ V', hV.trans hV', hran.append hran'⟩

theorem eq_length_of_slotCount {b : Body} {n : Nat} (h : b.slotCount k = .ok n) : n = (b.slotsOf k).length :=
  (slotCount_ends (Q := (· = (b.slotsOf k).length)) (fun blk hblk => by rw [slotsOf_eq hblk])
    (nofun : False → _)).of_ok h

/-- Only a slot that is there is read. -/
theorem getElem?_of_slot {b : Body} {o : OpId} (h : (do orOutOfRange (← b.block k).slots[i]?) = .ok o) :
    (b.slotsOf k)[i]? = some o := by
  rw [block_eq] at h
  cases hblk : b.block? k with
  | none => rw [hblk] at h; cases h
  | some blk =>
    rw [hblk] at h
    change orOutOfRange blk.slots[i]? = .ok o at h
    rw [slotsOf_eq hblk]
    cases ho : blk.slots[i]? with
    | none => rw [ho] at h; cases h
    | some o' => rw [ho] at h; exact congrArg some (Except.ok.inj h)

/-- What lies around a slot. -/
theorem exists_around {l : List OpId} {o : OpId} (h : l[i]? = some o) : ∃ A B, l = A ++ o :: B ∧ A.length = i := by
  obtain ⟨hi, ho⟩ := List.getElem?_eq_some_iff.1 h
  exact ⟨l.take i, l.drop (i + 1), by rw [← ho, List.getElem_cons_drop, List.take_append_drop],
    List.length_take_of_le (Nat.le_of_lt hi)⟩

theorem op?_of_op {b : Body} {o : OpId} {op : Operation} (h : b.op o = .ok op) : b.op? o = some op :=
  (op_ends (fun _ h => h) (nofun : False → _)).of_ok h

/-- A plain operation is dispatched. -/
theorem layer_dispatches {o : OpId} {op : Operation} (hop : t.builder.body.op? o = some op) (hk : op.kind.blocks = []) :
    Runs False (layer cx o op.kind k i) t fun n t' => ∃ (v : Visit Sweep) (b : Body), v.op = o ∧
      v.start = ⟨⟨t.builder.body, ⟨k, i⟩⟩, t.symbols⟩ ∧ v.Dispatches cx ∧ v.calls = [] ∧ v.Leaves b ∧
      n = (v.stop.builder.body.slotsOf k).length - (t.builder.body.slotsOf k).length ∧
      t' = ⟨⟨b, t.builder.point⟩, v.stop.symbols⟩ := by
  unfold layer
  refine .bind_point (.bind_any fun before hbefore => .bind_moveTo ?_)
  refine (Runs.with_ok (Q := fun _ _ => True) (.intro (fun _ _ => trivial) nofun)).bind fun r t₁ ⟨hrun, _⟩ => ?_
  refine .bind_moveTo (.bind_any fun after hafter => ?_)
  obtain rfl := eq_length_of_slotCount hbefore
  obtain rfl := eq_length_of_slotCount hafter
  let v : Visit Sweep := ⟨o, ⟨⟨t.builder.body, ⟨k, i⟩⟩, t.symbols⟩, t₁, r, []⟩
  have hv : v.Dispatches cx := .plain hop hk rfl hrun
  cases r with
  | false => exact .pure ⟨v, t₁.builder.body, rfl, rfl, hv, rfl, rfl, rfl, rfl⟩
  | true =>
    exact .bind_change (P := fun b => t₁.builder.body.eraseOp o = .ok b) (.intro (fun _ h => h) nofun) fun b hb =>
      .pure ⟨v, b, rfl, rfl, hv, rfl, hb, rfl, rfl⟩

/-- The blocks of a guard are lowered one after the other. -/
theorem calls_run {blocks : List BlockId} {f : BlockId → Lower Unit}
    (hf : ∀ k t, Runs False (f k) t fun _ t' => ∃ c : Sweep, c.block = k ∧ c.start = t ∧ c.stop = t' ∧ c.Records cx) :
    Runs False (blocks.forM f) t fun _ t' => ∃ cs, cs.map Sweep.block = blocks ∧ Follows t cs t' ∧
      ∀ c ∈ cs, c.Records cx := by
  refine Runs.forM (fun done t' => ∃ cs, cs.map Sweep.block = done ∧ Follows t cs t' ∧ ∀ c ∈ cs, c.Records cx) blocks
    ⟨[], rfl, .nil, nofun⟩ fun done k rest t₁ _ ⟨cs, hblocks, hfollows, hrec⟩ => (hf k t₁).mono ?_
  rintro _ t₂ ⟨c, rfl, rfl, rfl, hc⟩
  refine ⟨cs ++ [c], by simp [hblocks], hfollows.concat, fun c' hc' => ?_⟩
  rcases List.mem_append.1 hc' with hc' | hc'
  · exact hrec c' hc'
  · exact List.mem_singleton.1 hc' ▸ hc

/-- The rounds over the slots of a block make a record of it. -/
theorem block_runs {f : BlockId → Nat → Lower Unit}
    (hf : ∀ k i t, Runs False (f k i) t fun _ t' => ∃ V, Rounds k (i + 1) t V i t' ∧ Ran cx V) (k : BlockId)
    (t : LowerState) : Runs False (do eachSlot f k 0 (← body (·.slotCount k))) t fun _ t' =>
      ∃ c : Sweep, c.block = k ∧ c.start = t ∧ c.stop = t' ∧ c.Records cx := by
  refine .bind_any fun n hn => (eachSlot_rounds (hf k) 0 n t).mono fun _ t' ⟨V, hV, hran⟩ => ?_
  rw [Nat.zero_add] at hV
  exact ⟨⟨k, t, V, t'⟩, rfl, rfl, rfl, .mk hn hV (fun v hv => (hran v hv).1) fun v hv => (hran v hv).2⟩

/-- One slot is one round, and those for what was made in front of it. -/
theorem lowerOp_rounds (cx : Context) (fuel : Nat) : ∀ k i t, Runs False (lowerOp cx fuel k i) t fun _ t' =>
    ∃ V, Rounds k (i + 1) t V i t' ∧ Ran cx V := by
  induction fuel with
  | zero => exact fun _ _ _ => .throw id
  | succ fuel ih =>
    intro k i t
    cases hs : (t.builder.body.slotsOf k)[i]? with
    | none =>
      rw [lowerOp, slot]
      refine .bind_any fun o ho => ?_
      rw [getElem?_of_slot ho] at hs
      cases hs
    | some o =>
      obtain ⟨A, B, hsplit, rfl⟩ := exists_around hs
      cases hop : t.builder.body.op? o with
      | none =>
        rw [lowerOp, slot]
        refine .bind_any fun o' ho' => .bind_any fun op hop' => ?_
        obtain rfl := Option.some.inj (hs.symm.trans (getElem?_of_slot ho'))
        rw [op?_of_op hop'] at hop
        cases hop
      | some op =>
        cases he : op.erased with
        | true => exact Ends.of_eq_ok (lowerOp_erased hsplit hop he) ⟨[], .skip hs hop he .done, .nil⟩
        | false =>
          by_cases hk : op.kind.blocks = []
          · refine .of_run_eq (lowerOp_plain hsplit hop he hk) ((layer_dispatches hop hk).bind ?_)
            rintro _ _ ⟨v, b, rfl, hstart, hv, hc, hleave, rfl, rfl⟩
            refine (eachSlot_rounds (ih k) A.length _ _).mono ?_
            rintro _ t' ⟨V, hV, hran⟩
            exact ⟨v :: V, .visit hs hop he hstart hleave hV, hran.cons hv (by simp [hc])⟩
          · refine .of_run_eq (lowerOp_guard hsplit hop he hk) (.bind_moveTo ?_)
            refine (calls_run (block_runs ih)).bind ?_
            rintro _ t₁ ⟨cs, hblocks, hfollows, hrec⟩
            refine .bind_moveTo (.bind_any fun after hafter => ?_)
            obtain rfl := eq_length_of_slotCount hafter
            let v : Visit Sweep := ⟨o, ⟨⟨t.builder.body, ⟨k, A.length⟩⟩, t.symbols⟩, t₁, false, cs⟩
            rw [← hsplit]
            refine (eachSlot_rounds (ih k) A.length _ _).mono ?_
            rintro _ t' ⟨V, hV, hran⟩
            exact ⟨v :: V, .visit hs hop he rfl rfl hV, hran.cons (.guard hop hk rfl hblocks hfollows) hrec⟩

/-- Every call that lowers a block has a record. -/
theorem exists_records {fuel : Nat} (h : (lowerBlock cx fuel k).run t = .ok ((), t')) :
    ∃ c : Sweep, c.block = k ∧ c.start = t ∧ c.stop = t' ∧ c.Records cx :=
  (block_runs (lowerOp_rounds cx fuel) k t).of_ok h

end Lower

end Scalarize
