import Scalarize.Lower.Circuit
import Scalarize.Proofs.Frame
import Scalarize.Proofs.Gauge.Rounds
import Scalarize.Proofs.Gauge.Start
import Scalarize.Proofs.PortLoop
import Scalarize.Proofs.Reachable

/-!
# Lowering ends

* `Lower.next_keeps` : every round of the worklist keeps the body within a gauge;
* `Body.Gauged.accessChain_eq` : within a gauge, a path of accessors has no more of them than there are
  operations;
* `Body.rounds`, `Module.rounds` : rounds that a body or a module takes, at most;
* `Module.lowerWithin` : lowers a module by its two loops, in no more than a number of rounds;
* `Module.lowerWithin_eq` : that many rounds are enough.
-/

namespace Scalarize

open Body Lower

/-! ## Rounds within a gauge -/

namespace Lower

variable {cx : Context} {L : Limits} {t : LowerState}

/-- The body is within some gauge. -/
def Measured (cx : Context) (L : Limits) (t : LowerState) : Prop := ∃ G : Gauge, t.builder.body.Gauged cx L G

theorem layer_keeps {o : OpId} {op : Operation} {k : BlockId} {i : Nat} {blk : Block} (h : Measured cx L t)
    (hop : t.builder.body.op? o = some op) (hblk : t.builder.body.block? k = some blk) (ho : o ∈ blk.slots) :
    Runs False (layer cx o op.kind k i) t fun _ t' => Measured cx L t' := by
  obtain ⟨G, hG⟩ := h
  refine Runs.bind_point (Runs.bind_any fun before _ => Runs.bind_moveTo ?_)
  have hstep : Runs False (step cx o op.kind) ⟨⟨t.builder.body, ⟨k, i⟩⟩, t.symbols⟩ fun _ t' => Measured cx L t' := by
    refine (Builder.Site.step_runs (t := ⟨⟨t.builder.body, ⟨k, i⟩⟩, t.symbols⟩)
      (fun n hn => .of_slot hG hblk ho (by omega)) hop (hG.fits hop)).mono ?_
    rintro replaced t' (⟨-, rfl⟩ | ⟨n, G', -, hl⟩)
    · exact ⟨G, hG⟩
    · exact ⟨G', hl.gauged⟩
  refine hstep.bind fun replaced t' ⟨G', hG'⟩ => Runs.bind_moveTo (Runs.bind_any fun after _ => ?_)
  cases replaced with
  | false => exact .pure ⟨G', hG'⟩
  | true =>
    exact Runs.bind_change (eraseOp_keeps (fun hb hd => hb.dropped rfl hd) hG') fun b' hb' => .pure ⟨G', hb'⟩

/-- Every round keeps the body within a gauge, whatever is left to be done. -/
theorem next_keeps (h : Measured cx L t) (task : Task) :
    Runs False (task.next cx) t fun _ t' => Measured cx L t' := by
  cases task with
  | block k => exact Runs.bind_any fun _ _ => .pure h
  | resume k i before saved => exact Runs.bind_moveTo (Runs.bind_any fun _ _ => .pure h)
  | slots k i =>
    cases i with
    | zero => exact .pure h
    | succ i =>
      have hslot : Ends False (do orOutOfRange (← t.builder.body.block k).slots[i]?)
          fun o => ∃ blk, t.builder.body.block? k = some blk ∧ o ∈ blk.slots := by
        rw [block_eq]
        refine Ends.bind (P := fun blk => t.builder.body.block? k = some blk) (.orOutOfRange (fun _ h => h) nofun)
          fun blk hblk => .orOutOfRange (fun o ho => ⟨blk, hblk, List.mem_of_getElem? ho⟩) nofun
      refine Runs.bind_body hslot fun o ⟨blk, hblk, ho⟩ => ?_
      refine Runs.bind_body (op_ends (Q := fun op => t.builder.body.op? o = some op) (fun _ hop => hop) nofun) fun op hop => ?_
      split
      next => exact .pure h
      next =>
        split
        next => exact Runs.bind_point (Runs.bind_any fun _ _ => Runs.bind_moveTo (.pure h))
        next => exact (layer_keeps h hop hblk ho).bind fun _ _ h' => .pure h'

/-- So does any number of rounds. -/
theorem work_keeps (h : Measured cx L t) (n : Nat) (tasks : List Task) :
    Runs False (work cx n tasks) t fun _ t' => Measured cx L t' := by
  induction n generalizing t tasks with
  | zero => cases tasks <;> exact .pure h
  | succ n ih =>
    cases tasks with
    | nil => exact .pure h
    | cons task tasks => exact (next_keeps h task).bind fun left t' h' => ih h' _

end Lower

/-! ## Paths of accessors -/

namespace Body.Gauged

variable {cx : Context} {L : Limits} {G : Gauge} {b : Body} {v : ValueId}

open Classical in
/-- Accessors with results behind which no more accessors stand than behind the value. -/
noncomputable def accessors (b : Body) (G : Gauge) (v : ValueId) : Finset Nat :=
  (Finset.range b.ops.size).filter fun i => ∃ op, b.op? ⟨i⟩ = some op ∧ op.kind.isAccessor = true ∧
    ∃ r ∈ op.results, (G.extent r).chain ≤ (G.extent v).chain

theorem accessChain_of_argument (hv : b.origin? v = some .argument) (fuel : Nat) :
    b.accessChain (fuel + 1) v = .ok [] := by
  have hdefiner : Ends True (b.definer v) (· = none) :=
    definer_ends (fun _ => rfl) (fun d i hd => by rw [hv] at hd; cases hd) fun _ => by
      obtain ⟨x, hx, -⟩ := origin?_eq_some_iff.1 hv
      rw [hx]
      rfl
  obtain ⟨_, he, rfl⟩ := hdefiner.exists_ok trivial
  rw [accessChain, he]
  rfl

theorem accessChain_of_result {d : OpId} {op : Operation} {i : Nat} (hv : b.origin? v = some (.result d i))
    (hop : b.op? d = some op) (fuel : Nat) : b.accessChain (fuel + 1) v =
      if op.kind.isAccessor then do return d :: (← b.accessChain fuel (← b.operand d 0)) else .ok [] := by
  have hdefiner : Ends True (b.definer v) (· = some d) :=
    definer_ends (fun hd => by rw [hv] at hd; cases hd)
      (fun d' i' hd => by rw [hv] at hd; cases hd; rfl) fun _ => by
      obtain ⟨x, hx, -⟩ := origin?_eq_some_iff.1 hv
      rw [hx]
      rfl
  have hkind : Ends True (b.kindOf d) (· = op.kind) :=
    kindOf_ends (fun op' hop' => by rw [Option.some.inj (hop.symm.trans hop')]) fun _ => by rw [hop]; rfl
  obtain ⟨_, he, rfl⟩ := hdefiner.exists_ok trivial
  obtain ⟨_, hk, rfl⟩ := hkind.exists_ok trivial
  rw [accessChain, he]
  show (b.kindOf d >>= fun kind => if kind.isAccessor then _ else _) = _
  rw [hk]
  rfl

/-- The accessors behind what an accessor reads are accessors behind its result, without itself. -/
theorem accessors_ssubset (h : b.Gauged cx L G) {d : OpId} {op : Operation} {u : ValueId}
    (hop : b.op? d = some op) (hacc : op.kind.isAccessor = true) (hu : op.operands[0]? = some u)
    (hv : v ∈ op.results) : accessors b G u ⊂ accessors b G v := by
  classical
  have hreads := (h.reads hop hacc hu hv).chain
  refine (Finset.ssubset_iff_of_subset fun i hi => ?_).2 ⟨d.index, ?_, fun hd => ?_⟩
  · obtain ⟨hi, op', hop', hacc', r, hr, hle⟩ := Finset.mem_filter.1 hi
    exact Finset.mem_filter.2 ⟨hi, op', hop', hacc', r, hr, by omega⟩
  · exact Finset.mem_filter.2 ⟨Finset.mem_range.2 (lt_of_op? hop), op, hop, hacc, v, hv, Nat.le_refl _⟩
  · obtain ⟨-, op', hop', -, r, hr, hle⟩ := Finset.mem_filter.1 hd
    obtain rfl := Option.some.inj (hop.symm.trans hop')
    have := (h.reads hop hacc hu hr).chain
    omega

/-- More fuel than there are accessors behind a value changes nothing. -/
theorem accessChain_stable (h : b.Gauged cx L G) (n : Nat) : ∀ {v : ValueId}, (b.value? v).isSome →
    (accessors b G v).card ≤ n → ∀ fuel, n ≤ fuel → b.accessChain fuel v = b.accessChain n v := by
  induction n with
  | zero =>
    intro v hv hc fuel _
    cases fuel with
    | zero => rfl
    | succ fuel =>
      obtain ⟨x, hx⟩ := Option.isSome_iff_exists.1 hv
      cases horigin : x.origin with
      | argument => exact accessChain_of_argument (origin?_eq_some_iff.2 ⟨x, hx, horigin⟩) fuel
      | result d i =>
        have hv' := origin?_eq_some_iff.2 ⟨x, hx, horigin⟩
        obtain ⟨op, hop, hres⟩ := h.coherent.origin hv'
        rw [accessChain_of_result hv' hop, if_neg]
        · rfl
        · intro hacc
          have hmem : d.index ∈ accessors b G v := Finset.mem_filter.2
            ⟨Finset.mem_range.2 (lt_of_op? hop), op, hop, hacc, v, List.mem_of_getElem? hres, Nat.le_refl _⟩
          exact absurd (Finset.card_pos.2 ⟨_, hmem⟩) (by omega)
  | succ n ih =>
    intro v hv hc fuel hn
    obtain ⟨fuel, rfl⟩ : ∃ f, fuel = f + 1 := ⟨fuel - 1, by omega⟩
    obtain ⟨x, hx⟩ := Option.isSome_iff_exists.1 hv
    cases horigin : x.origin with
    | argument =>
      have hv' := origin?_eq_some_iff.2 ⟨x, hx, horigin⟩
      rw [accessChain_of_argument hv', accessChain_of_argument hv']
    | result d i =>
      have hv' := origin?_eq_some_iff.2 ⟨x, hx, horigin⟩
      obtain ⟨op, hop, hres⟩ := h.coherent.origin hv'
      rw [accessChain_of_result hv' hop, accessChain_of_result hv' hop]
      split
      next hacc =>
        have hoperand : Ends False (b.operand d 0) fun u => op.operands[0]? = some u :=
          operand_ends (fun op' u hop' hu => by rwa [Option.some.inj (hop.symm.trans hop')]) nofun
        cases hu : b.operand d 0 with
        | error e => rfl
        | ok u =>
          have hu' := hoperand.of_ok hu
          have hlt := Finset.card_lt_card (h.accessors_ssubset hop hacc hu' (List.mem_of_getElem? hres))
          show (do return d :: (← b.accessChain fuel u)) = (do return d :: (← b.accessChain n u))
          rw [ih (isSome_value?.2 (h.coherent.operand hop (List.mem_of_getElem? hu'))) (by omega) fuel (by omega)]
      next => rfl

/-- As much fuel as there are operations is enough to follow the accessors behind a value to the end. -/
theorem accessChain_eq (h : b.Gauged cx L G) (hv : (b.value? v).isSome) {fuel : Nat} (hn : b.ops.size ≤ fuel) :
    b.accessChain fuel v = b.accessChain b.ops.size v := by
  refine h.accessChain_stable b.ops.size hv ?_ fuel hn
  calc (accessors b G v).card ≤ (Finset.range b.ops.size).card := Finset.card_filter_le _ _
    _ = b.ops.size := Finset.card_range _

end Body.Gauged

/-! ## Bodies -/

/-- Rounds that the worklist takes for a body, at most. -/
def Body.rounds (b : Body) : Nat := 6 * b.ops.size * (b.limits.made + 1) ^ b.loweringDepth + 2

/-- Every path of accessors ends within as many of them as there are operations. -/
def Body.PathsEnd (b : Body) : Prop :=
  ∀ v fuel, (b.value? v).isSome → b.ops.size ≤ fuel → b.accessChain fuel v = b.accessChain b.ops.size v

namespace Body.Acyclic

variable {b : Body}

/-- Operands that are there before the operations that read them leave no room for a cycle. -/
theorem of_lt (h : ∀ d x, b.Feeds d x → d.index < x.index) : b.Acyclic := by
  have hlt {d x : OpId} (hdx : Relation.TransGen b.Feeds d x) : d.index < x.index := by
    induction hdx with
    | single hdx => exact h _ _ hdx
    | tail _ hdx ih => exact Nat.lt_trans ih (h _ _ hdx)
  exact fun x hx => Nat.lt_irrefl _ (hlt hx)

/-- The worklist lowers the body as the recursion over its blocks does, whatever bounds that recursion. -/
theorem work_eq (h : b.Acyclic) (hb : b.Coherent) (cx : Context) (p : Point) (y : Symbols) {fuel n : Nat}
    (hfuel : b.loweringDepth ≤ fuel) (hn : b.rounds ≤ n) : (work cx n [.block Body.entry]).run ⟨⟨b, p⟩, y⟩ =
      (do lowerBlock cx fuel Body.entry; return true : Lower Bool).run ⟨⟨b, p⟩, y⟩ := by
  obtain ⟨G, hG, hrank⟩ := h.exists_gauged cx hb
  obtain ⟨M, hM⟩ := hb.exists_unfolds_slotsOf Body.entry
  obtain ⟨blk, hblk, -⟩ := hb.entry
  have hknown : ∀ x ∈ M, (b.op? x).isSome := hb.isSome_of_unfolds hM
  have hsize : M.length ≤ b.ops.size := by
    refine Gauge.length_le_of_range (m := 0) (hb.nodup_of_unfolds_entry hM) fun x hx => ⟨Nat.zero_le _, ?_⟩
    rw [Nat.zero_add]
    exact isSome_op?.1 (hknown x hx)
  refine work_eq_lowerBlock (t := ⟨⟨b, p⟩, y⟩) (L := b.limits) ⟨Tidy.start hb hM, G, hG, rfl⟩ (.inl rfl)
    (by rw [hblk]; rfl) hM (fun x _ => Nat.lt_of_lt_of_le (hrank x) hfuel) ?_
  have hrounds := Lower.rounds_le (L := b.limits) (M := M) fun x _ => Nat.le_of_lt (hrank x)
  have hmul := Nat.mul_le_mul_right (6 * (b.limits.made + 1) ^ b.loweringDepth) hsize
  have heq : b.ops.size * (6 * (b.limits.made + 1) ^ b.loweringDepth) =
      6 * b.ops.size * (b.limits.made + 1) ^ b.loweringDepth := by
    rw [← Nat.mul_assoc, Nat.mul_comm b.ops.size 6]
  unfold Body.rounds at hn
  omega

/-- After any number of rounds, paths of accessors end. -/
theorem work_pathsEnd (h : b.Acyclic) (hb : b.Coherent) (cx : Context) (p : Point) (y : Symbols) (n : Nat) :
    Runs False (work cx n [.block Body.entry]) ⟨⟨b, p⟩, y⟩ fun _ t => t.builder.body.PathsEnd := by
  obtain ⟨G, hG, -⟩ := h.exists_gauged cx hb
  refine (work_keeps (t := ⟨⟨b, p⟩, y⟩) ⟨G, hG⟩ n _).mono ?_
  rintro _ t ⟨G', hG'⟩ v fuel hv hfuel
  exact hG'.accessChain_eq hv hfuel

end Body.Acyclic

/-- A new operation reads what was there before it. -/
theorem Body.Created.feeds_lt {b b' : Body} {p : Point} {kind : OpKind} {vs : List ValueId} {tys : List Ty} {o : OpId}
    (hc : Created b p kind vs tys o b') (hb : b.Coherent) (h : ∀ d x, b.Feeds d x → d.index < x.index) :
    ∀ d x, b'.Feeds d x → d.index < x.index := by
  rintro d x ⟨v, i, ⟨op, hop, hv⟩, hd⟩
  have hold : v.index < b.values.size → b.origin? v = some (.result d i) := fun hlt => by
    rw [← hc.origin?_old hlt]
    exact hd
  rcases hc.op?_cases hop with hop | ⟨rfl, rfl⟩
  · exact h d x ⟨v, i, ⟨op, hop, hv⟩, hold (hb.operand hop hv)⟩
  · obtain ⟨opd, hopd, -⟩ := hb.origin (hold (hc.operands_lt v hv))
    rw [hc.id]
    exact lt_of_op? hopd

/-- Bodies that are made by typed building functions are acyclic: every operand is there when its operation is
made. -/
theorem Builder.Built.acyclic {types : List Ty} {s : Builder} (h : Builder.Built types s) : s.body.Acyclic := by
  refine .of_lt ?_
  induction h with
  | start p hports =>
    -- there are only arguments
    have hnone : Ends False (Body.ofPorts types) fun b => ∀ x, b.op? x = none :=
      Ends.foldlM (fun _ (b : Body) => ∀ x, b.op? x = none) types (fun _ => rfl) fun _ ty _ b _ hb =>
        .map ((insertArgument_ends (nofun : False → _)).mono fun r hr x => (hr.1.op? x).trans (hb x))
    rintro d x ⟨v, i, ⟨op, hop, -⟩, -⟩
    rw [hnone.of_ok hports x] at hop
    cases hop
  | call c hs hc ih =>
    rcases (Build.Call.run_ends c).of_ok hc with ⟨kind, vs, ins, tys, o, hmade, -⟩ | he
    · exact hmade.feeds_lt hs.sound.coherent ih
    · exact he ▸ ih

/-! ## Modules -/

/-- Rounds that either loop takes for a module, at most. -/
def Module.rounds (m : Module) : Nat := max (m.body.elim 0 Body.rounds) ((m.ports.map (·.ty.rounds)).sum + 1)

/-- No operation of the module is needed to compute its own operands. -/
def Module.Acyclic (m : Module) : Prop := ∀ b, m.body = some b → b.Acyclic

/-- Lowers a module by its two loops, each in no more than a number of rounds. Returns nothing if they do not
end by then. -/
def Module.lowerWithin (cx : Context) (n : Nat) (m : Module) (generated : Nat) :
    Except Failure (Option (Module × Symbols)) := do
  let symbols := Symbols.ofModule m generated
  let (ended, body, symbols) ← match m.body with
    | none => pure (true, none, symbols)
    | some b => do
      let end_ ← b.slotCount Body.entry
      let start : LowerState := ⟨⟨b, ⟨Body.entry, end_⟩⟩, symbols⟩
      let (ended, s) ← (Lower.work cx n [.block Body.entry]).run start
      pure (ended, some s.builder.body, s.symbols)
  if ended then
    let keep := cx.options.portsMayPreserve m.entry
    let (ports?, s) ← (Lower.portLoop keep n 0 m.ports).run ⟨body, symbols⟩
    return ports?.map fun ports => ({ m with ports, body := s.body.map Body.compact }, s.symbols)
  else return none

namespace Module

variable {m : Module}

/-- Lowering ends, with a result or a failure: both loops are over after a number of rounds that depends on
the module alone, and leave what `Module.lower` does; and at no time does a path of accessors go on for
ever. -/
theorem lower_terminates (hm : m.Reachable) (h : m.Acyclic) (cx : Context) (generated : Nat) {n : Nat}
    (hn : m.rounds ≤ n) : m.lowerWithin cx n generated = some <$> m.lower cx generated ∧
      ∀ b, m.body = some b → ∀ p y i, Runs False (work cx i [.block Body.entry]) ⟨⟨b, p⟩, y⟩
        fun _ t => t.builder.body.PathsEnd := by
  refine ⟨?_, fun b hb p y i => (h b hb).work_pathsEnd (hm hb).coherent cx p y i⟩
  have hports : (m.ports.map (·.ty.rounds)).sum < n := Nat.lt_of_lt_of_le (Nat.le_max_right _ _) hn
  unfold lowerWithin lower
  dsimp only
  rw [portLoop_eq_ports _ _ hports]
  -- what is left is the loop over ports
  have htail (body : Option Body) (y : Symbols) :
      ((some <$> Lower.ports (cx.options.portsMayPreserve m.entry) m.ports).run ⟨body, y⟩ >>= fun r =>
        (pure (r.1.map fun ports => ({ m with ports, body := r.2.body.map Body.compact }, r.2.symbols)) :
          Except Failure (Option (Module × Symbols)))) =
      some <$> ((Lower.ports (cx.options.portsMayPreserve m.entry) m.ports).run ⟨body, y⟩ >>= fun r =>
        pure ({ m with ports := r.1, body := r.2.body.map Body.compact }, r.2.symbols)) := by
    rw [StateT.run_map]
    cases (Lower.ports (cx.options.portsMayPreserve m.entry) m.ports).run ⟨body, y⟩ <;> rfl
  cases hb : m.body with
  | none => exact htail none _
  | some b =>
    have hbody : b.rounds ≤ n := by
      have := Nat.le_max_left (m.body.elim 0 Body.rounds) ((m.ports.map (·.ty.rounds)).sum + 1)
      rw [hb] at this
      exact Nat.le_trans this (by rw [← hb]; exact hn)
    dsimp only
    cases b.slotCount Body.entry with
    | error e => rfl
    | ok end_ =>
      have hwork := (h b hb).work_eq (hm hb).coherent cx ⟨Body.entry, end_⟩ (Symbols.ofModule m generated)
        (Nat.le_refl _) hbody
      rw [StateT.run_bind] at hwork
      show (StateT.run (work cx n _) _ >>= _) = some <$> (StateT.run (lowerBlock cx _ _) _ >>= _)
      rw [hwork]
      cases (lowerBlock cx b.loweringDepth Body.entry).run ⟨⟨b, ⟨Body.entry, end_⟩⟩, Symbols.ofModule m generated⟩ with
      | error e => rfl
      | ok r => exact htail (some r.2.builder.body) r.2.symbols

theorem lower_terminates_cast : castModule.lowerWithin ⟨{}, []⟩ castModule.rounds 0 =
    some <$> castModule.lower ⟨{}, []⟩ 0 ∧
      ∀ b, castModule.body = some b → ∀ p y i, Runs False (work ⟨{}, []⟩ i [.block Body.entry]) ⟨⟨b, p⟩, y⟩
        fun _ t => t.builder.body.PathsEnd :=
  lower_terminates castModule_built.reachable (fun b hb => by
    obtain ⟨p, hp⟩ := castModule_built hb
    exact hp.acyclic) ⟨{}, []⟩ 0 (Nat.le_refl _)

end Module

end Scalarize
