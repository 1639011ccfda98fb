import Scalarize.Proofs.Step.Instance
import Scalarize.Proofs.Step.Memory
import Scalarize.Proofs.Typing.Build
import Scalarize.Proofs.Typing.Readers

/-!
# Steps on well-typed bodies

* `Body.Meets` : an operation of a well-typed body is met;
* `Body.Meets.splitProducer_refits`, `Meets.producer_refits`, `Meets.bitcast_refits`, … : it is lowered by
  one layer; what is made keeps the rule, and values give way to values of their types.
-/

namespace Scalarize

open Body Lower

/-- The operation `op`, with number `o`, is met in a well-typed body. -/
structure Body.Meets (b : Body) (o : OpId) (op : Operation) : Prop where
  coherent : b.Coherent
  wellTyped : b.WellTyped
  op? : b.op? o = some op
  erased : op.erased = false

namespace Body.Meets

variable {cx : Context} {t : LowerState} {o : OpId} {op : Operation} {i : Nat} {ty u : Ty}

theorem fitted {b : Body} (h : b.Meets o op) : b.Fitted op := h.wellTyped h.op? h.erased

theorem operand_ends {b : Body} (h : b.Meets o op) (i : Nat) :
    Ends False (b.operand o i) fun v => op.operands[i]? = some v :=
  Body.operand_ends (fun _ _ hop' hv => by rwa [Option.some.inj (h.op?.symm.trans hop')]) nofun

/-- The results stay as they are. -/
theorem result_ends {b b' : Body} (h : b.Meets o op) (h' : b.Refits b') (i : Nat) :
    Ends False (b'.result o i) fun v => op.results[i]? = some v := by
  obtain ⟨op', hop', -, hres, -⟩ := h'.op? h.op?
  refine Body.result_ends (fun op₁ v hop₁ hv => ?_) nofun
  rwa [← hres, ← Option.some.inj (hop₁.symm.trans hop')]

/-! ## Producers -/

/-- The declaration of a part is of no concern to types. -/
theorem declarePart_refits (hb : t.builder.body.Coherent) (decl : Decl) (part : Part) (r : Restricted)
    (v : ValueId) :
    Runs False (declarePart decl part r v) t fun _ t' => t.builder.body.Refits t'.builder.body := by
  refine Runs.bind_any fun d? _ => ?_
  split
  next x _ =>
    have hdeclare : ∀ sym y, Runs False (do
        let new : Decl := { decl.extendName part.suffix with annotations := r.annotations, sym }
        change fun b => return b.modifyDecl x fun _ => new) ⟨t.builder, y⟩
          fun _ t' => t.builder.body.Refits t'.builder.body :=
      fun sym y => Runs.change (.pure (.declared hb _ _ _))
    split
    next => exact .bind_mint (hdeclare _ _)
    next =>
      split
      · exact .bind_mint (hdeclare _ _)
      · exact hdeclare _ _
  next => exact .pure (.refl hb _)

/-- An operation gives way to one for each part of its result. -/
theorem splitProducer_refits {b : Body} (h : b.Meets o op) (h₀ : b.Refits t.builder.body) {keep : Bool}
    {clone : Part → Build ValueId}
    (hclone : ∀ {r ty s part}, op.results[0]? = some r → b.ty? r = some ty → t.builder.body.Refits s.body →
      ty.child? part.index = some part.ty → Runs False (clone part) s (s.Gives part.ty)) :
    Runs False (splitProducer o keep clone) t fun _ t' => b.Refits t'.builder.body := by
  refine Runs.bind_body (h.result_ends h₀ 0) fun r hr => ?_
  obtain ⟨ins, outs, hins, houts, -⟩ := h.fitted
  obtain ⟨ty, -, hty⟩ := houts.getElem? hr
  refine Runs.bind_body (P := (ty = ·)) (typeOf_ends (fun ty' hty' => ?_) nofun) ?_
  · exact Option.some.inj ((h₀.ty? hty).symm.trans hty')
  rintro _ rfl
  refine Runs.bind_except (Ty.peel_ends (nofun : False → _)) fun ps? hps => ?_
  split
  next ps =>
    have hps : ty.PartsOf ps := hps.1
    refine Runs.bind_any fun kind _ => ?_
    refine Runs.bind (Runs.mapM (fun done vs t' => t.builder.body.Refits t'.builder.body ∧
      t'.builder.body.Types vs (done.map (·.ty))) ps ⟨.refl h₀.coherent _, .nil⟩
      fun done p rest vs t' hl ⟨h', hvs⟩ => ?_) fun vs t' ⟨h', hvs⟩ => ?_
    · have hp := hps.child_index (hl ▸ List.mem_append_right _ List.mem_cons_self)
      refine Runs.bind_except (P := fun _ => True) (.intro (fun _ _ => trivial) nofun) fun restricted _ => ?_
      refine Runs.bind_build (hclone hr hty h' hp) fun v s hv => ?_
      refine (declarePart_refits (t := ⟨s, t'.symbols⟩) hv.refits.coherent _ _ _ _).bind fun _ t'' h'' => .pure ?_
      rw [List.map_append, List.map_singleton]
      refine ⟨h'.trans (hv.refits.trans h''), List.rel_append (h''.types (hv.refits.types hvs)) ?_⟩
      exact .cons (h''.ty? hv.ty?) .nil
    · rw [hps.map_ty] at hvs
      have hall := h₀.trans h'
      exact Runs.bind_change (rewire_refits h'.coherent (hall.wellTyped h.wellTyped) (hall.ty? hty) hvs)
        fun _ hb => .pure (hall.trans hb)
  next => exact .pure h₀

/-- The result of an operation with one result. -/
theorem result_eq {b : Body} {outs : List Ty} (houts : b.Types op.results outs) (hu : outs = [u])
    {r : ValueId} (hr : op.results[0]? = some r) (hty : b.ty? r = some ty) : ty = u := by
  obtain ⟨v, hv, hres⟩ := (hu ▸ houts).singleton
  rw [hres] at hr
  obtain rfl := Option.some.inj hr
  exact Option.some.inj (hty.symm.trans hv)

/-- A part of each of some values. -/
theorem parts_gives {s : Builder} (hb : s.body.Coherent) {inputs : List ValueId} {c : Ty}
    (hin : ∀ v ∈ inputs, s.body.ty? v = some u) (hc : u.child? i = some c) :
    Runs False (inputs.mapM (Build.part · i)) s fun vs s' => s.body.Refits s'.body ∧
      ∀ v ∈ vs, s'.body.ty? v = some c := by
  refine Runs.mapM (fun _ vs (s' : Builder) => s.body.Refits s'.body ∧ ∀ v ∈ vs, s'.body.ty? v = some c) inputs
    ⟨.refl hb _, by simp⟩ fun done v rest vs s' hl ⟨h', hvs⟩ => ?_
  have hv := hin v (hl ▸ List.mem_append_right _ List.mem_cons_self)
  refine (Build.part_gives h'.coherent (h'.ty? hv) hc).mono fun w s'' hw => ⟨h'.trans hw.refits, fun x hx => ?_⟩
  rcases List.mem_append.1 hx with hx | hx
  · exact hw.refits.ty? (hvs x hx)
  · exact List.mem_singleton.1 hx ▸ hw.ty?

/-- Declarations, choices and casts that are settled later give way to those of the parts. -/
theorem producer_refits (h : t.builder.body.Meets o op) (keep : Bool) :
    Runs False (producer o keep op.kind) t fun _ t' => t.builder.body.Refits t'.builder.body := by
  obtain ⟨ins, outs, hins, houts, hfits⟩ := h.fitted
  have h₀ := RefitsBut.refl h.coherent fun _ => False
  cases hk : op.kind with
  | wire d =>
    exact h.splitProducer_refits h₀ fun _ _ hs _ => Build.firstResult_gives hs.coherent rfl fun _ => trivial
  | reg d =>
    refine Runs.bind_any fun clock _ => ?_
    exact h.splitProducer_refits h₀ fun _ _ hs _ => Build.firstResult_gives hs.coherent rfl fun _ => trivial
  | regReset d =>
    rw [hk] at hfits
    obtain ⟨c, r, u, rfl, rfl⟩ := hfits
    refine Runs.bind_body (h.operand_ends 0) fun clock hclock => Runs.bind_body (h.operand_ends 1) fun reset hreset =>
      Runs.bind_body (h.operand_ends 2) fun init hinit => h.splitProducer_refits h₀ fun hr hty hs hc => ?_
    obtain rfl := result_eq houts rfl hr hty
    refine (Build.part_gives hs.coherent (hs.ty? (hins.getElem?_eq hinit rfl)) hc).bind fun v s' hv => ?_
    have hf : ∀ {ins}, s'.body.Types [clock, reset, v] ins → (OpKind.regReset {}).Fits ins [_] := fun hins' =>
      ⟨c, r, _, hins'.unique (.cons (hv.refits.ty? (hs.ty? (hins.getElem?_eq hclock rfl)))
        (.cons (hv.refits.ty? (hs.ty? (hins.getElem?_eq hreset rfl))) (.cons hv.ty? .nil))), rfl⟩
    exact (Build.firstResult_gives hv.refits.coherent rfl hf).mono fun _ _ => .after hv.refits
  | node d =>
    rw [hk] at hfits
    obtain ⟨u, rfl, rfl⟩ := hfits
    refine Runs.bind_body (h.operand_ends 0) fun input hinput => h.splitProducer_refits h₀ fun hr hty hs hc => ?_
    obtain rfl := result_eq houts rfl hr hty
    refine (Build.part_gives hs.coherent (hs.ty? (hins.getElem?_eq hinput rfl)) hc).bind fun v s' hv => ?_
    exact (Build.node_gives hv.refits.coherent hv.ty? {}).mono fun _ _ => .after hv.refits
  | invalid =>
    exact h.splitProducer_refits h₀ fun _ _ hs _ => Build.createValue_gives hs.coherent rfl fun _ => trivial
  | mux =>
    rw [hk] at hfits
    obtain ⟨x, u, rfl, rfl⟩ := hfits
    refine Runs.bind_body (h.operand_ends 0) fun sel hsel => Runs.bind_body (h.operand_ends 1) fun high hhigh =>
      Runs.bind_body (h.operand_ends 2) fun low hlow => h.splitProducer_refits h₀ fun hr hty hs hc => ?_
    obtain rfl := result_eq houts rfl hr hty
    refine (Build.part_gives hs.coherent (hs.ty? (hins.getElem?_eq hhigh rfl)) hc).bind fun v s₁ hv => ?_
    have h₁ := hs.trans hv.refits
    refine (Build.part_gives h₁.coherent (h₁.ty? (hins.getElem?_eq hlow rfl)) hc).bind fun w s₂ hw => ?_
    have h₂ := h₁.trans hw.refits
    have hsel' : (s₂.body.ty? sel).isSome := by rw [h₂.ty? (hins.getElem?_eq hsel rfl)]; rfl
    exact (Build.mux_gives h₂.coherent hsel' (hw.refits.ty? hv.ty?) hw.ty?).mono
      fun _ _ => .after (hv.refits.trans hw.refits)
  | multiMux =>
    rw [hk] at hfits
    obtain ⟨x, rest, u, rfl, hrest, rfl⟩ := hfits
    refine Runs.bind_body (P := (op = ·)) (op_ends (fun op' hop' => Option.some.inj (h.op?.symm.trans hop'))
      nofun) ?_
    rintro _ rfl
    split
    · exact .throw id
    next index inputs hl =>
      rw [hl] at hins
      obtain ⟨hx, hinputs⟩ := List.forall₂_cons.1 hins
      refine h.splitProducer_refits h₀ fun hr hty hs hc => ?_
      obtain rfl := result_eq houts rfl hr hty
      have hall : ∀ v ∈ inputs, t.builder.body.ty? v = some _ := fun v hv => by
        obtain ⟨i, hi⟩ := List.mem_iff_getElem?.1 hv
        obtain ⟨u', hu', hv'⟩ := Types.getElem? hinputs hi
        rw [hv', hrest u' (List.mem_of_getElem? hu')]
      refine (parts_gives hs.coherent (fun v hv => hs.ty? (hall v hv)) hc).bind fun vs s₁ ⟨h₁, hvs⟩ => ?_
      have hx' : (s₁.body.ty? index).isSome := by rw [h₁.ty? (hs.ty? hx)]; rfl
      exact (Build.multiMux_gives h₁.coherent hx' hvs).mono fun _ _ => .after h₁
  | unrealizedCast =>
    refine Runs.bind_body (h.operand_ends 0) fun input hinput => h.splitProducer_refits h₀ fun hr hty hs hc => ?_
    obtain ⟨u, -, hu⟩ := hins.getElem? hinput
    refine (Build.exists_part_gives hs.coherent (hs.ty? hu) _).bind fun v s' ⟨c, _, hv⟩ => ?_
    refine (Build.createValue_gives hv.refits.coherent rfl ?_).mono fun _ _ => .after hv.refits
    exact fun _ => trivial
  | _ => exact .pure (.refl h.coherent _)

/-! ## Casts -/

/-- The result gives way to a value of its type. -/
theorem giveWay_refits {b : Body} {result w : ValueId} (h : b.Refits t.builder.body)
    (hr : b.ty? result = some ty) (hw : t.builder.body.ty? w = some ty) :
    Runs False (do change (·.replaceAllUses result w); return true) t fun _ t' => b.Refits t'.builder.body :=
  Runs.bind_change (replaceAllUses_refits h.coherent (h.ty? hr) hw) fun _ hb => .pure (h.trans hb)

theorem bitcast_refits (h : t.builder.body.Meets o op) (hk : op.kind = .bitcast) :
    Runs False (bitcast o) t fun _ t' => t.builder.body.Refits t'.builder.body := by
  obtain ⟨ins, outs, hins, houts, hfits⟩ := h.fitted
  have h₀ := RefitsBut.refl h.coherent fun _ => False
  rw [hk] at hfits
  obtain ⟨a, u, w, rfl, rfl, ha, hu, hlt⟩ := hfits
  refine Runs.bind_body (h.operand_ends 0) fun input hinput => Runs.bind_body (h.result_ends h₀ 0) fun result hr =>
    Runs.bind_any fun inputTy _ => ?_
  refine Runs.bind_body (P := fun ty => t.builder.body.ty? result = some ty) (typeOf_ends (fun _ h => h) nofun)
    fun resultTy hresult => ?_
  obtain rfl := result_eq houts rfl hr hresult
  split
  · exact .pure h₀
  refine Runs.bind_build (flatten_gives h.coherent (hins.getElem?_eq hinput rfl) ha) fun flat s hs => ?_
  refine Runs.bind_except (P := fun _ => True) (.intro (fun _ _ => trivial) nofun) fun ps? _ => ?_
  split
  next parts =>
    exact h.splitProducer_refits (t := ⟨s, t.symbols⟩) hs.refits fun _ _ hs' _ => slice_gives hs'.coherent _ _ _
  next =>
    split
    next width _ =>
      obtain rfl : width = some w := hu
      refine Runs.bind_build (Build.asSInt_gives hs.refits.coherent hs.ty? rfl) fun v s' hv => ?_
      exact giveWay_refits (t := ⟨s', t.symbols⟩) (hs.refits.trans hv.refits) hresult hv.ty?
    next =>
      refine Runs.bind_build (castTo_gives hs.refits.coherent hs.ty? rfl hu hlt) fun v s' hv => ?_
      exact giveWay_refits (t := ⟨s', t.symbols⟩) (hs.refits.trans hv.refits) hresult hv.ty?

/-! ## Reads at computed positions -/

theorem subaccess_refits (h : t.builder.body.Meets o op) (hk : op.kind = .subaccess) :
    Runs False (Lower.subaccess o) t fun _ t' => t.builder.body.Refits t'.builder.body := by
  obtain ⟨ins, outs, hins, houts, hfits⟩ := h.fitted
  have h₀ := RefitsBut.refl h.coherent fun _ => False
  rw [hk] at hfits
  obtain ⟨e, n, x, rfl, rfl⟩ := hfits
  refine Runs.bind_body (h.operand_ends 0) fun input hinput => Runs.bind_body (h.operand_ends 1) fun index hindex =>
    Runs.bind_body (h.result_ends h₀ 0) fun result hr => ?_
  have hinput' := hins.getElem?_eq hinput rfl
  have hindex' := hins.getElem?_eq hindex rfl
  obtain ⟨_, hu, hresult⟩ := houts.getElem? hr
  obtain rfl := Option.some.inj hu
  refine Runs.bind_body (P := (· = (e, n))) ?_ ?_
  · refine Ends.bind (P := (· = .vector e n)) (typeOf_ends (fun ty hty => ?_) nofun) ?_
    · exact Option.some.inj (hty.symm.trans hinput')
    · rintro _ rfl
      exact .pure rfl
  rintro _ rfl
  dsimp only
  split
  · refine Runs.bind_build (Build.createValue_gives h.coherent rfl ?_) fun v s' hv =>
      giveWay_refits (t := ⟨s', t.symbols⟩) hv.refits hresult hv.ty?
    exact fun _ => trivial
  refine Runs.bind_any fun literal _ => ?_
  split
  next literal _ =>
    exact Runs.bind_build (Build.element_gives h.coherent hinput' _) fun v s' hv =>
      giveWay_refits (t := ⟨s', t.symbols⟩) hv.refits hresult hv.ty?
  next =>
    refine Runs.bind (Runs.mapM (fun _ vs t' => t.builder.body.Refits t'.builder.body ∧
      ∀ v ∈ vs, t'.builder.body.ty? v = some e) _ ⟨h₀, by simp⟩ fun _ i _ vs t' _ ⟨h', hvs⟩ =>
      Runs.build ((Build.element_gives h'.coherent (h'.ty? hinput') i).mono fun w s' hw =>
        ⟨h'.trans hw.refits, fun v hv => ?_⟩)) fun inputs t' ⟨h', hinputs⟩ => ?_
    · rcases List.mem_append.1 hv with hv | hv
      · exact hw.refits.ty? (hvs v hv)
      · exact List.mem_singleton.1 hv ▸ hw.ty?
    have hx : (t'.builder.body.ty? index).isSome := by rw [h'.ty? hindex']; rfl
    exact Runs.bind_build (Build.multiMux_gives h'.coherent hx hinputs) fun v s' hv =>
      giveWay_refits (t := ⟨s', t'.symbols⟩) (h'.trans hv.refits) hresult hv.ty?

/-! ## Memories -/

/-- Each port of a memory gives way to a wire of its type. -/
theorem portWires_refits (h : t.builder.body.Meets o op) {m : Memory} (hk : op.kind = .mem m) :
    Runs False (portWires o m) t fun wires t' => t.builder.body.Refits t'.builder.body ∧
      t'.builder.body.Types wires m.portTypes := by
  obtain ⟨ins, outs, hins, houts, hfits⟩ := h.fitted
  rw [hk] at hfits
  obtain rfl : outs = m.portTypes := hfits
  have htypes : m.ports.zipIdx.map (fun e => Memory.portType m.depth m.dataType e.1.kind) = m.portTypes := by
    have := congrArg (List.map fun p => Memory.portType m.depth m.dataType p.kind) (List.zipIdx_map_fst 0 m.ports)
    rwa [List.map_map] at this
  rw [← htypes]
  refine Runs.mapM (fun (done : List (MemPort × Nat)) wires (t' : LowerState) =>
    t.builder.body.Refits t'.builder.body ∧ t'.builder.body.Types wires
      (done.map fun e => Memory.portType m.depth m.dataType e.1.kind)) _ ⟨.refl h.coherent _, .nil⟩ ?_
  rintro done ⟨p, i⟩ rest wires t' hl ⟨h', hwires⟩
  have hp : m.ports[i]? = some p := List.mem_zipIdx_iff_getElem?.1 (hl ▸ List.mem_append_right _ List.mem_cons_self)
  refine Runs.bind_build (Build.wire_gives h'.coherent _ _) fun wire s ⟨hs, rs, hop, hrs⟩ => ?_
  obtain ⟨w, hw, rfl⟩ := hrs.singleton
  refine Runs.bind_body (P := (w = ·)) (Body.result_ends (fun op' v hop' hv => ?_) nofun) ?_
  · obtain rfl := Option.some.inj (hop.symm.trans hop')
    exact Option.some.inj hv
  rintro _ rfl
  have hboth := h'.trans hs
  refine Runs.bind_change (P := s.body.Refits) ?_ fun b hb => .pure ⟨hboth.trans hb, ?_⟩
  · refine Ends.bind (h.result_ends hboth i) fun r hr => ?_
    have hr' : t.builder.body.ty? r = some (Memory.portType m.depth m.dataType p.kind) := by
      refine houts.getElem?_eq hr ?_
      rw [Memory.portTypes, List.getElem?_map, hp]
      rfl
    exact replaceAllUses_refits hs.coherent (hboth.ty? hr') hw
  · rw [List.map_append, List.map_singleton]
    exact List.rel_append (hb.types (hs.types hwires)) (.cons (hb.ty? hw) .nil)

end Body.Meets

/-- The results of an operation have these types. -/
def Body.Yields (b : Body) (x : OpId) (tys : List Ty) : Prop :=
  ∃ op, b.op? x = some op ∧ b.Types op.results tys

theorem Body.RefitsBut.yields {W : OpId → Prop} {b b' : Body} {x : OpId} {tys : List Ty} (h : b.RefitsBut W b')
    (hx : b.Yields x tys) : b'.Yields x tys := by
  obtain ⟨op, hop, hr⟩ := hx
  obtain ⟨op', hop', -, hres, -⟩ := h.op? hop
  exact ⟨op', hop', hres ▸ h.types hr⟩

theorem Body.Yields.result_ends {b : Body} {x : OpId} {tys : List Ty} {i : Nat} {ty : Ty} (h : b.Yields x tys)
    (hi : tys[i]? = some ty) : Ends False (b.result x i) fun v => b.ty? v = some ty := by
  obtain ⟨op, hop, hr⟩ := h
  refine Body.result_ends (fun op' v hop' hv => ?_) nofun
  obtain rfl := Option.some.inj (hop.symm.trans hop')
  exact hr.getElem?_eq hv hi

namespace Body.Meets

variable {cx : Context} {t : LowerState} {o : OpId} {op : Operation} {i : Nat} {ty u : Ty}

/-- The memory of one part. -/
theorem narrowMemory_refits (hb : t.builder.body.Coherent) (m : Memory) (part : Part) :
    Runs False (narrowMemory m part) t fun x t' => t.builder.body.Refits t'.builder.body ∧
      t'.builder.body.Yields x (m.ports.map fun p => Memory.portType m.depth part.ty p.kind) := by
  refine Runs.bind_except (Memory.narrow_ends (nofun : False → _)) fun m' ⟨hdepth, hdata, hports⟩ => ?_
  have htypes : m'.portTypes = m.ports.map fun p => Memory.portType m.depth part.ty p.kind := by
    have := congrArg (List.map (Memory.portType m.depth part.ty)) hports
    rw [List.map_map, List.map_map] at this
    rw [Memory.portTypes, hdepth, hdata]
    exact this
  refine Runs.bind_build (Build.create_gives hb rfl fun _ => rfl) ?_
  rintro x s ⟨hs, rs, hop, hrs⟩
  have hx : s.body.Yields x _ := ⟨_, hop, htypes ▸ hrs⟩
  split
  next base _ =>
    refine Runs.bind (Runs.mint (Q := fun _ t' => t'.builder = s) rfl) ?_
    rintro sym ⟨s, y⟩ rfl
    refine Runs.bind (Runs.change (.pure ?_)) fun _ _ h => .pure h
    have hd : s.body.Refits (s.body.modifyDecl x fun d => { d with sym := some sym }) := .declared hs.coherent x _ _
    exact ⟨hs.trans hd, hd.yields hx⟩
  next => exact .pure ⟨hs, hx⟩

/-- A memory was made for each of some parts. -/
def Stores (m : Memory) (b : Body) (memories : List (Part × OpId)) : Prop :=
  ∀ e ∈ memories, m.dataType.child? e.1.index = some e.1.ty ∧
    b.Yields e.2 (m.ports.map fun p => Memory.portType m.depth e.1.ty p.kind)

theorem Stores.refits {m : Memory} {b b' : Body} {memories : List (Part × OpId)} (h : Stores m b memories)
    (hb : b.Refits b') : Stores m b' memories := fun e he => ⟨(h e he).1, hb.yields (h e he).2⟩

/-- One field of the wire of a port is connected with the same field, or with a part of it, of each memory. -/
theorem joinField_refits (hb : t.builder.body.Coherent) {m : Memory} {memories : List (Part × OpId)}
    (hmem : Stores m t.builder.body memories) {port position : Nat} {p : MemPort} {field : Field} {wire : ValueId}
    (hp : m.ports[port]? = some p) (hf : (Memory.portFields m.depth m.dataType p.kind)[position]? = some field)
    (hwire : t.builder.body.ty? wire = some (Memory.portType m.depth m.dataType p.kind)) :
    Runs False (joinField wire port memories field position) t fun _ t' =>
      t.builder.body.Refits t'.builder.body := by
  refine Runs.bind_build (Build.subfield_gives hb hwire position) fun whole s ⟨c, hc, hs⟩ => ?_
  obtain rfl : field.ty = c := by
    change ((Memory.portFields m.depth m.dataType p.kind)[position]?.map (·.ty)) = some c at hc
    rw [hf] at hc
    exact Option.some.inj hc
  refine Runs.forM (fun _ t' => t.builder.body.Refits t'.builder.body ∧
    t'.builder.body.ty? whole = some field.ty) memories ⟨hs.refits, hs.ty?⟩ ?_ |>.mono fun _ _ h => h.1
  rintro done ⟨part, x⟩ rest t' hl ⟨h', hwhole⟩
  obtain ⟨hchild, hx⟩ := (hmem.refits h') _ (hl ▸ List.mem_append_right _ List.mem_cons_self)
  -- the same field of the memory of the part
  have hfield : ∀ {s : Builder} {c : Ty}, t'.builder.body.Refits s.body →
      (∃ f, (Memory.portFields m.depth part.ty p.kind)[position]? = some f ∧ f.ty = c) → ∀ {y : Symbols}
      {g : ValueId → Lower Unit} {Q : Unit → LowerState → Prop},
      (∀ {v s'}, s.Gives c v s' → Runs False (g v) ⟨s', y⟩ Q) →
      Runs False (do
        let newPort ← body (·.result x port)
        let newField ← Build.subfield newPort position
        g newField) ⟨s, y⟩ Q := by
    rintro s _ hs ⟨f, hf, rfl⟩ y g Q hg
    refine Runs.bind_body ((hs.yields hx).result_ends (by rw [List.getElem?_map, hp]; rfl)) fun newPort hnew => ?_
    refine Runs.bind_build (Build.subfield_gives hs.coherent hnew position) fun v s' ⟨c, hc, hv⟩ => hg ?_
    change ((Memory.portFields m.depth part.ty p.kind)[position]?.map (·.ty)) = some c at hc
    rw [hf] at hc
    obtain rfl : f.ty = c := Option.some.inj hc
    exact hv
  have hcases := Memory.portField_cases hf
  dsimp only
  split
  next hfollows =>
    rw [if_pos hfollows] at hcases
    obtain ⟨g, hgc, -, hgty, hgf⟩ := hcases
    have hleaf : field.ty.child? part.index = some (g part.ty) := by rw [hgty, hgc, hchild]; rfl
    refine Runs.bind_build (Build.part_gives h'.coherent hwhole hleaf) fun leaf s₁ h₁ => ?_
    refine hfield h₁.refits ⟨_, hgf part.ty, rfl⟩ fun {newField s₂} h₂ => ?_
    have hboth := (h'.trans h₁.refits).trans h₂.refits
    have hwhole' := h₂.refits.ty? (h₁.refits.ty? hwhole)
    split
    · exact Runs.bind_build (Build.connect_gives h₂.refits.coherent true (h₂.refits.ty? h₁.ty?) h₂.ty?)
        fun _ _ h₃ => .pure ⟨hboth.trans h₃, h₃.ty? hwhole'⟩
    · exact Runs.bind_build (Build.connect_gives h₂.refits.coherent true h₂.ty? (h₂.refits.ty? h₁.ty?))
        fun _ _ h₃ => .pure ⟨hboth.trans h₃, h₃.ty? hwhole'⟩
  next hfollows =>
    rw [if_neg hfollows] at hcases
    refine hfield (.refl h'.coherent _) ⟨_, hcases.2 part.ty, rfl⟩ fun {newField s₂} h₂ => ?_
    have hwhole' := h₂.refits.ty? hwhole
    exact Runs.bind_build (Build.connect_gives h₂.refits.coherent true h₂.ty? hwhole')
      fun _ _ h₃ => .pure ⟨(h'.trans h₂.refits).trans h₃, h₃.ty? hwhole'⟩

/-- A memory of aggregates gives way to one memory for each part. -/
theorem memory_refits (h : t.builder.body.Meets o op) {m : Memory} (hk : op.kind = .mem m) :
    Runs False (Lower.memory o m) t fun _ t' => t.builder.body.Refits t'.builder.body := by
  refine Runs.bind_except (Ty.peel_ends (nofun : False → _)) fun ps? hps => ?_
  split
  next parts =>
    have hps : m.dataType.PartsOf parts := hps.1
    refine (h.portWires_refits hk).bind fun wires t₁ ⟨h₁, hwires⟩ => ?_
    refine Runs.bind (Runs.mapM (fun _ (memories : List (Part × OpId)) t' =>
      t₁.builder.body.Refits t'.builder.body ∧ Stores m t'.builder.body memories) parts ⟨.refl h₁.coherent _, by simp [Stores]⟩
      fun done part rest memories t' hl ⟨h', hmem⟩ => (narrowMemory_refits h'.coherent m part).bind
        fun x t'' ⟨h'', hx⟩ => .pure ⟨h'.trans h'', fun e he => ?_⟩) fun memories t₂ ⟨h₂, hmem⟩ => ?_
    · rcases List.mem_append.1 he with he | he
      · exact hmem.refits h'' e he
      · rw [List.mem_singleton.1 he]
        exact ⟨hps.child_index (hl ▸ List.mem_append_right _ List.mem_cons_self), hx⟩
    refine Runs.bind (Runs.forM (fun _ t' => t₂.builder.body.Refits t'.builder.body) (wires.zip m.ports).zipIdx
      (.refl h₂.coherent _) ?_) fun _ t₃ h₃ => .pure (h₁.trans (h₂.trans h₃))
    rintro done ⟨⟨wire, p⟩, port⟩ rest t' hl h'
    obtain ⟨hwp, hpp⟩ : wires[port]? = some wire ∧ m.ports[port]? = some p := by
      have : ((wire, p), port) ∈ (wires.zip m.ports).zipIdx := hl ▸ List.mem_append_right _ List.mem_cons_self
      rwa [List.mem_zipIdx_iff_getElem?, List.getElem?_zip_eq_some] at this
    have hwire : t₁.builder.body.ty? wire = some (Memory.portType m.depth m.dataType p.kind) := by
      refine hwires.getElem?_eq hwp ?_
      rw [Memory.portTypes, List.getElem?_map, hpp]
      rfl
    refine Runs.forM (fun _ (t' : LowerState) => t₂.builder.body.Refits t'.builder.body)
      (Memory.portFields m.depth m.dataType p.kind).zipIdx h' ?_
    rintro done' ⟨field, position⟩ rest' t'' hl' h''
    have hf : (Memory.portFields m.depth m.dataType p.kind)[position]? = some field :=
      List.mem_zipIdx_iff_getElem?.1 (hl' ▸ List.mem_append_right _ List.mem_cons_self)
    exact (joinField_refits h''.coherent (hmem.refits h'') hpp hf (h''.ty? (h₂.ty? hwire))).mono
      fun _ _ => h''.trans
  next => exact .pure (.refl h.coherent _)

/-! ## Instances -/

/-- An instance gives way to one with the ports that its ports were split into. -/
theorem inst_refits (h : t.builder.body.Meets o op) (i : Instance) :
    Runs False (Lower.inst cx o i) t fun _ t' => t.builder.body.Refits t'.builder.body := by
  unfold Lower.inst
  split
  next entry _ =>
    refine Body.bind_op h.op? ?_
    refine Runs.bind (Runs.mapM (fun _ splits t' => t' = t ∧ ∀ e ∈ splits, ∃ ty,
      t.builder.body.ty? e.1 = some ty ∧ (e.2.types = ty.children ∨ e.2.types = [ty])) _ ⟨rfl, by simp⟩ ?_) ?_
    · rintro done ⟨p, v⟩ rest splits t - ⟨rfl, hsplits⟩
      refine Runs.bind_body (P := fun ty => t.builder.body.ty? v = some ty) (typeOf_ends (fun _ h => h) nofun)
        fun ty hty => Runs.bind_except (InstancePort.split_ends (nofun : False → _)) fun s ⟨hs, _⟩ => .pure ⟨rfl, ?_⟩
      refine List.forall_mem_append.2 ⟨hsplits, List.forall_mem_singleton.2 ⟨ty, hty, ?_⟩⟩
      cases hs with
      | whole => exact .inr rfl
      | parts hps => exact .inl hps.map_ty
    rintro splits t ⟨rfl, hsplits⟩
    split
    · exact .pure (.refl h.coherent _)
    have hmake : ∀ decl y, Runs False (do
        let new ← (Build.inst { i with decl, ports := splits.flatMap (·.2.ports) } (splits.flatMap (·.2.types)) :
          Lower OpId)
        let newResults := (← body (·.op new)).results
        change (Body.handOver splits newResults)
        return true) ⟨t.builder, y⟩ fun _ t' => t.builder.body.Refits t'.builder.body := by
      intro decl y
      refine Runs.bind_build (Build.create_gives h.coherent rfl fun _ => trivial) fun x s ⟨hs, rs, hop, hrs⟩ => ?_
      refine Body.bind_op (t := ⟨s, y⟩) hop ?_
      exact Runs.bind_change (handOver_refits hs.coherent (hs.wellTyped h.wellTyped)
        (fun e he => let ⟨ty, hty, hs'⟩ := hsplits e he; ⟨ty, hs.ty? hty, hs'⟩) hrs) fun _ hb => .pure (hs.trans hb)
    dsimp only
    split
    · exact .bind_mint (hmake _ _)
    · exact hmake _ _
  next => exact .throw id

end Body.Meets

end Scalarize
