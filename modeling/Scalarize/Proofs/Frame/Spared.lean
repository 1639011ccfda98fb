import Scalarize.Proofs.Edits.Pending

/-!
# Operations that lowering leaves alone

* `Body.Ground`, `Body.Computes` : values without parts; a value that is reached at a computed position;
* `Body.Spared` : an operation on ground values that reaches no part of an aggregate;
* `Lower.step_spared` : a step over such an operation replaces nothing.
-/

namespace Scalarize

open Body Lower

/-- None of the values has parts. -/
def Body.Ground (b : Body) (vs : List ValueId) : Prop := ∀ v ∈ vs, ∀ t, b.ty? v = some t → t.isGround

/-- Some access on the way to the value is at a position that must be computed. -/
def Body.Computes (b : Body) (v : ValueId) : Prop :=
  ∃ path w x, b.Leads v path w ∧ x ∈ path ∧ b.isDynamic x = .ok true

/-- The operation has nothing to do with aggregates. It is no accessor, it does not drive an aggregate or
what is reached at a computed position, and it is no cast of an aggregate, no memory of aggregates and no
instance with a port to split. All others make ground values only. -/
def Body.Spared (cx : Context) (b : Body) (op : Operation) : Prop :=
  match op.kind with
  | .subfield _ | .subindex _ | .subaccess => False
  | .connect _ => ∀ v, op.operands[0]? = some v → b.Ground [v] ∧ ¬b.Computes v
  | .bitcast => b.Ground op.results ∧ ∀ v, op.operands[0]? = some v → b.Ground [v]
  | .mem m => m.dataType.isGround
  | .inst i => ∀ entry, cx.modules.get? i.moduleName = some entry → ∀ e ∈ i.ports.zip op.results,
    ∀ t, b.ty? e.2 = some t → t.peel (cx.options.portsMayPreserve entry) = .ok none
  | .when _ _ => True
  | _ => b.Ground op.results

theorem Body.Spared.not_isAccessor {cx : Context} {b : Body} {op : Operation} (h : b.Spared cx op) :
    op.kind.isAccessor = false := by
  unfold Spared at h
  cases hk : op.kind <;> first | rfl | (rw [hk] at h; exact h.elim)

theorem Ty.peel_of_isGround {t : Ty} (h : t.isGround) (keep : Bool) : t.peel keep = .ok none := by
  cases t with
  | ground g => exact peel_ground g keep
  | _ => cases h

namespace Lower

variable {cx : Context} {t : LowerState} {o : OpId} {op : Operation} {Q : Bool → LowerState → Prop}

/-! ## Producers -/

/-- A producer of a ground value is not split. -/
theorem splitProducer_spared (hop : t.builder.body.op? o = some op) (h : t.builder.body.Ground op.results)
    (keep : Bool) (clone : Part → Build ValueId) :
    Runs False (splitProducer o keep clone) t fun replaced _ => replaced = false := by
  refine Runs.bind_body (P := fun r => r ∈ op.results) (result_ends (fun op' r hop' hr => ?_) nofun)
    fun r hr => ?_
  · obtain rfl := Option.some.inj (hop.symm.trans hop')
    exact List.mem_of_getElem? hr
  refine Runs.bind_body (P := fun ty => ty.isGround = true) (typeOf_ends (fun ty hty => h r hr ty hty) nofun)
    fun ty hty => ?_
  rw [Ty.peel_of_isGround hty]
  exact .pure rfl

theorem producer_spared (hop : t.builder.body.op? o = some op) (h : t.builder.body.Ground op.results)
    (keep : Bool) (kind : OpKind) :
    Runs False (producer o keep kind) t fun replaced _ => replaced = false := by
  have hsplit := splitProducer_spared hop h keep
  cases kind with
  | wire | invalid => exact hsplit _
  | reg | node | unrealizedCast => exact Runs.bind_any fun _ _ => hsplit _
  | regReset | mux => exact Runs.bind_any fun _ _ => Runs.bind_any fun _ _ => Runs.bind_any fun _ _ => hsplit _
  | multiMux =>
    refine Runs.bind_any fun op' _ => ?_
    split
    · exact .throw id
    · exact hsplit _
  | _ => exact .pure rfl

/-! ## Connections -/

/-- No access is expanded if none is at a computed position. -/
theorem writePath_spared (hop : t.builder.body.op? o = some op)
    (h : ∀ v, op.operands[0]? = some v → ¬t.builder.body.Computes v) (strict : Bool) :
    Runs False (writePath o strict) t fun written t' => written = false ∧ t' = t := by
  refine Runs.bind_body (P := fun path => path = []) ?_ ?_
  · refine (writePath_leads hop).mono fun path ⟨v, rest, w, hv, hw, hlast⟩ => ?_
    by_contra hne
    refine h v hv ⟨_, w, path.getLast hne, hw, ?_, hlast _ (List.getLast?_eq_some_getLast hne)⟩
    exact List.mem_append_left _ (List.getLast_mem hne)
  · rintro _ rfl
    exact .pure ⟨rfl, rfl⟩

theorem connect_spared (hop : t.builder.body.op? o = some op)
    (h : ∀ v, op.operands[0]? = some v → t.builder.body.Ground [v] ∧ ¬t.builder.body.Computes v)
    (strict : Bool) : Runs False (connect o strict) t fun replaced _ => replaced = false := by
  refine (writePath_spared hop (fun v hv => (h v hv).2) strict).bind ?_
  rintro _ _ ⟨rfl, rfl⟩
  refine Runs.bind_body (P := fun dest => op.operands[0]? = some dest)
    (operand_ends (fun op' v hop' hv => ?_) nofun) fun dest hdest => Runs.bind_any fun src _ => ?_
  · rwa [Option.some.inj (hop.symm.trans hop')]
  refine Runs.bind_body (P := fun ty => ty.isGround = true)
    (typeOf_ends (fun ty hty => (h dest hdest).1 dest (List.mem_singleton_self _) ty hty) nofun) fun ty hty => ?_
  rw [Ty.peel_of_isGround hty]
  exact .pure rfl

/-! ## Casts, memories and instances -/

theorem bitcast_spared (hop : t.builder.body.op? o = some op) (hout : t.builder.body.Ground op.results)
    (hin : ∀ v, op.operands[0]? = some v → t.builder.body.Ground [v]) :
    Runs False (bitcast o) t fun replaced _ => replaced = false := by
  refine Runs.bind_body (P := fun v => op.operands[0]? = some v)
    (operand_ends (fun op' v hop' hv => ?_) nofun) fun input hinput => ?_
  · rwa [Option.some.inj (hop.symm.trans hop')]
  refine Runs.bind_body (P := fun r => r ∈ op.results) (result_ends (fun op' r hop' hr => ?_) nofun)
    fun result hresult => ?_
  · obtain rfl := Option.some.inj (hop.symm.trans hop')
    exact List.mem_of_getElem? hr
  refine Runs.bind_body (P := fun ty => ty.isGround = true)
    (typeOf_ends (fun ty hty => hin input hinput input (List.mem_singleton_self _) ty hty) nofun) fun ty hty => ?_
  refine Runs.bind_body (P := fun ty => ty.isGround = true)
    (typeOf_ends (fun ty hty => hout result hresult ty hty) nofun) fun ty' hty' => ?_
  rw [hty, hty']
  exact .pure rfl

theorem memory_spared {m : Memory} (h : m.dataType.isGround) :
    Runs False (memory o m) t fun replaced _ => replaced = false := by
  unfold memory
  rw [Ty.peel_of_isGround h]
  exact .pure rfl

theorem inst_spared (hop : t.builder.body.op? o = some op) {i : Instance}
    (h : ∀ entry, cx.modules.get? i.moduleName = some entry → ∀ e ∈ i.ports.zip op.results,
      ∀ ty, t.builder.body.ty? e.2 = some ty → ty.peel (cx.options.portsMayPreserve entry) = .ok none) :
    Runs False (inst cx o i) t fun replaced _ => replaced = false := by
  unfold inst
  split
  next entry hentry =>
    refine bind_op hop ?_
    refine (Runs.mapM (fun _ splits t' => t' = t ∧ ∀ s ∈ splits, s.2.changed = false) (i.ports.zip op.results)
      ⟨rfl, nofun⟩ ?_).bind ?_
    · rintro done e rest splits _ hl ⟨rfl, hsplits⟩
      have he : e ∈ i.ports.zip op.results := hl ▸ List.mem_append_right _ List.mem_cons_self
      refine Runs.bind_body (P := fun ty => ty.peel (cx.options.portsMayPreserve entry) = .ok none)
        (typeOf_ends (fun ty hty => h entry hentry e he ty hty) nofun) fun ty hty => ?_
      unfold InstancePort.split
      rw [hty]
      refine .pure ⟨rfl, fun s hs => ?_⟩
      rcases List.mem_append.1 hs with hs | hs
      · exact hsplits s hs
      · rw [List.mem_singleton.1 hs]
    · rintro splits _ ⟨rfl, hsplits⟩
      have hany : splits.any (·.2.changed) = false := by
        rw [List.any_eq_false]
        exact fun s hs => by simp [hsplits s hs]
      rw [hany]
      exact .pure rfl
  next => exact .throw id

/-- A step over an operation that lowering leaves alone replaces nothing. -/
theorem step_spared (hop : t.builder.body.op? o = some op) (h : t.builder.body.Spared cx op) :
    Runs False (step cx o op.kind) t fun replaced _ => replaced = false := by
  unfold Body.Spared at h
  cases hk : op.kind with
  | subfield | subindex | subaccess =>
    rw [hk] at h
    exact h.elim
  | connect strict =>
    rw [hk] at h
    exact connect_spared hop h strict
  | bitcast =>
    rw [hk] at h
    exact bitcast_spared hop h.1 h.2
  | mem m =>
    rw [hk] at h
    exact memory_spared h
  | inst i =>
    rw [hk] at h
    exact inst_spared hop h
  | «when» => exact .pure rfl
  | _ =>
    rw [hk] at h
    have hproducer := producer_spared hop h cx.options.preserveAggregate op.kind
    rw [hk] at hproducer
    exact hproducer

end Lower

end Scalarize
