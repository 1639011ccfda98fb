import Scalarize.Lower.Block
import Scalarize.Proofs.Sweep.Fills

/-!
# Lowering by one layer

* `Lower.step_spawns` : all that happens to the body is that operations fill new slots in front of the one that is
  lowered;
* `Lower.Idles`, `Lower.step_idles` : nothing happens at all if it does not give way.
-/

namespace Scalarize

open Body

namespace Lower

open Builder Build

variable {α : Type} {R : Builder → Builder → Prop} [Admits R] {S : LowerState → LowerState → Prop} [Std.Refl S]
  {t : LowerState}

theorem build_spawns {m : Build α} (h : Along Builder.Spawns m) : Along LowerState.Spawns (liftM m : Lower α) :=
  fun t => .build (h t.builder)

theorem body_along (f : Body → Except Failure α) : Along S (body f) := fun t =>
  .body (.intro (fun _ _ => refl_of S t) nofun)

theorem except_along (x : Except Failure α) : Along S (liftM x : Lower α) := fun t =>
  .build (.lift (.intro (fun _ _ => refl_of S t) nofun))

theorem change_spawns {f : Body → Except Failure Body} (h : ∀ b, Ends False (f b) b.Quiet) :
    Along LowerState.Spawns (change f) := fun t =>
  .change ((h t.builder.body).mono fun _ hq => Spawns.quiet hq)

theorem mint_spawns (f : Symbols → String × Symbols) : Along LowerState.Spawns (mint f) := fun t =>
  refl_of Builder.Spawns t.builder

theorem handUses_spawns (v w : ValueId) :
    Along LowerState.Spawns (do change (·.replaceAllUses v w); return true : Lower Bool) :=
  (change_spawns fun _ => replaceAllUses_quiet).bind fun _ => .pure _

theorem modifyDecl_spawns (o : OpId) (f : Decl → Decl) :
    Along LowerState.Spawns (change fun b => return b.modifyDecl o f) :=
  change_spawns fun b => .pure (quiet_modifyDecl b o f)

/-! ### Producers -/

theorem declarePart_spawns (decl : Decl) (part : Part) (r : Restricted) (v : ValueId) :
    Along LowerState.Spawns (declarePart decl part r v) := by
  unfold declarePart
  refine (body_along _).bind fun o? => ?_
  split
  next o =>
    split
    · exact ((mint_spawns _).bind fun _ => .pure _).bind fun _ => modifyDecl_spawns _ _
    · split
      · exact ((mint_spawns _).bind fun _ => .pure _).bind fun _ => modifyDecl_spawns _ _
      · exact (Along.pure _).bind fun _ => modifyDecl_spawns _ _
  next => exact .pure _

/-- Splitting makes the parts, and its readers are settled. -/
theorem splitProducer_spawns (o : OpId) (keep : Bool) {clone : Part → Build ValueId}
    (h : ∀ part, Along Builder.Spawns (clone part)) : Along LowerState.Spawns (splitProducer o keep clone) := by
  unfold splitProducer
  refine (body_along _).bind fun result => (body_along _).bind fun ty => (except_along _).bind fun parts? => ?_
  split
  next parts =>
    refine (body_along _).bind fun kind => Along.bind (.mapM _ fun part => ?_) fun values => ?_
    · exact (except_along _).bind fun r => (build_spawns (h part)).bind fun v =>
        (declarePart_spawns _ _ _ _).bind fun _ => .pure _
    · exact (change_spawns fun b => rewire_quiet).bind fun _ => .pure _
  next => exact .pure _

theorem firstResult_along {make : Build OpId} (h : Along R make) :
    Along R (firstResult make) :=
  h.bind fun _ => read_along _

theorem producer_spawns (o : OpId) (keep : Bool) (kind : OpKind) : Along LowerState.Spawns (producer o keep kind) := by
  cases kind with
  | wire => exact splitProducer_spawns o keep fun _ => firstResult_along (create_along rfl _ _)
  | reg =>
    exact (body_along _).bind fun _ => splitProducer_spawns o keep fun _ => firstResult_along (create_along rfl _ _)
  | regReset =>
    exact (body_along _).bind fun _ => (body_along _).bind fun _ => (body_along _).bind fun _ =>
      splitProducer_spawns o keep fun _ => (part_along _ _).bind fun _ => firstResult_along (create_along rfl _ _)
  | node =>
    exact (body_along _).bind fun _ => splitProducer_spawns o keep fun _ => (part_along _ _).bind fun _ =>
      firstResult_along ((read_along _).bind fun _ => create_along rfl _ _)
  | invalid => exact splitProducer_spawns o keep fun _ => createValue_along rfl _ _
  | mux =>
    exact (body_along _).bind fun _ => (body_along _).bind fun _ => (body_along _).bind fun _ =>
      splitProducer_spawns o keep fun _ => (part_along _ _).bind fun _ => (part_along _ _).bind fun _ =>
        mux_along _ _ _
  | multiMux =>
    refine (body_along _).bind fun op => ?_
    split
    · exact .throw _
    · exact splitProducer_spawns o keep fun _ => (Along.mapM _ fun _ => part_along _ _).bind fun _ =>
        multiMux_along _ _
  | unrealizedCast =>
    exact (body_along _).bind fun _ => splitProducer_spawns o keep fun _ => (part_along _ _).bind fun _ =>
      createValue_along rfl _ _
  | _ => exact .pure _

/-! ### Casts -/

theorem castTo_along (ty : Ty) (v : ValueId) : Along R (castTo ty v) := by
  refine (read_along _).bind fun t => ?_
  split
  · exact .pure _
  · exact createValue_along rfl _ _

theorem appendPart_along (input : ValueId) (flat : Option ValueId) (part : Part) :
    Along R (appendPart input flat part) := by
  refine (Along.lift _).bind fun width => ?_
  split
  · exact .pure _
  refine (part_along _ _).bind fun v => (castTo_along _ v).bind fun leaf => ?_
  split
  · exact .pure _
  · exact (cat_along _ _).bind fun _ => .pure _

theorem flatten_along (input : ValueId) : Along R (flatten input) := by
  refine (read_along _).bind fun t => (Along.lift _).bind fun parts? => ?_
  split
  · refine (Along.foldlM _ _ fun flat part => appendPart_along input flat part).bind fun flat => ?_
    split
    · exact .pure _
    · exact createValue_along rfl _ _
  · split
    · exact .pure _
    · exact (knownWidth_along _).bind fun _ => prim_along _ _ _

theorem slice_along (flat : ValueId) (parts : List Part) (part : Part) :
    Along R (slice flat parts part) := by
  refine (Along.lift _).bind fun width => ?_
  split
  · exact createValue_along rfl _ _
  dsimp only
  split
  · exact .throw _
  refine (bits_along _ _ _).bind fun bits => ?_
  split
  · exact .pure _
  · exact createValue_along rfl _ _

theorem bitcast_spawns (o : OpId) : Along LowerState.Spawns (bitcast o) := by
  refine (body_along _).bind fun input => (body_along _).bind fun result => (body_along _).bind fun inputTy =>
    (body_along _).bind fun resultTy => ?_
  split
  · exact .pure _
  refine (build_spawns (flatten_along _)).bind fun flat => (except_along _).bind fun parts? => ?_
  split
  · exact splitProducer_spawns o false fun _ => slice_along _ _ _
  · split
    · exact (build_spawns ((knownWidth_along _).bind fun _ => prim_along _ _ _)).bind (handUses_spawns result)
    · exact (build_spawns (castTo_along _ _)).bind (handUses_spawns result)

/-! ### Connections -/

theorem connectPart_along (strict : Bool) (dest src : ValueId) (part : Part) :
    Along R (connectPart strict dest src part) := by
  refine (part_along _ _).bind fun src => (part_along _ _).bind fun dest => ?_
  split <;> exact (connect_along _ _ _).bind fun _ => .pure _

theorem reaccess_spawns (o : OpId) (input : ValueId) : Along LowerState.Spawns (reaccess o input) := by
  refine (body_along _).bind fun kind => ?_
  split
  · exact build_spawns (subfield_along _ _)
  · exact build_spawns (subindex_along _ _)
  · exact (body_along _).bind fun _ => build_spawns (subaccess_along _ _)
  · exact .throw _

/-- The write itself is made inside a guard. -/
theorem guardedWrite_spawns (strict : Bool) (vector index src : ValueId) (width : Nat) (inner : List OpId)
    (element : Nat) : Along LowerState.Spawns (guardedWrite strict vector index src width inner element) := by
  unfold guardedWrite
  refine (build_spawns (createValue_along rfl _ _)).bind fun position =>
    (build_spawns (prim_along _ _ _)).bind fun cond => fun t => ?_
  refine .bind_build (when_runs _ cond false nofun) fun ⟨w, k, e⟩ s' ⟨hc, hp, _⟩ => ?_
  refine .bind_point (.bind_moveTo ?_)
  refine (build_spawns (subindex_along _ _) _).bind fun leaf t₁ h₁ => ?_
  refine (Along.foldlM _ _ (fun _ _ => reaccess_spawns _ _) t₁).bind fun leaf t₂ h₂ => ?_
  refine (build_spawns (connect_along _ _ _) t₂).bind fun _ t₃ h₃ => .build (.moveTo ?_)
  have hinner : Builder.Spawns ⟨s'.body, ⟨k, 0⟩⟩ t₃.builder :=
    trans_of LowerState.Spawns (trans_of LowerState.Spawns h₁ h₂) h₃
  have hk : k ∈ (OpKind.when k e).blocks := List.mem_cons_self
  have henter := Spawns.enter hc hk hinner
  rwa [Builder.after, ← hp] at henter

/-- The path of a write is made of operations that guard nothing. -/
theorem writePath_plain {b : Body} (o : OpId) :
    Ends False (b.writePath o) fun path => ∀ x ∈ path, ∃ op, b.op? x = some op ∧ op.kind.blocks = [] := by
  cases hop : b.op? o with
  | none =>
    refine Ends.bind (operand_ends (Q := fun _ => False) (fun op v hop' _ => ?_) False.elim) fun _ h => h.elim
    rw [hop] at hop'
    cases hop'
  | some op =>
    refine (writePath_leads hop).mono ?_
    rintro path ⟨v, rest, w, -, hleads, -⟩ x hx
    obtain ⟨opx, hopx, hacc⟩ := hleads.exists_accessor (List.mem_append_left rest hx)
    exact ⟨opx, hopx, OpKind.blocks_of_isAccessor hacc⟩

theorem writePath_spawns (o : OpId) (strict : Bool) : Along LowerState.Spawns (writePath o strict) := by
  intro t
  by_cases hs : t.builder.InPlace
  case neg => exact .intro (fun _ _ h => absurd h hs) nofun
  unfold writePath
  refine .bind_body (writePath_plain o) fun path hpath => ?_
  split
  next access _ =>
    refine .bind_any fun vector _ => .bind_any fun index _ => .bind_any fun src _ => .bind_any fun n _ => ?_
    refine (Along.forM _ (fun i => guardedWrite_spawns strict vector index src _ _ i) t).bind fun _ t₁ h₁ => ?_
    refine (change_spawns (fun b => dropOperands_quiet) t₁).bind fun _ t₂ h₂ => ?_
    have h : t.Spawns t₂ := trans_of LowerState.Spawns h₁ h₂
    -- new operations leave the accessors of the path as they are
    have hplain : ∀ x ∈ path, t₂.builder.body.guardedBlocks x = [] := fun x hx => by
      obtain ⟨N, hN⟩ := h hs
      obtain ⟨op, hop, hk⟩ := hpath x hx
      rw [hN.advances.guardedBlocks (by rw [hop]; rfl), guardedBlocks_eq hop, hk]
    refine .bind_change (eraseUnread_quiet hplain) fun b hq => .pure ?_
    have herase : t₂.Spawns ⟨⟨b, t₂.builder.point⟩, t₂.symbols⟩ := Spawns.quiet hq
    exact trans_of LowerState.Spawns h herase
  next => exact .pure (refl_of LowerState.Spawns t)

theorem connect_spawns (o : OpId) (strict : Bool) : Along LowerState.Spawns (connect o strict) := by
  refine (writePath_spawns o strict).bind fun r => ?_
  split
  · exact .pure _
  refine (body_along _).bind fun dest => (body_along _).bind fun src => (body_along _).bind fun ty =>
    (except_along _).bind fun parts? => ?_
  split
  · exact (Along.forM _ fun part => build_spawns (connectPart_along strict dest src part)).bind fun _ => .pure _
  · exact .pure _

theorem subaccess_spawns (o : OpId) : Along LowerState.Spawns (subaccess o) := by
  refine (body_along _).bind fun input => (body_along _).bind fun index => (body_along _).bind fun result =>
    (body_along _).bind fun en => ?_
  dsimp only
  split
  · exact (build_spawns (createValue_along rfl _ _)).bind (handUses_spawns result)
  refine (body_along _).bind fun literal? => ?_
  split
  · exact (build_spawns (subindex_along _ _)).bind (handUses_spawns result)
  · exact (Along.mapM _ fun _ => build_spawns (subindex_along _ _)).bind fun _ =>
      (build_spawns (multiMux_along _ _)).bind (handUses_spawns result)

/-! ### Memories and instances -/

theorem portWires_spawns (o : OpId) (m : Memory) : Along LowerState.Spawns (portWires o m) :=
  Along.mapM _ fun _ => (build_spawns (create_along rfl _ _)).bind fun _ => (body_along _).bind fun _ =>
    (change_spawns fun _ => .bind_ok fun _ _ => replaceAllUses_quiet).bind fun _ => .pure _

theorem narrowMemory_spawns (m : Memory) (part : Part) : Along LowerState.Spawns (narrowMemory m part) := by
  refine (except_along _).bind fun memory => (build_spawns (create_along rfl _ _)).bind fun o => ?_
  split
  · exact (mint_spawns _).bind fun _ => (modifyDecl_spawns _ _).bind fun _ => .pure _
  · exact .pure _

theorem joinField_spawns (wire : ValueId) (port : Nat) (memories : List (Part × OpId)) (field : Field)
    (position : Nat) : Along LowerState.Spawns (joinField wire port memories field position) := by
  refine (build_spawns (subfield_along _ _)).bind fun whole => Along.forM _ fun (part, memory) => ?_
  dsimp only
  split
  · refine (build_spawns (part_along _ _)).bind fun leaf => (body_along _).bind fun newPort =>
      (build_spawns (subfield_along _ _)).bind fun newField => ?_
    split <;> exact (build_spawns (connect_along _ _ _)).bind fun _ => .pure _
  · exact (body_along _).bind fun newPort => (build_spawns (subfield_along _ _)).bind fun newField =>
      (build_spawns (connect_along _ _ _)).bind fun _ => .pure _

theorem memory_spawns (o : OpId) (m : Memory) : Along LowerState.Spawns (memory o m) := by
  refine (except_along _).bind fun parts? => ?_
  split
  · refine (portWires_spawns o m).bind fun wires => Along.bind (.mapM _ fun part => ?_) fun memories => ?_
    · exact (narrowMemory_spawns m part).bind fun _ => .pure _
    · exact (Along.forM _ fun _ => Along.forM _ fun _ => joinField_spawns _ _ _ _ _).bind fun _ => .pure _
  · exact .pure _

theorem inst_spawns (cx : Context) (o : OpId) (i : Instance) : Along LowerState.Spawns (inst cx o i) := by
  unfold inst
  split
  next entry _ =>
    refine (body_along _).bind fun op => Along.bind (.mapM _ fun _ => ?_) fun splits => ?_
    · exact (body_along _).bind fun _ => (except_along _).bind fun _ => .pure _
    dsimp only
    split
    · exact .pure _
    have hnew : ∀ sym, Along LowerState.Spawns (do
        let new ← Build.inst { i with decl := { i.decl with sym }, ports := splits.flatMap (·.2.ports) }
          (splits.flatMap (·.2.types))
        let newResults := (← body (·.op new)).results
        change (Body.handOver splits newResults)
        return true : Lower Bool) := fun sym =>
      (build_spawns (create_along rfl _ _)).bind fun new => (body_along _).bind fun _ =>
        (change_spawns fun b => handOver_quiet).bind fun _ => .pure _
    split
    · exact ((mint_spawns _).bind fun _ => .pure _).bind hnew
    · exact (Along.pure _).bind hnew
  next => exact .throw _

/-- All that lowering an operation by one layer does is that operations fill new slots in front of it. -/
theorem step_spawns (cx : Context) (o : OpId) (kind : OpKind) : Along LowerState.Spawns (step cx o kind) := by
  unfold step
  split
  · exact bitcast_spawns o
  · exact subaccess_spawns o
  · exact connect_spawns o _
  · exact memory_spawns o _
  · exact inst_spawns cx o _
  · exact producer_spawns o _ _

/-! ### Operations that stay -/

/-- The computation changes nothing if it returns `false`. -/
def Idles (m : Lower Bool) : Prop := ∀ t, Runs False m t fun r t' => r = false → t' = t

namespace Idles

theorem answer (r : Bool) : Idles (pure r) := fun _ => .pure fun _ => rfl

theorem read {f : Body → Except Failure α} {g : α → Lower Bool} (h : ∀ a, Idles (g a)) : Idles (body f >>= g) :=
  fun t => .bind_any fun a _ => h a t

theorem check {x : Except Failure α} {g : α → Lower Bool} (h : ∀ a, Idles (g a)) :
    Idles ((liftM x : Lower α) >>= g) := fun t =>
  .bind_except (P := fun _ => True) (.intro (fun _ _ => trivial) nofun) fun a _ => h a t

/-- The operation gives way. -/
theorem replaced {m : Lower α} {g : α → Lower Bool} (h : ∀ a t, Runs False (g a) t fun r _ => r = true) :
    Idles (m >>= g) := fun t =>
  .bind_ok fun a t' => (h a t').mono fun r _ hr hf => by rw [hr] at hf; cases hf

theorem replaced_last (m : Lower α) : Idles (do let _ ← m; return true) := replaced fun _ _ => .pure rfl

end Idles

theorem splitProducer_idles (o : OpId) (keep : Bool) (clone : Part → Build ValueId) :
    Idles (splitProducer o keep clone) := by
  refine .read fun result => .read fun ty => .check fun parts? => ?_
  split
  · exact .read fun kind => .replaced fun _ _ => .bind_ok fun _ _ => .pure rfl
  · exact .answer false

/-- A result with parts is split. -/
theorem splitProducer_answers {o : OpId} {keep : Bool} (clone : Part → Build ValueId) {r : ValueId} {ty : Ty}
    {parts : List Part} (hr : t.builder.body.result o 0 = .ok r) (hty : t.builder.body.typeOf r = .ok ty)
    (hparts : ty.peel keep = .ok (some parts)) :
    Runs False (splitProducer o keep clone) t fun replaced _ => replaced = true := by
  refine .bind_body (P := (r = ·)) (.of_eq_ok hr rfl) ?_
  rintro _ rfl
  refine .bind_body (P := (ty = ·)) (.of_eq_ok hty rfl) ?_
  rintro _ rfl
  refine .bind_except (P := (some parts = ·)) (.of_eq_ok hparts rfl) ?_
  rintro _ rfl
  refine .bind_any fun kind _ => .bind_ok fun _ _ => ?_
  exact .bind_ok fun _ _ => .pure rfl

theorem producer_idles (o : OpId) (keep : Bool) (kind : OpKind) : Idles (producer o keep kind) := by
  cases kind with
  | wire | invalid => exact splitProducer_idles _ _ _
  | reg | node | unrealizedCast => exact .read fun _ => splitProducer_idles _ _ _
  | regReset | mux => exact .read fun _ => .read fun _ => .read fun _ => splitProducer_idles _ _ _
  | multiMux =>
    refine .read fun op => ?_
    split
    · exact fun _ => .throw id
    · exact splitProducer_idles _ _ _
  | _ => exact .answer false

/-- A cast that is flattened gives way: its result is as it was. -/
theorem bitcast_idles (o : OpId) : Idles (bitcast o) := by
  intro t
  refine .bind_any fun input _ => .bind_any fun result hr => .bind_any fun inputTy _ => .bind_any fun resultTy hty => ?_
  split
  · exact .pure fun _ => rfl
  refine .bind_build (flatten_along (R := fun s s' => s.body.Extends s'.body) input t.builder) fun flat s' hext => ?_
  have hr' : s'.body.result o 0 = .ok result := by
    obtain ⟨op, hop, hv⟩ : ∃ op, t.builder.body.op? o = some op ∧ op.results[0]? = some result :=
      (result_ends (Q := fun v => ∃ op, t.builder.body.op? o = some op ∧ op.results[0]? = some v)
        (fun op _ hop hv => ⟨op, hop, hv⟩) (nofun : False → _)).of_ok hr
    obtain ⟨op', hop', -, -, hres, -⟩ := hext.op? hop
    exact result_eq_ok hop' (hres ▸ hv)
  have hty' : s'.body.typeOf result = .ok resultTy :=
    typeOf_eq_ok (hext.ty?_some ((typeOf_ends (fun _ h => h) (nofun : False → _)).of_ok hty))
  refine .bind_except (P := fun parts? => resultTy.peel false = .ok parts?) (.intro (fun _ h => h) nofun)
    fun parts? hparts => ?_
  split
  next parts =>
    exact (splitProducer_answers _ hr' hty' hparts).mono fun r _ hr hf => by rw [hr] at hf; cases hf
  next =>
    split
    · exact .bind_ok fun v t' => .bind_ok fun _ _ => .pure nofun
    · exact .bind_ok fun v t' => .bind_ok fun _ _ => .pure nofun

theorem writePath_idles (o : OpId) (strict : Bool) : Idles (writePath o strict) := by
  refine .read fun path => ?_
  split
  · exact .read fun _ => .read fun _ => .read fun _ => .read fun _ => .replaced fun _ _ =>
      .bind_ok fun _ _ => .bind_ok fun _ _ => .pure rfl
  · exact .answer false

theorem connect_idles (o : OpId) (strict : Bool) : Idles (connect o strict) := by
  intro t
  refine (writePath_idles o strict t).bind fun r t' hr => ?_
  split
  · exact .pure nofun
  next hf =>
    rw [hr (Bool.eq_false_iff.2 hf)]
    refine Idles.read (fun dest => .read fun src => .read fun ty => .check fun parts? => ?_) t
    split
    · exact .replaced_last _
    · exact .answer false

theorem subaccess_idles (o : OpId) : Idles (subaccess o) := by
  refine .read fun input => .read fun index => .read fun result => .read fun en => ?_
  dsimp only
  split
  · exact .replaced fun _ _ => .bind_ok fun _ _ => .pure rfl
  refine .read fun literal? => ?_
  split
  · exact .replaced fun _ _ => .bind_ok fun _ _ => .pure rfl
  · exact .replaced fun _ _ => .bind_ok fun _ _ => .bind_ok fun _ _ => .pure rfl

theorem memory_idles (o : OpId) (m : Memory) : Idles (memory o m) := by
  refine .check fun parts? => ?_
  split
  · exact .replaced fun _ _ => .bind_ok fun _ _ => .bind_ok fun _ _ => .pure rfl
  · exact .answer false

theorem inst_idles (cx : Context) (o : OpId) (i : Instance) : Idles (inst cx o i) := by
  intro t
  unfold inst
  split
  next entry _ =>
    refine .bind_any fun op _ => ?_
    refine Runs.bind (Along.mapM (R := Eq) _ (fun _ => (body_along _).bind fun _ => (except_along _).bind fun _ =>
      .pure _) t) fun splits t' ht => ?_
    subst ht
    dsimp only
    split
    · exact .pure fun _ => rfl
    split <;> exact .bind_ok fun _ _ => .bind_ok fun _ _ => .bind_ok fun _ _ => .bind_ok fun _ _ => .pure nofun
  next => exact .throw id

theorem step_idles (cx : Context) (o : OpId) (kind : OpKind) : Idles (step cx o kind) := by
  unfold step
  split
  · exact bitcast_idles o
  · exact subaccess_idles o
  · exact connect_idles o _
  · exact memory_idles o _
  · exact inst_idles cx o _
  · exact producer_idles o _ _

end Lower

end Scalarize
