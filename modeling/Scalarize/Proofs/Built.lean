import Scalarize.Proofs.Arguments

/-!
# Bodies built by the typed functions

* `Build.Call`, `Build.Call.run` : a call of a typed building function;
* `Builder.Built` : what calls make of the empty body of a module; `Module.Built`, `Circuit.Built`;
* `Build.Call.run_ends` : a call makes one operation, shaped as its kind asks;
* `Builder.Built.sound` : what holds of every body so built.
-/

namespace Scalarize

open Body

/-! ## Calls -/

/-- A call of a typed building function. -/
inductive Build.Call where
  | moveTo (point : Point)
  | wire (ty : Ty) (decl : Decl)
  | reg (ty : Ty) (clock : ValueId) (decl : Decl)
  | regReset (ty : Ty) (clock reset init : ValueId) (decl : Decl)
  | node (input : ValueId) (decl : Decl)
  | mem (memory : Memory)
  | inst (inst : Instance) (types : List Ty)
  | constant (ty : Ty) (value : Nat)
  | invalid (ty : Ty)
  | subfield (input : ValueId) (index : Nat)
  | subindex (input : ValueId) (index : Nat)
  | subaccess (input index : ValueId)
  | part (input : ValueId) (index : Nat)
  | mux (sel high low : ValueId)
  | multiMux (index : ValueId) (inputs : List ValueId)
  | bitcast (ty : Ty) (input : ValueId)
  | unrealizedCast (ty : Ty) (input : ValueId)
  | prim (p : Prim) (operands : List ValueId) (ty : Ty)
  | eq (lhs rhs : ValueId)
  | cat (high low : ValueId)
  | bits (input : ValueId) (hi lo : Nat)
  | asUInt (input : ValueId)
  | asSInt (input : ValueId)
  | connect (strict : Bool) (dest src : ValueId)
  | when (cond : ValueId) (withElse : Bool)

/-- Makes the call. What it returns can be read off the body. -/
def Build.Call.run : Build.Call → Build Unit
  | .moveTo p => Build.moveTo p
  | .wire ty d => (fun _ => ()) <$> Build.wire ty d
  | .reg ty clock d => (fun _ => ()) <$> Build.reg ty clock d
  | .regReset ty clock reset init d => (fun _ => ()) <$> Build.regReset ty clock reset init d
  | .node input d => (fun _ => ()) <$> Build.node input d
  | .mem m => (fun _ => ()) <$> Build.mem m
  | .inst i types => (fun _ => ()) <$> Build.inst i types
  | .constant ty value => (fun _ => ()) <$> Build.constant ty value
  | .invalid ty => (fun _ => ()) <$> Build.invalid ty
  | .subfield input i => (fun _ => ()) <$> Build.subfield input i
  | .subindex input i => (fun _ => ()) <$> Build.subindex input i
  | .subaccess input index => (fun _ => ()) <$> Build.subaccess input index
  | .part input i => (fun _ => ()) <$> Build.part input i
  | .mux sel high low => (fun _ => ()) <$> Build.mux sel high low
  | .multiMux index inputs => (fun _ => ()) <$> Build.multiMux index inputs
  | .bitcast ty input => (fun _ => ()) <$> Build.bitcast ty input
  | .unrealizedCast ty input => (fun _ => ()) <$> Build.unrealizedCast ty input
  | .prim p operands ty => (fun _ => ()) <$> Build.prim p operands ty
  | .eq lhs rhs => (fun _ => ()) <$> Build.eq lhs rhs
  | .cat high low => (fun _ => ()) <$> Build.cat high low
  | .bits input hi lo => (fun _ => ()) <$> Build.bits input hi lo
  | .asUInt input => (fun _ => ()) <$> Build.asUInt input
  | .asSInt input => (fun _ => ()) <$> Build.asSInt input
  | .connect strict dest src => (fun _ => ()) <$> Build.connect strict dest src
  | .when cond withElse => (fun _ => ()) <$> Build.when cond withElse

/-- The empty body of a module with ports of these types. -/
def Body.ofPorts (types : List Ty) : Except Failure Body :=
  types.foldlM (fun b ty => (·.2) <$> b.addArgument ty) {}

/-- What calls make of the empty body of a module with ports of these types. -/
inductive Builder.Built (types : List Ty) : Builder → Prop
  | start {b : Body} (p : Point) (h : Body.ofPorts types = .ok b) : Built types ⟨b, p⟩
  | call {s s' : Builder} (c : Build.Call) (h : Built types s) (hc : c.run.run s = .ok ((), s')) :
      Built types s'

/-- The body of the module is made by calls of typed building functions. -/
def Module.Built (m : Module) : Prop :=
  ∀ {b}, m.body = some b → ∃ p, Builder.Built (m.ports.map (·.ty)) ⟨b, p⟩

/-- The bodies of all modules are made by calls of typed building functions. -/
def Circuit.Built (c : Circuit) : Prop := ∀ m ∈ c.modules, m.Built

/-! ## What one call makes -/

/-- The types of operands and results that the typed functions give an operation of a kind. -/
def OpKind.Exact : OpKind → List Ty → List Ty → Prop
  | node _, ins, outs => ∃ t, ins = [t] ∧ outs = [t]
  | mux, ins, outs => ∃ s t u, ins = [s, t, u] ∧ outs = [t]
  | multiMux, ins, outs => ∃ x t rest, ins = x :: t :: rest ∧ outs = [t]
  | kind, ins, outs => kind.Shaped False ins outs

theorem OpKind.Exact.shaped {kind : OpKind} {ins outs : List Ty} (h : kind.Exact ins outs) :
    kind.Shaped False ins outs := by
  cases kind with
  | node =>
    obtain ⟨t, rfl, rfl⟩ := h
    exact ⟨t, t, rfl, rfl, .refl t⟩
  | mux =>
    obtain ⟨s, t, u, rfl, rfl⟩ := h
    exact ⟨s, t, u, t, rfl, rfl, .refl t⟩
  | multiMux =>
    obtain ⟨x, t, rest, rfl, rfl⟩ := h
    exact ⟨x, t, rest, t, rfl, rfl, .refl t⟩
  | _ => exact h

/-- One operation is new, and it is shaped as its kind asks. -/
def Builder.Adds (s s' : Builder) : Prop :=
  ∃ kind vs ins tys o, Created s.body s.point kind vs tys o s'.body ∧ s.body.Types vs ins ∧
    kind.Exact ins tys

namespace Build

variable {must : Prop} {s : Builder} {α : Type}

theorem create_ends {kind : OpKind} {vs : List ValueId} {tys : List Ty} (hk : kind.blocks = [])
    (hs : ∀ ins, s.body.Types vs ins → kind.Exact ins tys) :
    Runs False (create kind vs tys) s fun _ s' => s.Adds s' := by
  obtain ⟨body, point⟩ := s
  refine Ends.bind (insertOp_ends (nofun : False → _)) fun r hr => .pure ?_
  have htypes : body.Types vs (vs.map fun v => (body.ty? v).getD default) := by
    refine List.forall₂_map_right_iff.2 (List.forall₂_same.2 fun v hv => ?_)
    obtain ⟨t, ht⟩ := Option.isSome_iff_exists.1 (isSome_ty?.2 (hr.operands_lt v hv))
    rw [ht]
    rfl
  exact ⟨kind, vs, _, tys, r.1, hr.created hk, htypes, hs _ htypes⟩

theorem createValue_ends {kind : OpKind} {vs : List ValueId} {ty : Ty} (hk : kind.blocks = [])
    (hs : ∀ ins, s.body.Types vs ins → kind.Exact ins [ty]) :
    Runs False (createValue kind vs ty) s fun _ s' => s.Adds s' :=
  (create_ends hk hs).bind fun _ _ h => .read (.intro (fun _ _ => h) nofun)

/-- A list of one value has one type. -/
theorem types_cons {v : ValueId} {vs : List ValueId} {ins : List Ty} (h : s.body.Types (v :: vs) ins) :
    ∃ t ts, ins = t :: ts ∧ s.body.ty? v = some t ∧ s.body.Types vs ts := by
  cases h with
  | cons ht hts => exact ⟨_, _, rfl, ht, hts⟩

theorem types_nil {ins : List Ty} (h : s.body.Types [] ins) : ins = [] := by
  cases h
  rfl

theorem prim_ends {p : Prim} {vs : List ValueId} {ty : Ty} :
    Runs False (prim p vs ty) s fun _ s' => s.Adds s' :=
  createValue_ends rfl fun _ _ => ⟨ty, rfl, nofun⟩

theorem subfield_ends {input : ValueId} {i : Nat} :
    Runs False (subfield input i) s fun _ s' => s.Adds s' := by
  refine Grows.bind_typeOf nofun fun t ht => ?_
  split
  · split
    next f hf =>
      refine createValue_ends rfl fun ins hins => ?_
      obtain ⟨t, ts, rfl, ht', hts⟩ := types_cons hins
      obtain rfl := types_nil hts
      obtain rfl := Option.some.inj (ht.symm.trans ht')
      exact ⟨_, f, rfl, hf, rfl⟩
    next => exact .throw id
  · exact .throw id

theorem subindex_ends {input : ValueId} {i : Nat} :
    Runs False (subindex input i) s fun _ s' => s.Adds s' := by
  refine Grows.bind_typeOf nofun fun t ht => ?_
  split
  · split
    next e n hi =>
      refine createValue_ends rfl fun ins hins => ?_
      obtain ⟨t, ts, rfl, ht', hts⟩ := types_cons hins
      obtain rfl := types_nil hts
      obtain rfl := Option.some.inj (ht.symm.trans ht')
      exact ⟨e, n, rfl, hi, rfl⟩
    next => exact .throw id
  · exact .throw id

/-- Every call makes one operation, or none. -/
theorem Call.run_ends (c : Call) :
    Runs False c.run s fun _ s' => s.Adds s' ∨ s'.body = s.body := by
  have made : ∀ {α : Type} {m : Build α}, (Runs False m s fun _ s' => s.Adds s') →
      Runs False ((fun _ => ()) <$> m) s fun _ s' => s.Adds s' ∨ s'.body = s.body :=
    fun h => .map (h.mono fun _ _ => .inl)
  cases c with
  | moveTo p => exact .moveTo (.inr rfl)
  | wire ty d => exact made (create_ends rfl fun ins h => ⟨types_nil h, ty, rfl⟩)
  | reg ty clock d =>
    refine made (create_ends rfl fun ins h => ?_)
    obtain ⟨t, _, rfl, -, h⟩ := types_cons h
    obtain rfl := types_nil h
    exact ⟨t, ty, rfl, rfl⟩
  | regReset ty clock reset init d =>
    refine made (create_ends rfl fun ins h => ?_)
    obtain ⟨c, _, rfl, -, h⟩ := types_cons h
    obtain ⟨r, _, rfl, -, h⟩ := types_cons h
    obtain ⟨i, _, rfl, -, h⟩ := types_cons h
    obtain rfl := types_nil h
    exact ⟨c, r, i, ty, rfl, rfl⟩
  | node input d =>
    refine made (Grows.bind_typeOf nofun fun t ht => create_ends rfl fun ins h => ?_)
    obtain ⟨t', _, rfl, ht', h⟩ := types_cons h
    obtain rfl := types_nil h
    obtain rfl := Option.some.inj (ht.symm.trans ht')
    exact ⟨t, rfl, rfl⟩
  | mem m => exact made (create_ends rfl fun ins h => ⟨types_nil h, rfl⟩)
  | inst i types => exact made (create_ends rfl fun ins h => ⟨types_nil h, nofun⟩)
  | constant ty value => exact made (createValue_ends rfl fun ins h => ⟨types_nil h, ty, rfl, nofun⟩)
  | invalid ty => exact made (createValue_ends rfl fun ins h => ⟨types_nil h, ty, rfl⟩)
  | subfield input i => exact made subfield_ends
  | subindex input i => exact made subindex_ends
  | subaccess input index =>
    refine made (Grows.bind_typeOf nofun fun t ht => ?_)
    split
    next e n =>
      refine createValue_ends rfl fun ins h => ?_
      obtain ⟨t, _, rfl, ht', h⟩ := types_cons h
      obtain ⟨x, _, rfl, -, h⟩ := types_cons h
      obtain rfl := types_nil h
      obtain rfl := Option.some.inj (ht.symm.trans ht')
      exact ⟨e, n, x, rfl, rfl⟩
    next => exact .throw id
  | part input i =>
    refine made (Grows.bind_typeOf nofun fun t _ => ?_)
    split
    · exact subfield_ends
    · exact subindex_ends
    · exact .throw id
  | mux sel high low =>
    refine made (Grows.bind_typeOf nofun fun t ht => createValue_ends rfl fun ins h => ?_)
    obtain ⟨x, _, rfl, -, h⟩ := types_cons h
    obtain ⟨t', _, rfl, ht', h⟩ := types_cons h
    obtain ⟨u, _, rfl, -, h⟩ := types_cons h
    obtain rfl := types_nil h
    obtain rfl := Option.some.inj (ht.symm.trans ht')
    exact ⟨x, t, u, rfl, rfl⟩
  | multiMux index inputs =>
    refine made ?_
    cases inputs with
    | nil => exact .throw id
    | cons first rest =>
      refine Grows.bind_typeOf nofun fun t ht => createValue_ends rfl fun ins h => ?_
      obtain ⟨x, _, rfl, -, h⟩ := types_cons h
      obtain ⟨t', ts, rfl, ht', h⟩ := types_cons h
      obtain rfl := Option.some.inj (ht.symm.trans ht')
      exact ⟨x, t, ts, rfl, rfl⟩
  | bitcast ty input | unrealizedCast ty input =>
    refine made (createValue_ends rfl fun ins h => ?_)
    obtain ⟨t, _, rfl, -, h⟩ := types_cons h
    obtain rfl := types_nil h
    exact ⟨t, ty, rfl, rfl⟩
  | prim p operands ty => exact made prim_ends
  | eq lhs rhs => exact made prim_ends
  | cat high low =>
    refine made (Grows.bind_knownWidth nofun fun _ _ _ _ _ =>
      Grows.bind_knownWidth nofun fun _ _ _ _ _ => ?_)
    dsimp only
    split
    · exact prim_ends
    · exact .throw id
  | bits input hi lo =>
    refine made ?_
    unfold Build.bits
    split
    · exact .throw id
    · exact prim_ends
  | asUInt input => exact made (Grows.bind_knownWidth nofun fun _ _ _ _ _ => prim_ends)
  | asSInt input => exact made (Grows.bind_knownWidth nofun fun _ _ _ _ _ => prim_ends)
  | connect strict dest src =>
    refine made (create_ends rfl fun ins h => ?_)
    obtain ⟨d, _, rfl, -, h⟩ := types_cons h
    obtain ⟨t, _, rfl, -, h⟩ := types_cons h
    obtain rfl := types_nil h
    exact ⟨d, t, rfl, rfl⟩
  | when cond withElse =>
    refine made ((when_runs s cond withElse nofun).mono fun r s' h => ?_)
    obtain ⟨t, ht⟩ := Option.isSome_iff_exists.1
      (isSome_ty?.2 (h.1.operands_lt cond List.mem_cons_self))
    exact ⟨_, _, _, _, _, h.1, .cons ht .nil, t, rfl, rfl⟩

end Build

/-! ## What holds of every body so built -/

/-- The arguments have these types, nothing is erased, and operations are shaped as their kinds ask. -/
structure Body.Sound (types : List Ty) (b : Body) : Prop where
  coherent : b.Coherent
  unerased : ∀ {x op}, b.op? x = some op → op.erased = false
  typed : b.Typed OpKind.Exact
  args : b.Types b.args types
  argument : ∀ {v}, b.origin? v = some .argument → v ∈ b.args

namespace Body.Sound

variable {b b' : Body} {types : List Ty}

theorem block?_empty {k : BlockId} {blk : Block} (h : ({} : Body).block? k = some blk) :
    k = Body.entry ∧ blk = {} := by
  obtain ⟨hlt, hblk⟩ := Array.getElem?_eq_some_iff.1 (show (#[{}] : Array Block)[k.index]? = _ from h)
  have hk : k.index = 0 := by simpa using hlt
  refine ⟨congrArg BlockId.mk hk, ?_⟩
  simp only [hk] at hblk
  exact hblk.symm

theorem empty : Sound [] {} where
  coherent :=
    { uses := fun hv => nomatch hv
      nodup_uses := fun hv => nomatch hv
      operand := fun ho => nomatch ho
      result := fun ho => nomatch ho
      origin := fun hv => nomatch hv
      slot := fun ho => nomatch ho
      slots := fun hk ho => by
        rw [(block?_empty hk).2] at ho
        cases ho
      nodup_slots := fun hk => by
        rw [(block?_empty hk).2]
        exact .nil
      erased := fun ho => nomatch ho
      args := nofun
      nodup_args := .nil
      guards := fun ho => nomatch ho
      nodup_guards := fun ho => nomatch ho
      parent := fun hk hp => by
        rw [(block?_empty hk).2] at hp
        cases hp
      entry := ⟨_, rfl, rfl⟩
      guarded := fun hk hne => absurd (block?_empty hk).1 hne }
  unerased ho := nomatch ho
  typed ho := nomatch ho
  args := .nil
  argument hv := nomatch hv

/-- A new argument stands behind the others. -/
theorem addArgument (h : b.Sound types) (ty : Ty) :
    Ends True (b.addArgument ty) fun r => r.2.Sound (types ++ [ty]) := by
  refine (insertArgument_ends fun _ => Nat.le_refl _).mono ?_
  rintro ⟨v, b'⟩ ⟨hr, rfl, hargs, -⟩
  have hb := hr.coherent_insert h.coherent hargs
  dsimp only at hr hargs hb ⊢
  rw [List.insertIdx_length_self] at hargs
  have hnew : b'.value? ⟨b.values.size⟩ = some ⟨ty, .argument, []⟩ := hr.value?_new 0
  refine ⟨hb, fun hop => h.unerased (hr.op? _ ▸ hop), fun {x op} hop he => ?_, ?_, fun {v} hv => ?_⟩
  · obtain ⟨ins, outs, hin, hout, hsh⟩ := h.typed (hr.op? x ▸ hop) he
    exact ⟨ins, outs, hr.toExtends.types hin, hr.toExtends.types hout, hsh⟩
  · rw [hargs]
    exact List.rel_append (hr.toExtends.types h.args) (.cons (ty?_eq_some_iff.2 ⟨_, hnew, rfl⟩) .nil)
  · rw [hargs]
    obtain ⟨x, hx, ho⟩ := origin?_eq_some_iff.1 hv
    rcases hr.value_cases hx with hx | ⟨j, t, hj, rfl, -⟩
    · exact List.mem_append_left _ (h.argument (origin?_eq_some_iff.2 ⟨x, hx, ho⟩))
    · obtain rfl : j = 0 := by
        have := (List.getElem?_eq_some_iff.1 hj).1
        simpa using this
      simp

/-- A body with arguments only. -/
theorem ofPorts_ends (types : List Ty) : Ends True (Body.ofPorts types) fun b => b.Sound types :=
  Ends.foldlM (fun done (b : Body) => b.Sound done) types empty fun _ ty _ _ _ h =>
    .map ((h.addArgument ty).mono fun _ h => h)

/-- A new operation keeps it all. -/
theorem created (h : b.Sound types) {p : Point} {kind : OpKind} {vs : List ValueId} {ins tys : List Ty}
    {o : OpId} (hc : Created b p kind vs tys o b') (hins : b.Types vs ins)
    (hs : kind.Exact ins tys) : b'.Sound types where
  coherent := h.coherent.created hc
  unerased hop := by
    rcases hc.op?_cases hop with hop | ⟨-, rfl⟩
    · exact h.unerased hop
    · rfl
  typed {x op} hop he := by
    rcases hc.op?_cases hop with hop | ⟨rfl, rfl⟩
    · obtain ⟨ins, outs, hin, hout, hsh⟩ := h.typed hop he
      exact ⟨ins, outs, hc.extended.types hin, hc.extended.types hout, hsh⟩
    · exact ⟨ins, tys, hc.extended.types hins, hc.types_results, hs⟩
  args := hc.args ▸ hc.extended.types h.args
  argument hv := hc.args ▸ h.argument (hc.local.argument hv)

end Body.Sound

theorem Builder.Built.sound {types : List Ty} {s : Builder} (h : Builder.Built types s) :
    s.body.Sound types := by
  induction h with
  | start p h => exact (Body.Sound.ofPorts_ends _).of_ok h
  | call c _ hc ih =>
    rcases (Build.Call.run_ends c).of_ok hc with ⟨kind, vs, ins, tys, o, hmade, hins, hs⟩ | he
    · exact ih.created hmade hins hs
    · exact he ▸ ih

end Scalarize
