import Scalarize.Proofs.Body.Scope
import Scalarize.Proofs.Completeness
import Scalarize.Proofs.Edits.Ports

/-!
# Scopes in lowered modules

* `Body.InScope.edits` : every edit by which an operation is lowered keeps scopes;
* `Body.InScope.splitArgument_ends` : so does splitting an argument;
* `Module.InScope`, `Module.inScope_lower` : a module whose operations read what is in scope is lowered
  into such a module.
-/

namespace Scalarize

open Body

namespace Body.InScope

variable {cx : Context} {b₀ b b' : Body} {o x : OpId} {op : Operation} {k : BlockId} {A B : List OpId}
  {t : LowerState} {ps : List Part} {p : Point} {v w : ValueId}

/-! ## One operation -/

/-- Results of `o`, and of what stands behind it, may give way. -/
def Behind (o : OpId) (b : Body) (x : OpId) : Prop := x = o ∨ (b.Walked x → b.Precedes o x)

/-- In front of `o`, operations were made that read what is in scope. -/
def Front (b₀ : Body) (o : OpId) (k : BlockId) (A B : List OpId) (ps : List Part) (t : LowerState) : Prop :=
  Tidy.Front b₀ o k A B ps t ∧ t.builder.body.InScope

/-- The same with a guard as the last of them, in whose block operations are made. -/
def Inside (b₀ : Body) (o : OpId) (k : BlockId) (A B : List OpId) (ps : List Part) (p : Point)
    (t : LowerState) : Prop :=
  Tidy.Inside b₀ o k A B ps p t ∧ t.builder.body.InScope

theorem Front.coherent (h : Front b₀ o k A B ps t) : t.builder.body.Coherent := by
  obtain ⟨⟨_, _, -, hg⟩, -⟩ := h
  exact hg.edited.coherent

/-- The point lies right in front of `o`. -/
theorem Front.precedes_iff (h : Front b₀ o k A B ps t) {d : OpId} :
    t.builder.body.Precedes d o ↔ t.builder.body.Before d t.builder.point := by
  have hb := h.coherent
  obtain ⟨⟨H, N, hH, -⟩, -⟩ := h
  rw [hb.precedes_iff_before hH.slots, hH.point]

theorem Front.exposed (h : Front b₀ o k A B ps t) (hb₀ : b₀.Coherent) (hk : b₀.Exposed k) :
    t.builder.body.Exposed t.builder.point.block := by
  have hb := h.coherent
  obtain ⟨⟨H, N, hH, hg⟩, -⟩ := h
  rw [hH.point]
  exact hg.guardsStay.exposed hb₀ hb hk

theorem Inside.coherent (h : Inside b₀ o k A B ps p t) : t.builder.body.Coherent := by
  obtain ⟨⟨_, _, _, _, _, _, -, hg, -⟩, -⟩ := h
  exact hg.edited.coherent

theorem Inside.exposed (h : Inside b₀ o k A B ps p t) (hb₀ : b₀.Coherent) (hk : b₀.Exposed k) :
    t.builder.body.Exposed t.builder.point.block := by
  have hb := h.coherent
  obtain ⟨⟨H, w, kt, N, G, NG, hG, hg, hp⟩, -⟩ := h
  obtain ⟨opw, hopw⟩ := Option.isSome_iff_exists.1 (hG.outer.known w (by simp))
  have hkt : kt ∈ t.builder.body.guardedBlocks w := by simp [hG.guards]
  rw [hG.point]
  refine .inr ⟨w, (hg.guardsStay.exposed hb₀ hb hk).walked ?_ ?_, hkt⟩
  · have := hG.outer.slots
    dsimp only at this
    simp [this]
  · -- the guard is new, so it was not erased
    rw [stands_eq, hopw]
    cases he : opw.erased with
    | false => simp [he]
    | true =>
      rw [guardedBlocks_eq hopw] at hkt
      obtain ⟨op₀, hop₀, -⟩ := hg.guards hopw he (List.ne_nil_of_mem hkt)
      rw [hG.outer.fresh w (by simp)] at hop₀
      cases hop₀

/-- With a value that is visible at a point, so is what its operation reads. -/
theorem through (hb : b.Coherent) (h : b.InScope) (hp : b.Exposed p.block) (hv : b.VisibleAt p v) {d : OpId}
    {i : Nat} (hd : b.origin? v = some (.result d i)) {opd : Operation} (hop : b.op? d = some opd)
    (hw : w ∈ opd.operands) : b.VisibleAt p w := by
  obtain ⟨hs, hbefore⟩ := hv.of_origin hb hd
  exact .of_visible hb hbefore (h _ _ _ (hbefore.walked hb hp hs) hop hw)

/-- Readers of what stands behind an operation stand behind it. -/
theorem precedes_of_reads (hb : b.Coherent) (h : b.InScope) (hx : Behind o b x) {i : Nat}
    (hv : b.origin? v = some (.result x i)) {u : OpId} (hu : b.Walked u) (hr : b.Reads u v) :
    b.Precedes o u := by
  obtain ⟨opu, hop, hmem⟩ := hr
  obtain ⟨hs, hprec⟩ := (h _ _ _ hu hop hmem).of_origin hb hv
  rcases hx with rfl | hx
  · exact hprec
  · exact (hx (hprec.walked hb hu hs)).trans hb hprec

/-- An operation behind the point is not needed for what is visible at the point. -/
theorem Front.ne_of_behind (h : Front b₀ o k A B ps t) (hb₀ : b₀.Coherent) (hk : b₀.Exposed k)
    (hx : Behind o t.builder.body x) {d : OpId} (hd : t.builder.body.Before d t.builder.point)
    (hs : t.builder.body.stands d) : d ≠ x := by
  rintro rfl
  have hb := h.coherent
  have hprec := h.precedes_iff.2 hd
  rcases hx with rfl | hx
  · exact hb.not_precedes_self hprec
  · exact hb.not_precedes_self (hprec.trans hb (hx (hd.walked hb (h.exposed hb₀ hk) hs)))

theorem Behind.of_walked (h : Behind o b x) (hlike : Alike b b') (hw : b'.Walked x → b.Walked x) :
    Behind o b' x :=
  h.imp_right fun h hx => hlike.precedes (h (hw hx))

/-- What new operations may read while `o` is lowered is what is visible in front of it. -/
theorem sight (hb₀ : b₀.Coherent) (h₀ : b₀.InScope) (hop : b₀.op? o = some op) (hw : b₀.Walked o)
    (hk : b₀.Exposed k) : Sight b₀ o op (Front b₀ o k A B) (Inside b₀ o k A B)
      (fun s v => s.body.VisibleAt s.point v) (Behind o) where
  operand {t v} hJ hb hv := by
    rw [← hb] at hop hw h₀
    exact (h₀ _ _ _ hw hop hv).imp fun _ hd => hJ.precedes_iff.1 hd
  through hJ hv hd hop hw := hJ.2.through hJ.coherent (hJ.exposed hb₀ hk) hv hd hop hw
  throughIn hG hv hd hop hw := hG.2.through hG.coherent (hG.exposed hb₀ hk) hv hd hop hw
  see _ hc := ⟨fun _ => hc.visibleAt_next, fun _ _ => hc.visibleAt_new⟩
  seeIn _ hc := ⟨fun _ => hc.visibleAt_next, fun _ _ => hc.visibleAt_new⟩
  outer {_ p _ _ _ _ _ _ _} hG hc hv := by
    have hb := hG.coherent
    obtain ⟨⟨H, w, kt, N, G, NG, hin, -, rfl⟩, -⟩ := hG
    refine hc.visibleAt_ne ?_ hin.outer.exists_block hv
    rw [hin.point]
    exact (hin.ne hb).symm
  enter _ hc hv := hc.visibleAt_inside (by simp [guardedBlocks_eq hc.op?_self, OpKind.blocks]) hv
  declared hv := hv.declared _ _
  replaced hJ hr := ⟨fun _ hu => hr.held hu fun _ => hr.outlives.alike.before,
    fun _ hx => hx.of_walked hr.outlives.alike hr.walked⟩
  dropped hJ hx hd := by
    have hout := hd.outlives rfl
    refine ⟨fun u hu => ?_, fun _ hx => hx.of_walked hout.alike (hd.walked rfl)⟩
    refine hu.mono hout.args (fun hv => by rwa [hout.origin?]) fun d _ _ hs hbefore =>
      ⟨hd.stands_ne (fun _ => hJ.ne_of_behind hb₀ hk hx hbefore hs) hs, hout.alike.before hbefore⟩
  self _ := .inl rfl
  reader hJ hv hr := .inr fun hu => hJ.2.precedes_of_reads hJ.coherent (.inl rfl) hv hu hr

/-- Every edit by which an operation is lowered keeps scopes. -/
theorem edits (hb₀ : b₀.Coherent) (h₀ : b₀.InScope) (hop : b₀.op? o = some op) (hw : b₀.Walked o)
    (hblocks : op.kind.blocks = []) (hk : b₀.Exposed k) :
    Edits cx b₀ o op (Front b₀ o k A B) (Inside b₀ o k A B) (fun s v => s.body.VisibleAt s.point v)
      (Behind o) :=
  have tidy : Edits cx b₀ o op (Body.Tidy.Front b₀ o k A B) (Body.Tidy.Inside b₀ o k A B) (fun _ _ => True)
      fun _ _ => True := Tidy.edits hb₀ hop hblocks
  { sight := sight hb₀ h₀ hop hw hk
    coherent₀ := hb₀
    op? := hop
    coherent := Front.coherent
    coherentIn := Inside.coherent
    persists := fun hJ => tidy.persists hJ.1
    ty? := fun hJ => tidy.ty? hJ.1
    create := fun hJ hp hv hc => ⟨tidy.create hJ.1 hp (fun _ _ => trivial) hc, hJ.2.created hc hv⟩
    createIn := fun hG hp hv hc => ⟨tidy.createIn hG.1 hp (fun _ _ => trivial) hc, hG.2.created hc hv⟩
    enter := fun hJ hv hc => ⟨tidy.enter hJ.1 trivial hc, hJ.2.created hc (by simpa using hv)⟩
    leave := fun hG => ⟨tidy.leave hG.1, hG.2⟩
    part := fun hJ hd hps hcopies hv hc hr =>
      ⟨tidy.part hJ.1 hd hps hcopies (fun _ _ => trivial) hc hr, (hJ.2.created hc hv).declared _ _⟩
    memory := fun {_ _ _ _ m _ _ _ _} hJ hm hd hps hn hc => by
      refine ⟨tidy.memory hJ.1 hm hd hps hn hc, ?_⟩
      have hcreated := hJ.2.created hc (by simp)
      unfold Memory.forPart
      cases m.decl.sym with
      | none => exact hcreated
      | some base => exact hcreated.declared _ _
    inst := fun hJ hb hi he hs hc part => ⟨tidy.inst hJ.1 hb hi he hs hc part, hJ.2.created hc (by simp)⟩
    replace := fun {_ t _ w _} hJ hne hv hw' hx hsee hr => by
      obtain ⟨x, i, opx, hvx, hopx, hway, hbehind⟩ := hx
      refine ⟨tidy.replace hJ.1 hne hv hw' ⟨x, i, opx, hvx, hopx, hway, trivial⟩ trivial hr,
        hJ.2.replaced hr fun u hu hread => ?_⟩
      -- what is visible in front of the operation is visible behind it
      have hprec := hJ.2.precedes_of_reads hJ.coherent hbehind hvx hu hread
      exact hsee.imp fun d hd => (hJ.precedes_iff.2 hd).trans hJ.coherent hprec
    drop := fun hJ hf hx hread hd =>
      ⟨tidy.drop hJ.1 hf hx hread hd, hJ.2.dropped hf hd hread hJ.coherent⟩ }

/-- Scopes are kept while a body is lowered, and so are the arguments. -/
theorem keptBySteps (cx : Context) (b₀ : Body) :
    KeptBySteps cx b₀ fun b _ => b.InScope ∧ b.args = b₀.args := by
  intro t o op k A B hedited ⟨h, hargs⟩ hop hw hblocks hs hp
  have hb := hedited.coherent
  have hmem : o ∈ t.builder.body.slotsOf k := by simp [hs]
  obtain ⟨blk, hblk⟩ := exists_block_of_mem_slotsOf hmem
  refine ⟨_, _, _, _, edits hb h hop hw hblocks (hw.exposed hb hmem) (A := A) (B := B),
    ⟨⟨[], [], InFront.start hb hs (by rw [hblk]; rfl) hp, .refl hb⟩, h⟩, fun hJ _ _ => ⟨hJ.2, ?_⟩⟩
  obtain ⟨⟨H, N, hH, -⟩, -⟩ := hJ
  exact hH.untouched.args.trans hargs

/-! ## Arguments -/

/-- Other arguments, when those that are gone are read no more. -/
theorem reargs {new : List Ty} (h : b.InScope) (hr : Reargs b b' new)
    (hargs : ∀ v ∈ b.args, (∃ x, b.Reads x v) → v ∈ b'.args) : b'.InScope := by
  have hlike : Alike b b' :=
    { slotsOf := fun k => by unfold slotsOf; rw [hr.block?]
      guardedBlocks := fun x => by unfold guardedBlocks; rw [hr.op?] }
  have hstands : ∀ x, b'.stands x = b.stands x := fun x => by rw [stands_eq, stands_eq, hr.op?]
  intro x op v hx hop hv
  rw [hr.op?] at hop
  rcases h _ _ _ (hlike.walked (fun y hy => hstands y ▸ hy) hx) hop hv with harg | ⟨d, i, hd, hs, hprec⟩
  · exact .inl (hargs v harg ⟨x, op, hop, hv⟩)
  · exact .inr ⟨d, i, hr.toExtends.origin?_some hd, (hstands d).trans hs, hlike.precedes hprec⟩

/-- An accessor of an argument gives way to an argument. -/
theorem givesWay (h : b.InScope) (hb : b.Coherent) {parts : List ValueId} (hparts : ∀ w ∈ parts, w ∈ b.args)
    {u : OpId} (hway : GivesWay b v parts u b') : b'.Coherent ∧ b'.InScope ∧ b'.args = b.args := by
  obtain ⟨op, i, r, part, b₁, hop, -, -, hr, hpart, hrep, her⟩ := hway.way
  have harg := hparts part (List.mem_of_getElem? hpart)
  have hrv := hb.result hop hr
  have hne : r ≠ part := fun he => by
    rw [he, hb.args part harg] at hrv
    cases hrv
  have hb₁ := hb.replaced hrep (isSome_of_origin? hrv)
    (isSome_value?.2 (hb.lt_of_arg harg)) hne
  refine ⟨her.coherent hb₁, ?_, her.outlives.args.trans hrep.outlives.args⟩
  exact (h.replaced hrep fun _ _ _ => .inl harg).dropped rfl her.dropped (fun _ => her.unread) hb₁

/-- An argument gives way to its parts. -/
theorem splitArgument_ends (h : b.InScope) (hb : b.Coherent) {S T : List Ty} {ty : Ty}
    (hargs : b.Types b.args (S ++ ty :: T)) (types : List Ty) :
    Ends False (b.splitArgument S.length types) fun b' =>
      b'.Coherent ∧ b'.InScope ∧ b'.Types b'.args (S ++ types ++ T) := by
  refine hb.splitArgument_ends hargs types fun {A old values B b₁} hw => ?_
  have h₁ : b₁.InScope := h.reargs hw.reargs fun v hv _ => by
    rw [hw.args₀] at hv
    rw [hw.args]
    simp only [List.mem_append] at hv ⊢
    tauto
  have hvalues : ∀ w ∈ values, w ∈ b₁.args := fun w hw' => by simp [hw.args, hw']
  refine (rewire_ends (J := fun b' => b'.Coherent ∧ b'.InScope ∧ b'.args = b₁.args) (fun _ h => h.1)
    ⟨hw.coherent, h₁, rfl⟩ (isSome_of_origin? hw.origin?_old) (fun w hw' => ⟨?_, hw.ne hb hw'⟩) ?_ ?_ ?_
    nofun).mono ?_
  · exact isSome_of_origin? (hw.origin? hw')
  · intro d i opd hd
    rw [hw.origin?_old] at hd
    cases hd
  · intro u opu r _ hopu _ hres w hw' he
    have := hw.coherent.result hopu hres
    rw [he, hw.origin? hw'] at this
    cases this
  · intro b₂ b₃ u hJ _ _ _ hway
    obtain ⟨hb₃, h₃, hargs₃⟩ := hJ.2.1.givesWay hJ.1 (fun w hw' => hJ.2.2 ▸ hvalues w hw') hway
    exact ⟨hb₃, h₃, hargs₃.trans hJ.2.2⟩
  rintro b₂ ⟨⟨hb₂, h₂, hargs₂⟩, hout, hunread⟩
  refine ⟨hargs₂, fun {b₃} hr₃ hsub hargs₃ => ?_⟩
  refine ⟨hr₃.coherent hb₂ ?_ (hb₂.nodup_args.sublist hsub), h₂.reargs hr₃ fun v hv ⟨x, hx⟩ => ?_,
    hw.narrowed (fun {v u} hv => (hout.ty? v).trans hv) hr₃ hargs₃⟩
  · exact fun v hv => hr₃.toExtends.origin?_some (hb₂.args v (hsub.subset hv))
  · have hne : v ≠ old := by
      rintro rfl
      exact hunread x hx
    rw [hargs₂, hw.args] at hv
    rw [hargs₃]
    simp only [List.mem_append, List.mem_singleton] at hv ⊢
    tauto

end Body.InScope

/-! ## Modules -/

/-- The operations of the body read what is in scope, and its arguments have the types of the ports. -/
def Module.InScope (m : Module) : Prop :=
  ∀ b, m.body = some b → b.InScope ∧ b.Types b.args (m.ports.map (·.ty))

/-- What is kept while ports are split: scopes, and arguments of the types of the ports. -/
structure Module.PortsInScope (m : Module) (ps : List Port) (s : PortState) : Prop where
  isSome : s.body.isSome = m.body.isSome
  inScope : ∀ b, s.body = some b → b.Coherent ∧ b.InScope ∧ b.Types b.args (ps.map (·.ty))

namespace Module

variable {cx : Context} {m m' : Module} {y : Symbols} {generated : Nat}

theorem PortsInScope.edits (m : Module) (keep : Bool) : PortEdits keep m.PortsInScope where
  split {A B p s parts new y body} hJ _ hnew hbody := by
    unfold SplitsArgument at hbody
    split at hbody
    next hs => exact ⟨by rw [hbody, ← hJ.isSome, hs], fun b hb => by rw [hbody] at hb; cases hb⟩
    next b hs =>
      obtain ⟨b', hb', rfl⟩ := hbody
      refine ⟨by rw [← hJ.isSome, hs]; rfl, fun b'' hb'' => ?_⟩
      obtain rfl := Option.some.inj hb''
      obtain ⟨hb, hscope, hargs⟩ := hJ.inScope b hs
      rw [List.map_append, List.map_cons] at hargs
      have := hscope.splitArgument_ends hb hargs (parts.map (·.ty))
      rw [List.length_map] at this
      rw [List.map_append, List.map_append, hnew.map_ty]
      exact this.of_ok hb'

/-- A module whose operations read arguments and results of standing operations in front of them, and
whose arguments have the types of its ports, is lowered into such a module. No slot of an erased operation
is left. -/
theorem inScope_lower (hm : m.Reachable) (hs : m.InScope) (h : m.lower cx generated = .ok (m', y)) :
    m'.body.isSome = m.body.isSome ∧ m'.InScope ∧
      ∀ b', m'.body = some b' → ∀ k, ∀ x ∈ b'.slotsOf k, b'.stands x := by
  have hlower : Ends False (m.lower cx generated) fun r => m.LowersTo cx m.PortsInScope r.1 r.2 := by
    refine lower_any (S := fun b₀ b _ => b.InScope ∧ b.args = b₀.args) (fun hb => (hm hb).coherent)
      (fun hb => ⟨Body.InScope.keptBySteps cx _, (hs _ hb).1, rfl⟩) (PortsInScope.edits m _)
      (fun hb => ⟨by rw [hb], nofun⟩) fun {b₀ b y} hb hedited ⟨hscope, hargs⟩ _ => ?_
    refine ⟨by rw [hb]; rfl, fun b' hb' => ?_⟩
    obtain rfl := Option.some.inj hb'
    exact ⟨hedited.coherent, hscope, hargs ▸ (hs _ hb).2.imp fun _ _ => hedited.ty?⟩
  obtain ⟨body, hJ, heq⟩ := (hlower.of_ok h).state
  have hbody : m'.body = body.map compact := congrArg Module.body heq
  refine ⟨by rw [hbody, Option.isSome_map, hJ.isSome], fun b' hb' => ?_, fun b' hb' k x hx => ?_⟩
  · rw [hbody] at hb'
    obtain ⟨b, hb, rfl⟩ := Option.map_eq_some_iff.1 hb'
    obtain ⟨hcoherent, hscope, hargs⟩ := hJ.inScope b hb
    exact ⟨hscope.compact hcoherent, hargs⟩
  · rw [hbody] at hb'
    obtain ⟨b, hb, rfl⟩ := Option.map_eq_some_iff.1 hb'
    rw [slotsOf_compact] at hx
    exact (List.mem_filter.1 hx).2

theorem inScope_node : ∀ m ∈ nodeCircuit.modules, m.InScope := by
  intro m hm b hb
  obtain rfl := List.mem_singleton.1 hm
  obtain rfl := Option.some.inj hb
  refine ⟨fun x op v _ hop hv => .inl ?_, .cons rfl .nil⟩
  have hlt : x.index < 1 := lt_of_op? hop
  obtain rfl : x = ⟨0⟩ := congrArg OpId.mk (Nat.lt_one_iff.1 hlt)
  obtain rfl := Option.some.inj hop
  exact hv

theorem inScope_lower_node : ∃ m ∈ nodeCircuit.modules, ∃ r, m.lower ⟨{}, []⟩ 0 = .ok r ∧
    r.1.body.isSome = m.body.isSome ∧ r.1.InScope ∧
      ∀ b', r.1.body = some b' → ∀ k, ∀ x ∈ b'.slotsOf k, b'.stands x := by
  have hmem : nodeCircuit.modules.head (List.cons_ne_nil _ _) ∈ nodeCircuit.modules := List.head_mem _
  refine ⟨_, hmem, ?_⟩
  have hok : (Module.lower ⟨{}, []⟩ (nodeCircuit.modules.head (List.cons_ne_nil _ _)) 0).isOk := by
    decide +kernel
  cases hr : Module.lower ⟨{}, []⟩ (nodeCircuit.modules.head (List.cons_ne_nil _ _)) 0 with
  | error => rw [hr] at hok; cases hok
  | ok r =>
    exact ⟨r, rfl, inScope_lower (nodeCircuit_built.reachable _ hmem) (inScope_node _ hmem) hr⟩

end Module

end Scalarize
