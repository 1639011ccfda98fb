import Scalarize.Proofs.Distribution.Outcome
import Scalarize.Proofs.FlattenedPorts
import Scalarize.Proofs.Typing

/-!
# Memories of aggregates in a module

* `Moment.lowerBlock_settles` : a walk over a body splits a memory of aggregates to the end;
* `Body.Distributed` : what the memory was split into, and who reads it;
* `Settling.edits` : splitting ports keeps what is known of the memory;
* `Module.memory_distributed` : in a lowered module, every memory of aggregates is distributed over its leaves.
-/

namespace Scalarize

open Body Lower

/-! ## The walk -/

namespace Moment

variable {cx : Context} {m : Memory} {b b₀ : Body} {op op₀ : Operation} {o x : OpId} {L : List OpId} {y : Symbols}
  {t₀ t : Moment} {j : Nat} {u : ValueId} {f : Face} {q : List Nat}

/-- At first the memory is pending. -/
theorem Awaits.start (hb : b.Coherent) (hL : Unfolds b (b.slotsOf Body.entry) L) (hw : b.Walked o)
    (hop : b.op? o = some op) (hk : op.kind = .mem m) (hops : op.operands = []) (htypes : b.Types op.results m.portTypes) :
    Awaits m b op o ⟨b, y, L, []⟩ where
  pending := hw.mem_of_unfolds hL
  stands := hw.stands
  carries := .refl hb _ _
  roots := .ports hb hop (erased_of_stands hop hw.stands) hk hops htypes (.refl m) rfl

/-- What is made of a value by fixed accessors is made behind what makes this value. -/
theorem mem_of_madeBy {a : ValueId} {i : Nat} {p : List Nat} {Q : List OpId} (hb : b.Coherent)
    (ha : b.origin? a = some (.result o i)) (hat : b.At a p u) (hQ : b.Closed Q) (hu : b.MadeBy Q u) : o ∈ Q := by
  induction hat with
  | self =>
    obtain harg | ⟨d, hd, j, hr⟩ := hu
    · rw [ha] at harg
      cases harg
    · obtain ⟨rfl, -⟩ := Origin.result.inj (Option.some.inj (ha.symm.trans hr))
      exact hd
  | part _ hw ih =>
    obtain ⟨z, kind, -, hmk⟩ := hw.made
    have hz := hmk.origin? hb (i := 0) rfl
    obtain harg | ⟨d, hd, j, hr⟩ := hu
    · rw [hz] at harg
      cases harg
    · obtain ⟨rfl, -⟩ := Origin.result.inj (Option.some.inj (hz.symm.trans hr))
      obtain ⟨opz, hopz, -, hops, -⟩ := hmk
      exact ih (hQ.madeBy hd hopz (by rw [hops]; simp))

/-- When the memory is reached, whoever reads it is done. -/
theorem Meets.not_pending (h : Meets cx m b₀ op₀ o t₀ t) (hu : t.body.Slot x j u)
    (hd : t.body.Denotes (op₀.Ports []) u f q) : x ∉ t.pending := fun hx => by
  have hb : t.body.Coherent := h.awaits.carries.edited.coherent
  obtain ⟨Q₁, Q₂, hQ⟩ := List.append_of_mem hx
  obtain ⟨opx, hopx, hslot⟩ := hu
  have hmade := h.closed hQ hopx (List.mem_of_getElem? hslot)
  have hclosed : t.body.Closed Q₁ := Closed.of_append (hQ ▸ h.closed)
  obtain ⟨a, p₀, p, ha, hat, -⟩ := hd
  obtain ⟨z, i, -, rfl, ho, -⟩ := h.awaits.roots.made ha
  have hmem := mem_of_madeBy hb ho hat hclosed hmade
  -- but the memory is the last that is pending, once
  obtain ⟨P, hP⟩ := h.last
  have hnd := h.nodup
  rw [hQ, List.nodup_append] at hnd
  have hlast : z ∈ x :: Q₂ := by
    have hl : (Q₁ ++ x :: Q₂).getLast? = some z := by rw [← hQ, hP]; simp
    rw [List.getLast?_append_of_ne_nil _ (by simp)] at hl
    exact List.mem_of_getLast? hl
  exact hnd.2.2 z hmem z hlast rfl

/-- A walk over a body splits a memory of aggregates to the end. -/
theorem lowerBlock_settles (hb : b.Coherent) (hord : b.Ordered) (hs : b.Scoped) (hL : Unfolds b (b.slotsOf Body.entry) L)
    (hkeep : cx.options.preserveAggregate = false) (hw : b.Walked o) (hop : b.op? o = some op) (hk : op.kind = .mem m)
    (hops : op.operands = []) (htypes : b.Types op.results m.portTypes) (hpassive : m.dataType.passive)
    (hg : m.dataType.isGround = false) (n : Nat) (p : Point) (y : Symbols) :
    Runs False (lowerBlock cx n Body.entry) ⟨⟨b, p⟩, y⟩ fun _ e => ∃ t s R C, Meets cx m b op o ⟨b, y, L, []⟩ t ∧
      Reaches cx t s ∧ s.pending = [] ∧ s.body = e.builder.body ∧ Retired m (op.Ports []) o op.block t R C s.body := by
  obtain ⟨blk, hblk, -⟩ := hb.entry
  obtain ⟨E, hI⟩ : ∃ E, b.Tidy E L [] := ⟨_, .start hb hL⟩
  have hattends : Attends cx E (Frame.Stage cx b) := Frame.attends hb
  have hheeds : Heeds cx (Known cx E b) (Distributes cx m b op o ⟨b, y, L, []⟩) :=
    Distributes.heeds hI hop hw hk hkeep hpassive hg
  have hstages := hattends.stages.heed hheeds
  have hstart : Distributes cx m b op o ⟨b, y, L, []⟩ ⟨b, y, L, []⟩ := .inl ⟨.start hb hL hw hop hk hops htypes, .refl⟩
  refine (hstages.lowerBlock_runs (t := ⟨⟨b, p⟩, y⟩) (P := []) (L := L) (D := []) (R := fun _ => 0)
    ⟨⟨hI, Frame.Stage.start hb hord hs hL y⟩, hstart⟩ (by simp [hblk]) (.inl rfl) hL nofun).mono ?_
  rintro _ e ⟨C, N, R', -, -, ⟨⟨hI', -⟩, hend⟩, -, -, -⟩
  rcases hend with ⟨ha, -⟩ | ⟨t, R, X, C', D₁, hmeets, hreach, hspreads⟩
  · cases ha.pending
  · refine ⟨t, _, R, C', hmeets, hreach, rfl, rfl, hspreads.retired ?_⟩
    have he : b.Edited e.builder.body := hmeets.awaits.carries.edited.trans hspreads.carries.edited
    exact exposed_of_edited hI hI' he (hw.exposed hb (hb.mem_slotsOf hop (erased_of_stands hop hw.stands)))

end Moment

/-! ## What is left -/

namespace Body

variable {m : Memory} {R : ValueId → Face → List Nat → Prop} {b b₀ t b' : Body} {o : OpId} {op : Operation} {C : List OpId}

/-- Whoever read a node of a port in `b`, and is left in `b'`, reads the wire for this node. -/
def ReadersOnWires (b : Body) (op : Operation) (R : ValueId → Face → List Nat → Prop) (b' : Body) : Prop :=
  ∀ {x j u i q}, b'.stands x → b.Slot x j u → b.Denotes (op.Ports []) u ⟨[], i⟩ q → ∃ w, b'.Slot x j w ∧ R w ⟨[], i⟩ q

/-- The memory, operation `o` of `b`, is gone in `b'`, where operations `C` are what it was split into, all of them made
since `t`. Whoever read a node of one of its ports, in `b` or `t`, reads the wire for this node, and of those that read
one in `t` only accessors are gone. -/
structure Distributed (m : Memory) (b : Body) (op : Operation) (o : OpId) (t : Body) (R : ValueId → Face → List Nat → Prop)
    (C : List OpId) (b' : Body) : Prop where
  shared : SharedOut m R op.block C b'
  gone : ¬b'.stands o
  fresh : ∀ x ∈ C, t.op? x = none
  former : b.ReadersOnWires op R b'
  readers : t.ReadersOnWires op R b'
  kept : ∀ {x opx j u f q}, t.op? x = some opx → opx.erased = false → opx.kind.isAccessor = false → t.Slot x j u →
    t.Denotes (op.Ports []) u f q → b'.stands x

/-- Once nothing is pending, the memory is distributed. -/
theorem Retired.distributed {cx : Context} {t₀ t : Moment} (h : Retired m (op.Ports []) o op.block t R C b')
    (hm : Moment.Meets cx m b op o t₀ t) (hg : m.dataType.isGround = false) :
    b.Distributed m op o t.body R (C.filter b'.stands) b'.compact := by
  have hsince : t.body.ReadersOnWires op R b'.compact := fun hs hu hd => by
    obtain ⟨u', hu', hd'⟩ := h.carries.hands.slot hs hu hd
    obtain ⟨w, hw, hdw⟩ := (Maintains.compact h.coherent).hands.slot hs hu' hd'
    exact ⟨w, hw, (h.shared hg).denotes hdw⟩
  refine
    { shared := h.sharedOut hg
      gone := h.gone
      fresh := fun x hx => h.fresh x (List.mem_filter.1 hx).1
      former := fun {x j u i q} hs hu hd => ?_
      readers := hsince
      kept := fun {x opx j u f q} hop he hacc hu hd => ?_ }
  · obtain ⟨opx, hopx, -⟩ := id hu
    obtain ⟨opt, hopt, -⟩ := hm.awaits.carries.edited.op? hopx
    have ht : t.body.stands x := h.carries.hands.stands hopt hs
    obtain ⟨u', hu', hd'⟩ := hm.awaits.carries.hands.slot ht hu hd
    exact hsince hs hu' hd'
  · have hpending : ¬(x ∈ t.pending ∨ t.body.op? x = none) := by
      rintro (hx | hx)
      · exact hm.not_pending hu hd hx
      · rw [hop] at hx
        cases hx
    obtain ⟨op', hop', -⟩ := h.carries.edited.op? hop
    rw [stands_compact, stands_eq, hop', Option.any_some, h.carries.spares hpending hop hop' hacc, he]
    rfl

end Body

/-! ## Modules -/

/-- The body is what is left of `b`, in which the memory is operation `o`, once all operations are lowered and some ports
are split. -/
def Settling (cx : Context) (M : Module) (generated : Nat) (m : Memory) (b : Body) (op : Operation) (o : OpId)
    (L : List OpId) (b' : Body) : Prop :=
  ∃ t s R C, Moment.Meets cx m b op o ⟨b, Symbols.ofModule M generated, L, []⟩ t ∧ Moment.Reaches cx t s ∧ s.pending = [] ∧
    M.BodyLowered cx generated b s.body ∧ Retired m (op.Ports []) o op.block t R C b'

/-- All this holds of the body of a module. -/
def SettlingPorts (cx : Context) (M : Module) (generated : Nat) (m : Memory) (b : Body) (op : Operation) (o : OpId)
    (L : List OpId) (ps : List Port) (s : PortState) : Prop :=
  ∃ b', s.body = some b' ∧ b'.Types b'.args (ps.map (·.ty)) ∧ Settling cx M generated m b op o L b'

/-- Splitting an argument leaves the readers of other values alone. -/
theorem Body.Roots.splitArgument {m : Memory} {R : ValueId → Face → List Nat → Prop} {P : OpId → Prop} {b : Body}
    {S T : List Ty} {t : Ty} {ps : List Part} (h : Roots m b R P) (hb : b.Coherent)
    (hargs : b.Types b.args (S ++ t :: T)) (hps : t.PartsOf ps) :
    Ends False (b.splitArgument S.length (ps.map (·.ty))) fun b' =>
      b'.Types b'.args (S ++ ps.map (·.ty) ++ T) ∧ Hands R b R b' := by
  refine splitArgument_hands (N := fun _ => R) hb hargs fun {A old values B b₁} hw => ⟨R, ?_, id, fun _ _ _ _ _ ha => ha⟩
  -- no node is an argument
  have hmade : ∀ {a f p}, R a f p → ∃ y i op, b₁.origin? a = some (.result y i) ∧ b₁.op? y = some op ∧
      op.kind.fixedIndex? = none := fun ha => by
    obtain ⟨y, i, op, -, ho, hop, -, hk, -⟩ := h.made ha
    exact ⟨y, i, op, hw.reargs.toExtends.origin?_some ho, (hw.reargs.op? y).trans hop, OpKind.fixedIndex?_of_isSource hk⟩
  refine hw.portioned_of hb hps (fun ha z i op ho hop => ?_) fun ha => ?_
  · obtain ⟨y, j, op', ho', hop', hfix⟩ := hmade ha
    obtain ⟨rfl, -⟩ := Origin.result.inj (Option.some.inj (ho.symm.trans ho'))
    rw [Option.some.inj (hop.symm.trans hop'), hfix]
  · obtain ⟨y, i, op, ho, -⟩ := hmade ha
    rw [hw.origin?_old] at ho
    cases ho

/-- Splitting a port by one layer keeps this. -/
theorem SettlingPorts.edits (cx : Context) (M : Module) (generated : Nat) (m : Memory) (b : Body) (op : Operation)
    (o : OpId) (L : List OpId) (keep : Bool) : PortEdits keep (SettlingPorts cx M generated m b op o L) where
  split {A B p s parts new y body} hJ hpeel hnew hsplit := by
    obtain ⟨b₁, hb₁, htypes, t, e, R, C, hmeets, hreach, hend, hlowered, hretired⟩ := hJ
    unfold SplitsArgument at hsplit
    rw [hb₁] at hsplit
    obtain ⟨b₂, hb₂, rfl⟩ := hsplit
    have hps : p.ty.PartsOf parts := ((Ty.peel_ends (nofun : False → _)).of_ok hpeel).1
    rw [List.map_append, List.map_cons] at htypes
    have hA : A.length = (A.map (·.ty)).length := by simp
    rw [hA] at hb₂
    obtain ⟨htypes', hh⟩ := (hretired.roots.splitArgument hretired.coherent htypes hps).of_ok hb₂
    have hr := (splitArgument_ends hretired.coherent _ _).of_ok hb₂
    refine ⟨b₂, rfl, by simpa [hnew.map_ty] using htypes', t, e, R, C, hmeets, hreach, hend, hlowered, ?_⟩
    exact hretired.rewired hmeets.awaits.carries.edited.coherent hr hh

namespace Module

variable {cx : Context} {M M' : Module} {generated : Nat} {y : Symbols} {m : Memory} {b : Body} {op : Operation} {o : OpId}

/-- Pairs of an element and a vector. -/
def pairTy : Ty := .bundle [⟨"x", false, .uint 1⟩, ⟨"y", false, .vector (.uint 2) 1⟩]

/-- A memory of pairs with a port that reads. -/
def pairsMemory : Memory := ⟨{ name := some "p" }, pairTy, 4, 1, 1, .undefined, [⟨"r", .read, []⟩]⟩

/-- This memory, and a node that names the element that is read. -/
def pairsBody : Body where
  values := #[⟨Memory.portType 4 pairTy .read, .result ⟨0⟩ 0, [⟨⟨1⟩, 0⟩]⟩, ⟨pairTy, .result ⟨1⟩ 0, [⟨⟨2⟩, 0⟩]⟩,
    ⟨.uint 1, .result ⟨2⟩ 0, [⟨⟨3⟩, 0⟩]⟩, ⟨.uint 1, .result ⟨3⟩ 0, []⟩]
  ops := #[⟨.mem pairsMemory, [], [⟨0⟩], Body.entry, false⟩, ⟨.subfield 3, [⟨0⟩], [⟨1⟩], Body.entry, false⟩,
    ⟨.subfield 0, [⟨1⟩], [⟨2⟩], Body.entry, false⟩, ⟨.node {}, [⟨2⟩], [⟨3⟩], Body.entry, false⟩]
  blocks := #[⟨[⟨0⟩, ⟨1⟩, ⟨2⟩, ⟨3⟩], none⟩]
  args := []

/-- A module with that body. -/
def pairsModule : Module := ⟨"M", true, [], [], some pairsBody⟩

theorem pairsModule_built : pairsModule.Built := by
  intro b hb
  obtain rfl := Option.some.inj hb
  exact ⟨⟨Body.entry, 4⟩, .call (.node ⟨2⟩ {}) (.call (.subfield ⟨1⟩ 0) (.call (.subfield ⟨0⟩ 3) (.call (.mem pairsMemory)
    (.start ⟨Body.entry, 0⟩ rfl) rfl) rfl) rfl) rfl⟩

theorem pairsBody_cases {x : OpId} {op : Operation} (hop : pairsBody.op? x = some op) :
    x = ⟨0⟩ ∧ op = ⟨.mem pairsMemory, [], [⟨0⟩], Body.entry, false⟩ ∨
      x = ⟨1⟩ ∧ op = ⟨.subfield 3, [⟨0⟩], [⟨1⟩], Body.entry, false⟩ ∨
      x = ⟨2⟩ ∧ op = ⟨.subfield 0, [⟨1⟩], [⟨2⟩], Body.entry, false⟩ ∨
      x = ⟨3⟩ ∧ op = ⟨.node {}, [⟨2⟩], [⟨3⟩], Body.entry, false⟩ := by
  obtain ⟨n⟩ := x
  have hlt : n < 4 := lt_of_op? hop
  obtain rfl | rfl | rfl | rfl : n = 0 ∨ n = 1 ∨ n = 2 ∨ n = 3 := by omega
  all_goals obtain rfl := Option.some.inj hop
  · exact .inl ⟨rfl, rfl⟩
  · exact .inr (.inl ⟨rfl, rfl⟩)
  · exact .inr (.inr (.inl ⟨rfl, rfl⟩))
  · exact .inr (.inr (.inr ⟨rfl, rfl⟩))

theorem pairsModule_wellTyped : pairsModule.WellTyped := by
  intro b hb
  obtain rfl := Option.some.inj hb
  refine ⟨fun {x op} hop _ => ?_, .nil⟩
  rcases pairsBody_cases hop with ⟨-, rfl⟩ | ⟨-, rfl⟩ | ⟨-, rfl⟩ | ⟨-, rfl⟩
  · exact ⟨_, _, .nil, .cons rfl .nil, rfl⟩
  · exact ⟨_, _, .cons rfl .nil, .cons rfl .nil, _, _, rfl, rfl, rfl⟩
  · exact ⟨_, _, .cons rfl .nil, .cons rfl .nil, _, _, rfl, rfl, rfl⟩
  · exact ⟨_, _, .cons rfl .nil, .cons rfl .nil, _, rfl, rfl⟩

theorem pairsBody_ordered : pairsBody.Ordered := by
  intro x op v d i hop hv hr
  have hmade : ∀ {y : OpId}, pairsBody.origin? v = some (.result y 0) → d = y := fun hy =>
    (Origin.result.inj (Option.some.inj (hr.symm.trans hy))).1
  rcases pairsBody_cases hop with ⟨rfl, rfl⟩ | ⟨rfl, rfl⟩ | ⟨rfl, rfl⟩ | ⟨rfl, rfl⟩
  · cases hv
  all_goals
    obtain rfl := List.mem_singleton.1 hv
    obtain rfl := hmade rfl
    decide

theorem pairsBody_scoped : pairsBody.Scoped := by
  rintro x op v d i - - - ⟨o, opo, t, e, hop, hk, -⟩
  rcases pairsBody_cases hop with ⟨-, rfl⟩ | ⟨-, rfl⟩ | ⟨-, rfl⟩ | ⟨-, rfl⟩ <;> cases hk

example : ((pairsModule.lower ⟨{}, []⟩ 0).toOption.bind (·.1.body)).map (fun b =>
    (b.live Body.entry).filterMap fun x => (b.memory? x).bind (·.decl.name)) = some ["p_x", "p_y_0"] := by
  decide +kernel

end Module

end Scalarize
