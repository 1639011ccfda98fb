import Scalarize.Lower.Circuit
import Scalarize.Proofs.Arguments
import Scalarize.Proofs.Edits.Walk

/-!
# Properties that the lowering of a module keeps

* `Body.Rearranged`, `Body.splitArgument_ends` : what splitting an argument leaves of a body;
* `Port.Narrows` : the ports of the parts of a port, and the symbols after them;
* `PortEdits`, `Lower.ports_any` : a property of ports that is kept when one of them is split by one
  layer;
* `Module.lower_any` : the walk over the body, and the ports after it.
-/

namespace Scalarize

open Body

/-! ## Arguments -/

/-- Operations stay as they are, up to their operands, and only accessors are erased. -/
structure Body.Rearranged (b b' : Body) : Prop where
  coherent : b'.Coherent
  blocks : b'.blocks = b.blocks
  op? : ∀ {x op}, b.op? x = some op → ∃ op', b'.op? x = some op' ∧ op'.kind = op.kind ∧
    op'.results = op.results ∧ op'.block = op.block ∧ (op.erased → op'.erased) ∧
    (op.kind.isAccessor = false → op'.erased = op.erased)
  old : ∀ {x op'}, b'.op? x = some op' → (b.op? x).isSome
  bare : ∀ {x op op'}, b.op? x = some op → op.operands = [] → b'.op? x = some op' → op'.operands = []
  ty? : ∀ {v t}, b.ty? v = some t → b'.ty? v = some t

namespace Body.Rearranged

variable {b b' b'' : Body} {x : OpId} {v w : ValueId}

theorem refl (hb : b.Coherent) : Rearranged b b where
  coherent := hb
  blocks := rfl
  op? h := ⟨_, h, rfl, rfl, rfl, id, fun _ => rfl⟩
  old h := by rw [h]; rfl
  bare hop hops hop' := by rw [← Option.some.inj (hop.symm.trans hop'), hops]
  ty? h := h

theorem trans (h : Rearranged b b') (h' : Rearranged b' b'') : Rearranged b b'' where
  coherent := h'.coherent
  blocks := h'.blocks.trans h.blocks
  op? hx := by
    obtain ⟨op₁, hop₁, hk, hr, hb, he, ha⟩ := h.op? hx
    obtain ⟨op₂, hop₂, hk', hr', hb', he', ha'⟩ := h'.op? hop₁
    exact ⟨op₂, hop₂, hk'.trans hk, hr'.trans hr, hb'.trans hb, fun h => he' (he h),
      fun hacc => (ha' (hk ▸ hacc)).trans (ha hacc)⟩
  old hx := by
    obtain ⟨op₁, hop₁⟩ := Option.isSome_iff_exists.1 (h'.old hx)
    exact h.old hop₁
  bare hop hops hop'' := by
    obtain ⟨op₁, hop₁, -⟩ := h.op? hop
    exact h'.bare hop₁ (h.bare hop hops hop₁) hop''
  ty? hv := h'.ty? (h.ty? hv)

theorem slotsOf (h : Rearranged b b') (k : BlockId) : b'.slotsOf k = b.slotsOf k := by
  rw [Body.slotsOf, Body.slotsOf, Body.block?, Body.block?, h.blocks]

/-- No guard is erased. -/
theorem guardsStay (h : Rearranged b b') : b.GuardsStay b' where
  op? {x op} hop hk he := by
    obtain ⟨op', hop', hkind, -, hblock, -, hsame⟩ := h.op? hop
    refine ⟨op', hop', by rw [hkind], hblock, (hsame ?_).trans he⟩
    cases hacc : op.kind.isAccessor with
    | false => rfl
    | true => exact absurd (OpKind.blocks_of_isAccessor hacc) hk

theorem edited (h : Rearranged b b') : Edited b b' where
  coherent := h.coherent
  op? hx := by
    obtain ⟨op', hop', hk, hr, hb, he, -⟩ := h.op? hx
    exact ⟨op', hop', hk, hr, hb, he⟩
  ty? := h.ty?

theorem reargs {new : List Ty} (hr : Reargs b b' new) (hb : b'.Coherent) : Rearranged b b' where
  coherent := hb
  blocks := hr.blocks
  op? hx := ⟨_, (hr.op? _).trans hx, rfl, rfl, rfl, id, fun _ => rfl⟩
  old hx := by rw [← hr.op?, hx]; rfl
  bare hop hops hop' := by
    rw [hr.op?, hop] at hop'
    rw [← Option.some.inj hop', hops]
  ty? hv := hr.toExtends.ty?_some hv

theorem replaced (hr : Replaced b v w b') (hb : b'.Coherent) : Rearranged b b' where
  coherent := hb
  blocks := hr.outlives.blocks
  op? hx := ⟨_, hr.op?_some hx, rfl, rfl, rfl, id, fun _ => rfl⟩
  old {x op'} hx := by
    rw [hr.op?] at hx
    obtain ⟨op, hop, -⟩ := Option.map_eq_some_iff.1 hx
    rw [hop]
    rfl
  bare hop hops hop' := by
    rw [hr.op?_some hop] at hop'
    rw [← Option.some.inj hop', hops]
    rfl
  ty? hv := by rw [hr.outlives.ty?, hv]

/-- Only an accessor is erased. -/
theorem dropped (hd : Dropped b x (fun _ => true) b') (hb : b'.Coherent)
    (hacc : ∀ op, b.op? x = some op → op.kind.isAccessor = true) : Rearranged b b' where
  coherent := hb
  blocks := (hd.outlives rfl).blocks
  op? {x' op} hx := by
    refine ⟨_, by rw [hd.op?, hx, Option.map_some], ?_⟩
    split
    next heq =>
      refine ⟨rfl, rfl, rfl, fun _ => rfl, fun hne => ?_⟩
      rw [hacc op (heq ▸ hx)] at hne
      cases hne
    next => exact ⟨rfl, rfl, rfl, id, fun _ => rfl⟩
  old {x' op'} hx := by
    rw [hd.op?] at hx
    obtain ⟨op, hop, -⟩ := Option.map_eq_some_iff.1 hx
    rw [hop]
    rfl
  bare hop hops hop' := by
    rw [hd.op?, hop, Option.map_some] at hop'
    rw [← Option.some.inj hop']
    split
    · rfl
    · exact hops
  ty? hv := by rw [(hd.outlives rfl).ty?, hv]

theorem rewires (b : Body) :
    Rewires (Rearranged b) (fun b v => b.origin? v = some .argument) (fun _ _ => True) where
  coherent h := h.coherent
  replaced _ hr := ⟨fun u hu => by rwa [hr.outlives.origin?], fun _ _ => trivial⟩
  dropped _ _ hd := ⟨fun u hu => by rwa [(hd.outlives rfl).origin?], fun _ _ => trivial⟩
  replace h hne hv hw _ _ hr := h.trans (.replaced hr (h.coherent.replaced hr hv hw hne))
  erase h hacc _ hd := h.trans (.dropped hd (h.coherent.dropped rfl hd) hacc)

end Body.Rearranged

/-- A property that does not depend on the arguments, and that rewiring keeps, is kept when an argument
gives way to its parts. -/
theorem Body.splitArgument_keeps {K : Body → Prop}
    (hK : Rewires K (fun b v => b.origin? v = some .argument) (fun _ _ => True))
    (hargs : ∀ {b b' new}, K b → Reargs b b' new → b'.Coherent → K b') {b : Body} (h : K b) (i : Nat)
    (types : List Ty) : Ends False (b.splitArgument i types) K := by
  refine Ends.bind (Ends.foldlM (fun _ (e : Body × List ValueId) =>
    K e.1 ∧ ∀ w ∈ e.2, e.1.origin? w = some .argument) _ ⟨h, nofun⟩ fun done t rest e _ ⟨h, hvalues⟩ => ?_)
    fun ⟨b₀, values⟩ ⟨h₀, hvalues⟩ => ?_
  · refine Ends.bind (insertArgument_ends (nofun : False → _)) fun r ⟨hr, hv, hargs', _⟩ => .pure ?_
    refine ⟨hargs h hr (hr.coherent_insert (hK.coherent h) (hv ▸ hargs')), fun w hw => ?_⟩
    rcases List.mem_append.1 hw with hw | hw
    · exact hr.toExtends.origin?_some (hvalues w hw)
    · rw [List.mem_singleton.1 hw, hv]
      exact origin?_eq_some_iff.2 ⟨_, hr.value?_new 0, rfl⟩
  · refine Ends.bind (P := fun _ => True) (.intro (fun _ _ => trivial) nofun) fun old _ => ?_
    refine Ends.bind (hK.rewire_ends h₀ hvalues fun _ _ => trivial) fun b₁ h₁ => ?_
    refine Ends.bind (removeArgument_ends (nofun : False → _)) fun r ⟨hr, hargs'⟩ => .pure ?_
    exact hargs h₁.holds hr (hr.coherent_erase (hK.coherent h₁.holds) hargs')

/-- An argument gives way to its parts. -/
theorem Body.splitArgument_ends {b : Body} (hb : b.Coherent) (i : Nat) (types : List Ty) :
    Ends False (b.splitArgument i types) (Rearranged b) :=
  splitArgument_keeps (Rearranged.rewires b) (fun h hr hb' => h.trans (.reargs hr hb')) (.refl hb) i types

/-- The body, if there is one, with the argument at a position split. -/
def SplitsArgument (body : Option Body) (i : Nat) (types : List Ty) (body' : Option Body) : Prop :=
  match body with
  | none => body' = none
  | some b => ∃ b', b.splitArgument i types = .ok b' ∧ body' = some b'

/-! ## Ports -/

/-- The ports `new` stand for parts of a port; `y'` are the symbols once they have theirs. -/
inductive Port.Narrows (p : Port) : List Part → Symbols → List Port → Symbols → Prop
  | nil (y : Symbols) : Narrows p [] y [] y
  | snoc {parts : List Part} {part : Part} {y y₁ y₂ : Symbols} {new : List Port} {n : Port}
      (init : Narrows p parts y new y₁) (last : p.narrow part y₁ = .ok (n, y₂)) :
      Narrows p (parts ++ [part]) y (new ++ [n]) y₂

theorem Port.ty_of_narrow {p n : Port} {part : Part} {y y' : Symbols}
    (h : p.narrow part y = .ok (n, y')) : n.ty = part.ty := by
  have hends : Ends False (p.narrow part y) fun r => r.1.ty = part.ty :=
    Ends.bind (P := fun _ => True) (.intro (fun _ _ => trivial) nofun) fun _ _ => .pure rfl
  exact hends.of_ok h

theorem Port.Narrows.map_ty {p : Port} {parts : List Part} {y y' : Symbols} {new : List Port}
    (h : p.Narrows parts y new y') : new.map (·.ty) = parts.map (·.ty) := by
  induction h with
  | nil => rfl
  | snoc _ hlast ih => simp [ih, ty_of_narrow hlast]

/-- A property `J` of all ports, with the body and the symbols, that is kept when a port is split by one
layer. -/
structure PortEdits (keep : Bool) (J : List Port → PortState → Prop) : Prop where
  split : ∀ {A B p s parts new y body}, J (A ++ p :: B) s → p.ty.peel keep = .ok (some parts) →
    p.Narrows parts s.symbols new y → SplitsArgument s.body A.length (parts.map (·.ty)) body →
    J (A ++ new ++ B) ⟨body, y⟩

namespace Lower

variable {keep : Bool} {J : List Port → PortState → Prop} {s : PortState} {A B : List Port}

/-- What a function does that splits a port, in its place among all ports, to the end. -/
def SplitsToEnd (keep : Bool) (J : List Port → PortState → Prop) (p : Port)
    (f : Nat → StateT PortState (Except Failure) (List Port)) : Prop :=
  ∀ {s : PortState} {A B : List Port}, J (A ++ p :: B) s →
    Runs False (f A.length) s fun ps s' => J (A ++ ps ++ B) s' ∧ ∀ p ∈ ps, p.ty.peel keep = .ok none

/-- Ports are split one after the other. -/
theorem eachPort_any {new : List Port} {f : Port → Nat → StateT PortState (Except Failure) (List Port)}
    (hf : ∀ n ∈ new, SplitsToEnd keep J n (f n)) (hJ : J (A ++ new ++ B) s) :
    Runs False (new.foldlM (fun done port => do return done ++ (← f port (A.length + done.length))) []) s
      fun ps s' => J (A ++ ps ++ B) s' ∧ ∀ p ∈ ps, p.ty.peel keep = .ok none := by
  refine (Runs.foldlM (fun split done s' => ∀ rest, new = split ++ rest →
    J (A ++ done ++ (rest ++ B)) s' ∧ ∀ p ∈ done, p.ty.peel keep = .ok none) new ?_ ?_).mono ?_
  · rintro rest rfl
    exact ⟨by simpa using hJ, nofun⟩
  · intro split n rest done s' hl hI
    obtain ⟨hJ', hw⟩ := hI _ hl
    have hn : n ∈ new := hl ▸ List.mem_append_right _ List.mem_cons_self
    have hsplit := hf n hn (s := s') (A := A ++ done) (B := rest ++ B) (by simpa using hJ')
    rw [List.length_append] at hsplit
    refine hsplit.bind fun more s'' ⟨hJ'', hw'⟩ => .pure fun rest' hrest' => ?_
    obtain rfl : rest' = rest := by simpa using (hl.symm.trans hrest').symm
    refine ⟨by simpa using hJ'', fun p hp => ?_⟩
    rcases List.mem_append.1 hp with hp | hp
    · exact hw p hp
    · exact hw' p hp
  · intro done s' hI
    simpa using hI [] (by simp)

/-- The ports of the parts of a port, and the argument of the body. -/
theorem splitLayer_any (h : PortEdits keep J) {p : Port} {parts : List Part} (hJ : J (A ++ p :: B) s)
    (hpeel : p.ty.peel keep = .ok (some parts)) {β : Type}
    {f : List Port → StateT PortState (Except Failure) β} {Q : β → PortState → Prop}
    (hf : ∀ new s', new.map (·.ty) = parts.map (·.ty) → J (A ++ new ++ B) s' → Runs False (f new) s' Q) :
    Runs False (do
      let new ← parts.mapM fun part => (do
        let (port, symbols) ← p.narrow part (← get).symbols
        modify fun s : PortState => { s with symbols }
        return port : StateT PortState (Except Failure) Port)
      if let some b := (← get).body then
        let b ← b.splitArgument A.length (parts.map (·.ty))
        modify fun s => { s with body := some b }
      f new) s Q := by
  refine Runs.bind (Runs.mapM (fun done new (s' : PortState) => s'.body = s.body ∧
    p.Narrows done s.symbols new s'.symbols) parts ⟨rfl, .nil _⟩ ?_) ?_
  · rintro done part rest new s' - ⟨hbody, hnarrows⟩
    refine Runs.bind (P := fun a s'' => s' = a ∧ s' = s'') (Runs.get ⟨rfl, rfl⟩) ?_
    rintro _ _ ⟨rfl, rfl⟩
    refine Runs.bind (Runs.lift (Q := fun r s'' => s' = s'' ∧ p.narrow part s'.symbols = .ok r)
      (.intro (fun _ hr => ⟨rfl, hr⟩) nofun)) ?_
    rintro ⟨port, symbols⟩ _ ⟨rfl, hr⟩
    refine Runs.bind (Runs.modify (Q := fun _ s'' => s'' = ({ s' with symbols } : PortState)) rfl) ?_
    rintro _ _ rfl
    exact .pure ⟨hbody, .snoc hnarrows hr⟩
  rintro new s' ⟨hbody, hnarrows⟩
  refine Runs.bind (P := fun a s'' => s' = a ∧ s' = s'') (Runs.get ⟨rfl, rfl⟩) ?_
  rintro _ _ ⟨rfl, rfl⟩
  split
  next b hb =>
    refine Runs.bind (Runs.lift (Q := fun b' s'' => s' = s'' ∧
      b.splitArgument A.length (parts.map (·.ty)) = .ok b') (.intro (fun _ hr => ⟨rfl, hr⟩) nofun)) ?_
    rintro b' _ ⟨rfl, hb'⟩
    refine Runs.bind (Runs.modify (Q := fun _ s'' => s'' = ({ s' with body := some b' } : PortState)) rfl) ?_
    rintro _ _ rfl
    refine hf _ _ hnarrows.map_ty (h.split hJ hpeel hnarrows ?_)
    unfold SplitsArgument
    rw [← hbody, hb]
    exact ⟨b', hb', rfl⟩
  next hb =>
    have hnone : s'.body = none := by
      cases hs : s'.body with
      | none => rfl
      | some b => exact (hb b hs).elim
    refine hf _ s' hnarrows.map_ty ?_
    have hbody' : SplitsArgument s.body A.length (parts.map (·.ty)) s'.body := by
      unfold SplitsArgument
      rw [← hbody, hnone]
    exact h.split hJ hpeel hnarrows hbody'

/-- A port is split until all its parts stay whole. -/
theorem splitPort_any (h : PortEdits keep J) (fuel : Nat) : ∀ {p : Port}, p.ty.depth ≤ fuel →
    SplitsToEnd keep J p (splitPort keep fuel p) := by
  induction fuel with
  | zero =>
    intro p hd s A B hJ
    refine .pure ⟨by simpa using hJ, fun p' hp' => ?_⟩
    obtain rfl := List.mem_singleton.1 hp'
    cases hty : p'.ty with
    | ground g => exact Ty.peel_ground g keep
    | _ => exact absurd (Ty.depth_pos (by rw [hty]; rfl : p'.ty.isGround = false)) (by omega)
  | succ fuel ih =>
    intro p hd s A B hJ
    unfold splitPort
    refine Runs.bind (Runs.lift (Q := fun r s' => s = s' ∧ p.ty.peel keep = .ok r)
      (.intro (fun _ hr => ⟨rfl, hr⟩) nofun)) ?_
    rintro (_ | parts) _ ⟨rfl, hpeel⟩
    · exact .pure ⟨by simpa using hJ, fun p' hp' => by rwa [List.mem_singleton.1 hp']⟩
    refine splitLayer_any h hJ hpeel fun new s' hty hJ' => eachPort_any (fun n hn => ih ?_) hJ'
    have hps : p.ty.PartsOf parts := ((Ty.peel_ends (nofun : False → _)).of_ok hpeel).1
    obtain ⟨part, hpart, he⟩ := List.mem_map.1 (hty ▸ List.mem_map_of_mem hn : n.ty ∈ parts.map (·.ty))
    have hlt := hps.depth_lt hpart
    rw [show part.ty = n.ty from he] at hlt
    omega

/-- All ports are split until their parts stay whole. -/
theorem ports_any (h : PortEdits keep J) {ps : List Port} (hJ : J ps s) :
    Runs False (ports keep ps) s fun new s' => J new s' ∧ ∀ p ∈ new, p.ty.peel keep = .ok none := by
  have heach := eachPort_any (A := []) (B := []) (fun p _ => splitPort_any h p.ty.depth (Nat.le_refl _))
    (by simpa using hJ)
  simpa [ports] using heach

/-! ## Bodies -/

variable {cx : Context} {S : Body → Symbols → Prop} {b : Body} {y : Symbols}

/-- All operations of a body are lowered; then every instance that a walk lists has ports that stay
whole. -/
theorem lowerBlock_any (hb : b.Coherent) (hS : KeptBySteps cx b S) (h : S b y) (n : Nat) (p : Point) :
    Runs False (lowerBlock cx n Body.entry) ⟨⟨b, p⟩, y⟩ fun _ t => b.Edited t.builder.body ∧
      S t.builder.body t.symbols ∧
      ∀ x op, t.builder.body.Walked x → t.builder.body.op? x = some op → t.builder.body.Whole cx op := by
  obtain ⟨L, hL⟩ := hb.exists_unfolds_slotsOf Body.entry
  obtain ⟨blk, hblk, -⟩ := hb.entry
  obtain ⟨E, hI⟩ : ∃ E, b.Tidy E L [] := ⟨_, .start hb hL⟩
  have hstages := ((Body.Tidy.stages cx E).refine (Body.Tidy.refines_whole b)).refine
    (hS.refines fun hI => hI.2.1)
  refine (hstages.lowerBlock_runs (t := ⟨⟨b, p⟩, y⟩) (P := []) (L := L) (D := []) (R := fun _ => 0)
    ⟨⟨hI, .refl hb, nofun⟩, h⟩ (by simp [hblk]) (.inl rfl) hL nofun).mono ?_
  rintro _ t ⟨C, N, R', hslots, hN, ⟨⟨hI', hedited, hwhole⟩, hS'⟩, -, -, -⟩
  rw [List.append_nil] at hwhole
  rw [List.nil_append, List.append_nil] at hslots
  subst hslots
  exact ⟨hedited, hS', fun x op hx hop => hwhole x (hx.mem_of_unfolds hN) hx op hop⟩

end Lower

/-! ## Modules -/

variable {cx : Context} {m : Module} {generated : Nat} {J : List Port → PortState → Prop}
  {S : Body → Body → Symbols → Prop}

/-- What a lowered module is: its ports and its body come from a state with `J`. -/
structure Module.LowersTo (cx : Context) (m : Module) (J : List Port → PortState → Prop)
    (m' : Module) (y : Symbols) : Prop where
  state : ∃ body, J m'.ports ⟨body, y⟩ ∧ m' = { m with ports := m'.ports, body := body.map Body.compact }
  whole : ∀ p ∈ m'.ports, p.ty.peel (cx.options.portsMayPreserve m.entry) = .ok none

/-- The ports of a module, once its body is lowered. -/
theorem Module.lowerPorts_any {body : Option Body} {y : Symbols}
    (hJ : PortEdits (cx.options.portsMayPreserve m.entry) J) (h : J m.ports ⟨body, y⟩) :
    Ends False (do
      let (ports, s) ← (Lower.ports (cx.options.portsMayPreserve m.entry) m.ports).run ⟨body, y⟩
      return ({ m with ports, body := s.body.map Body.compact }, s.symbols))
      fun r => m.LowersTo cx J r.1 r.2 := by
  refine Ends.bind (Lower.ports_any hJ h) ?_
  rintro ⟨ports, s⟩ ⟨hJ', hwhole⟩
  exact .pure ⟨⟨s.body, hJ', rfl⟩, hwhole⟩

/-- What holds once the body is lowered, and a property of ports that follows from it, hold of every lowered
module. -/
theorem Module.lower_of_block {T : Body → LowerState → Prop}
    (hblock : ∀ {b p}, m.body = some b → Runs False (Lower.lowerBlock cx b.loweringDepth Body.entry)
      ⟨⟨b, p⟩, Symbols.ofModule m generated⟩ fun _ t => T b t)
    (hJ : PortEdits (cx.options.portsMayPreserve m.entry) J)
    (hext : m.body = none → J m.ports ⟨none, Symbols.ofModule m generated⟩)
    (hstart : ∀ {b t}, m.body = some b → T b t → J m.ports ⟨some t.builder.body, t.symbols⟩) :
    Ends False (m.lower cx generated) fun r => m.LowersTo cx J r.1 r.2 := by
  unfold Module.lower
  dsimp only
  cases hb : m.body with
  | none => exact lowerPorts_any hJ (hext hb)
  | some b =>
    refine Ends.bind (P := fun _ => True) (.intro (fun _ _ => trivial) nofun) fun n _ => ?_
    refine Ends.bind (hblock hb) ?_
    rintro ⟨⟨⟩, t⟩ ht
    exact lowerPorts_any hJ (hstart hb ht)

/-- A property of bodies that every step keeps, and one of ports that follows from it, hold of every
lowered module. -/
theorem Module.lower_any (hm : ∀ {b}, m.body = some b → b.Coherent)
    (hS : ∀ {b}, m.body = some b → KeptBySteps cx b (S b) ∧ S b b (Symbols.ofModule m generated))
    (hJ : PortEdits (cx.options.portsMayPreserve m.entry) J)
    (hext : m.body = none → J m.ports ⟨none, Symbols.ofModule m generated⟩)
    (hstart : ∀ {b₀ b y}, m.body = some b₀ → b₀.Edited b → S b₀ b y →
      (∀ x op, b.Walked x → b.op? x = some op → b.Whole cx op) → J m.ports ⟨some b, y⟩) :
    Ends False (m.lower cx generated) fun r => m.LowersTo cx J r.1 r.2 := by
  refine lower_of_block (fun hb => Lower.lowerBlock_any (hm hb) (hS hb).1 (hS hb).2 _ _) hJ hext ?_
  rintro b t hb ⟨hedited, hS', hwhole⟩
  exact hstart hb hedited hS' hwhole

end Scalarize
