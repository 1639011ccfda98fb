import Scalarize.Proofs.Edits.Ports
import Scalarize.Proofs.Frame.Kept
import Scalarize.Proofs.Progress

/-!
# Operations that have nothing to do with aggregates

Lowering leaves them where they are, and puts what other operations give way to in the place of these.

* `Body.Placed`, `Lower.lowerOp_placed` : whatever is made while an operation is lowered stands in front of
  it, behind all that stood there;
* `Body.Framed` : what is left of the operations that lowering leaves alone;
* `Module.framed_of_lower` : this holds of lowered modules whose operands are made before they are read.
-/

namespace Scalarize

open Body Lower

/-! ## Places -/

/-- `b'` is `b` with new operations in front of `o`, which lies in block `k` between `A` and `B`. They stand
behind `A`, or are guarded by what stands there, or lie below `o`; other blocks are as before. -/
structure Body.Placed (b : Body) (k : BlockId) (A : List OpId) (o : OpId) (B : List OpId) (b' : Body) :
    Prop where
  place : ∃ C N, b'.slotsOf k = A ++ C ++ o :: B ∧ Unfolds b' (C ++ [o]) N ∧ (∀ x ∈ C, b.op? x = none) ∧
    ∀ x, b.op? x = none → (b'.op? x).isSome → x ∈ N
  elsewhere : ∃ L, Unfolds b [o] L ∧ ∀ k', (b.block? k').isSome → k' ≠ k →
    (∀ x ∈ L, k' ∉ b.guardedBlocks x) → b'.slotsOf k' = b.slotsOf k'

/-- New operations are pending or done, and these are new or among `X`. -/
def Body.Accounts (b₀ : Body) (X : List OpId) (b : Body) (_ : Symbols) (P D : List OpId) : Prop :=
  b₀.Edited b ∧ (∀ x, b₀.op? x = none → (b.op? x).isSome → x ∈ P ++ D) ∧
    ∀ x ∈ P ++ D, x ∈ X ∨ b₀.op? x = none

theorem Body.Accounts.perm {b₀ b : Body} {X P P' D D' : List OpId} {y : Symbols}
    (h : b₀.Accounts X b y P D) (hP : (P ++ D).Perm (P' ++ D')) : b₀.Accounts X b y P' D' :=
  ⟨h.1, fun x hx hx' => hP.mem_iff.1 (h.2.1 x hx hx'), fun x hx => h.2.2 x (hP.mem_iff.2 hx)⟩

theorem Body.Accounts.attends {cx : Context} {E : OpId → Prop} {b₀ : Body} {X : List OpId} :
    Attends cx E (b₀.Accounts X) where
  skip _ h _ _ _ := h.perm (by simp [List.append_assoc])
  pass _ h _ _ _ := h.perm (by simp [List.append_assoc])
  stay _ h _ := h.perm (by simp)
  step {t P D o op k A B} _ h _ _ _ _ _ := by
    refine ⟨_, _, _, True, .blind _ o op, trivial, Ends.intro (fun _ _ _ => trivial) nofun, ?_⟩
    rintro t' N - - ⟨⟨H, hfront⟩, hgrown, -⟩
    have hmem : ∀ {x}, x ∈ P ++ [o] ++ D → x ∈ P ++ N ++ o :: D := fun {x} hx => by
      simp only [List.mem_append, List.mem_cons, List.not_mem_nil, or_false] at hx ⊢
      tauto
    refine ⟨h.1.trans hgrown.edited, fun x hx hx' => ?_, fun x hx => ?_⟩
    · cases hop : t.builder.body.op? x with
      | none => exact List.mem_append_left _ (List.mem_append_right _ (hgrown.recent hop hx'))
      | some op' => exact hmem (h.2.1 x hx (by rw [hop]; rfl))
    · by_cases hN : x ∈ N
      · refine .inr ?_
        cases hop : b₀.op? x with
        | none => rfl
        | some op' =>
          obtain ⟨op'', hop', -⟩ := h.1.op? hop
          rw [hfront.fresh x hN] at hop'
          cases hop'
      · refine h.2.2 x ?_
        simp only [List.mem_append, List.mem_cons, List.not_mem_nil, or_false] at hx ⊢
        tauto

/-- Whatever is made while an operation is lowered to the end stands in its place. -/
theorem Lower.lowerOp_placed {cx : Context} {t : LowerState} {k : BlockId} {A B : List OpId} {o : OpId}
    (hb : t.builder.body.Coherent) (hk : t.builder.body.Exposed k)
    (hs : t.builder.body.slotsOf k = A ++ o :: B) (fuel : Nat) :
    Runs False (lowerOp cx fuel k A.length) t fun _ t' =>
      t.builder.body.Placed k A o B t'.builder.body := by
  have ho : o ∈ t.builder.body.slotsOf k := by simp [hs]
  obtain ⟨Lo, E, hLo, hI⟩ := hb.exists_tidy ho
  have hL : Unfolds t.builder.body [o] (o :: Lo) := .single hLo
  have hstart : t.builder.body.Accounts (o :: Lo) t.builder.body t.symbols (o :: Lo) [] := by
    refine ⟨.refl hb, fun x hx hx' => ?_, fun x hx => .inl (by simpa using hx)⟩
    rw [hx] at hx'
    cases hx'
  have hattends : Attends cx E (t.builder.body.Accounts (o :: Lo)) := Accounts.attends
  have hstages := hattends.stages
  refine (hstages.lowerOp_runs fuel (P := []) (D := []) (R := fun _ => 0) ⟨hI, hstart⟩ hk hs hLo nofun).mono ?_
  rintro _ t' ⟨⟨C', N, R', hslots, hN, ⟨hI', hedited, hnew, hold⟩, hloc, -, -⟩, C, hslots'⟩
  rw [List.nil_append, List.append_nil] at hnew hold
  have hsplit : C' ++ B = (C ++ [o]) ++ B := by
    simpa [List.append_assoc] using hslots.symm.trans hslots'
  obtain rfl := List.append_cancel_right hsplit
  refine ⟨⟨C, N, hslots', hN, fun x hx => ?_, hnew⟩, o :: Lo, hL, fun k' hk' hne hout => ?_⟩
  · have hxk : x ∈ t'.builder.body.slotsOf k := by simp [hslots', hx]
    refine (hold x (hN.subset (List.mem_append_left _ hx))).resolve_left fun hmem => ?_
    rcases hL.mem_cases hmem with hxo | ⟨y, hy, hxy⟩
    · obtain rfl := List.mem_singleton.1 hxo
      have hnodup := hI'.coherent.nodup_slotsOf k
      rw [hslots', List.append_assoc, List.nodup_append] at hnodup
      exact (List.nodup_append.1 hnodup.2.1).2.2 x hx x List.mem_cons_self rfl
    · obtain ⟨-, opx, -, hopx, -⟩ := hb.op?_of_mem_inner hxy
      obtain ⟨opx', hopx', -, hblock'⟩ := hloc.op? hopx
      obtain ⟨opx'', hopx'', hk''⟩ := hI'.coherent.op?_of_mem_slotsOf hxk
      obtain rfl := Option.some.inj (hopx'.symm.trans hopx'')
      obtain ⟨k₁, -, hxk₁⟩ := mem_inner_iff.1 hxy
      obtain ⟨opx₁, hopx₁, hk₁⟩ := hb.op?_of_mem_slotsOf hxk₁
      obtain rfl := Option.some.inj (hopx.symm.trans hopx₁)
      exact hb.not_mem_slotsOf_inner ho hL hy hxy (hk''.symm.trans hblock' |>.trans hk₁ ▸ hxk₁)
  · obtain ⟨blk, hblk⟩ := Option.isSome_iff_exists.1 hk'
    exact hloc.slotsOf hblk (by simpa using hne) hout

/-! ## Bodies -/

/-- Operations of `b` that lowering leaves alone stand in `b'` as they did, but for operands that gave way,
and whatever of `b` still stands does so in the same order. -/
structure Body.Framed (cx : Context) (b : Body) (σ : ValueId → ValueId) (b' : Body) : Prop where
  kept : ∀ {x op}, b.op? x = some op → op.erased = false → b.Spared cx op →
    b'.op? x = some { op with operands := op.operands.map σ }
  types : ∀ {v t}, b.ty? v = some t → b'.ty? v = some t
  moved : ∀ {v : ValueId}, v.index < b.values.size → σ v = v ∨ b.GaveWay b' v
  live : ∀ k, ((b.live k).filter b'.stands).Sublist (b'.live k)
  order : (b.walk.filter b'.stands).Sublist b'.walk

namespace Frame

variable {cx : Context} {b₀ b : Body} {σ : ValueId → ValueId}

/-- All this holds at first. -/
theorem Stage.start (hb : b.Coherent) (hord : b.Ordered) (hs : b.Scoped) {L : List OpId}
    (hL : Unfolds b (b.slotsOf Body.entry) L) (y : Symbols) : Stage cx b b y L [] := by
  refine ⟨⟨hb.isSome_of_unfolds hL, hord.closed hb hs hL, ?_, fun _ hop => .inl hop, fun hx hop => ?_⟩, id,
    .start hb _ _⟩
  · rintro x v d i ⟨op, hop, hmem⟩ hr
    have hd : d ∈ b.walk := (hord hop hmem hr).subset List.mem_cons_self
    exact (hb.mem_walk_iff.1 hd).stands
  · rw [hx] at hop
    cases hop

/-- Splitting arguments keeps what is left of a body. -/
theorem rewires (h₀ : b₀.Coherent) : Rewires (fun b => ∃ σ, Frame cx b₀ (fun _ => False) (fun _ => False) σ b)
    (fun b v => b.origin? v = some .argument) (fun _ _ => True) where
  coherent := fun ⟨_, h⟩ => h.edited.coherent
  replaced _ hr := ⟨fun u hu => by rwa [hr.outlives.origin?], fun _ => id⟩
  dropped _ _ hd := ⟨fun u hu => by rwa [(hd.outlives rfl).origin?], fun _ => id⟩
  replace := fun ⟨σ, h⟩ hne _ hsome ⟨d, i, op, hr, hop, hk, _⟩ hw hrep =>
    ⟨_, h.replaced h₀ hne ⟨d, i, op, hr, hop, hk, id⟩ (fun d i hr => by rw [hw] at hr; cases hr) hsome hrep⟩
  erase := fun ⟨σ, h⟩ hacc _ hd => ⟨σ, h.dropped rfl (fun _ => ⟨rfl, hacc⟩) hd⟩

/-- Once everything was reached, what lowering leaves alone is left alone; compacting changes nothing
about it. -/
theorem framed (h : Frame cx b₀ (fun _ => False) (fun _ => False) σ b) (h₀ : b₀.Coherent) :
    b₀.Framed cx σ b.compact where
  kept hop he hs := h.kept hop id (h.stands hop he hs id)
  types := h.edited.ty?
  moved hlt := (h.moved hlt).imp id fun ⟨hg, _⟩ => ⟨hg.result, hg.unread⟩
  live k := by
    rw [live_compact, live_eq, live_eq, List.filter_comm]
    exact (List.filter_sublist).trans ((h.slots k).filter _)
  order := by
    rw [walk_compact]
    refine h₀.below_sublist h.edited.coherent h.slots (fun {g} hk hs => ?_) _
    cases hop : b₀.op? g with
    | none => simp [guardedBlocks, hop] at hk
    | some op =>
      have he := erased_of_stands hop hs
      rw [guardedBlocks_eq hop] at hk ⊢
      have hspared : b₀.Spared cx op := by
        unfold Spared
        cases hkind : op.kind with
        | «when» => trivial
        | _ => exact absurd (by rw [hkind]; rfl) hk
      have hkept := h.kept hop id (h.stands hop he hspared id)
      exact ⟨h.stands hop he hspared id, by rw [guardedBlocks_eq hkept]⟩

end Frame

/-! ## Modules -/

namespace Module

variable {cx : Context} {m m' : Module} {generated : Nat} {y : Symbols}

/-- What is left of the body of a module, once its ports are split as well. -/
def FramePorts (cx : Context) (m : Module) (_ : List Port) (s : PortState) : Prop :=
  s.body.isSome = m.body.isSome ∧ ∀ b, s.body = some b →
    ∃ b₀ σ, m.body = some b₀ ∧ Frame cx b₀ (fun _ => False) (fun _ => False) σ b

theorem FramePorts.edits (cx : Context) (hm : ∀ {b}, m.body = some b → b.Coherent) (keep : Bool) :
    PortEdits keep (FramePorts cx m) where
  split {A B p s parts new y body} hJ _ _ hsplit := by
    unfold SplitsArgument at hsplit
    obtain ⟨hsome, hJ⟩ := hJ
    cases hs : s.body with
    | none =>
      rw [hs] at hsplit hsome
      subst hsplit
      exact ⟨hsome, nofun⟩
    | some b =>
      rw [hs] at hsplit hsome
      obtain ⟨b', hb', rfl⟩ := hsplit
      obtain ⟨b₀, σ, hb₀, hF⟩ := hJ b hs
      refine ⟨hsome, fun b'' hb'' => ?_⟩
      obtain rfl := Option.some.inj hb''
      have hends := splitArgument_keeps (@Frame.rewires cx b₀ (hm hb₀))
        (fun ⟨σ, h⟩ hr hb => ⟨σ, h.reargs hr hb⟩) ⟨σ, hF⟩ A.length (parts.map (·.ty))
      obtain ⟨σ', hF'⟩ := hends.of_ok hb'
      exact ⟨b₀, σ', hb₀, hF'⟩

/-- Operations that have nothing to do with aggregates are left alone, and stay in order; and whatever is
made while an operation is lowered stands in its place. -/
theorem framed_of_lower (hm : m.Reachable)
    (hord : ∀ b, m.body = some b → b.Ordered ∧ b.Scoped) (h : m.lower cx generated = .ok (m', y)) :
    m'.body.isSome = m.body.isSome ∧
    (∀ b b', m.body = some b → m'.body = some b' → ∃ σ, b.Framed cx σ b') ∧
    ∀ {fuel t t' k A o B}, t.builder.body.Coherent → t.builder.body.Exposed k →
      t.builder.body.slotsOf k = A ++ o :: B → (lowerOp cx fuel k A.length).run t = .ok ((), t') →
      t.builder.body.Placed k A o B t'.builder.body := by
  have hcoherent : ∀ {b}, m.body = some b → b.Coherent := fun hb => (hm hb).coherent
  have hlower : Ends False (m.lower cx generated) fun r => m.LowersTo cx (FramePorts cx m) r.1 r.2 := by
    refine lower_of_block (T := fun b₀ t => ∃ σ, Frame cx b₀ (fun _ => False) (fun _ => False) σ
      t.builder.body) (fun {b p} hb => ?_) (FramePorts.edits cx hcoherent _) (fun hb => ⟨by rw [hb], nofun⟩)
      fun {b t} hb ⟨σ, hF⟩ => ⟨by rw [hb]; rfl, fun b' hb' => ?_⟩
    · have hcb := hcoherent hb
      obtain ⟨L, hL⟩ := hcb.exists_unfolds_slotsOf Body.entry
      obtain ⟨blk, hblk, -⟩ := hcb.entry
      obtain ⟨E, hI⟩ : ∃ E, b.Tidy E L [] := ⟨_, .start hcb hL⟩
      have hattends : Attends cx E (Frame.Stage cx b) := Frame.attends hcb
      have hstages := hattends.stages
      refine (hstages.lowerBlock_runs (t := ⟨⟨b, p⟩, Symbols.ofModule m generated⟩) (P := []) (L := L) (D := [])
        (R := fun _ => 0) ⟨hI, Frame.Stage.start hcb (hord b hb).1 (hord b hb).2 hL _⟩ (by simp [hblk]) (.inl rfl)
        hL nofun).mono ?_
      rintro _ t ⟨C, N, R', -, -, ⟨-, -, σ, hF⟩, -, -, -⟩
      exact ⟨σ, hF.mono fun _ => False.elim⟩
    · obtain rfl := Option.some.inj hb'
      exact ⟨b, σ, hb, hF⟩
  obtain ⟨body, ⟨hsome, hJ⟩, heq⟩ := (hlower.of_ok h).state
  have hbody : m'.body = body.map compact := congrArg Module.body heq
  refine ⟨by rw [hbody, Option.isSome_map, hsome], fun b b' hb hb' => ?_, fun hb hk hs hrun => ?_⟩
  · rw [hbody] at hb'
    obtain ⟨b₁, hb₁, rfl⟩ := Option.map_eq_some_iff.1 hb'
    obtain ⟨b₀, σ, hb₀, hF⟩ := hJ b₁ hb₁
    obtain rfl := Option.some.inj (hb.symm.trans hb₀)
    exact ⟨σ, hF.framed (hcoherent hb)⟩
  · exact (lowerOp_placed hb hk hs _).of_ok hrun

theorem framed_of_lower_node : ∃ m ∈ nodeCircuit.modules, ∃ r, m.lower ⟨{}, []⟩ 0 = .ok r ∧
    r.1.body.isSome = m.body.isSome ∧
    (∀ b b', m.body = some b → r.1.body = some b' → ∃ σ, b.Framed ⟨{}, []⟩ σ b') ∧
    ∀ {fuel t t' k A o B}, t.builder.body.Coherent → t.builder.body.Exposed k →
      t.builder.body.slotsOf k = A ++ o :: B → (lowerOp ⟨{}, []⟩ fuel k A.length).run t = .ok ((), t') →
      t.builder.body.Placed k A o B t'.builder.body := by
  have hmem : nodeCircuit.modules.head (List.cons_ne_nil _ _) ∈ nodeCircuit.modules := List.head_mem _
  refine ⟨_, hmem, ?_⟩
  have hok : (Module.lower ⟨{}, []⟩ (nodeCircuit.modules.head (List.cons_ne_nil _ _)) 0).isOk := by
    decide +kernel
  cases hr : Module.lower ⟨{}, []⟩ (nodeCircuit.modules.head (List.cons_ne_nil _ _)) 0 with
  | error => rw [hr] at hok; cases hok
  | ok r =>
    refine ⟨r, rfl, framed_of_lower (nodeCircuit_built.reachable _ hmem) (fun b hb => ⟨?_, ?_⟩) hr⟩
    · exact (nodeCircuit_valid.bodies _ hmem b hb).ordered
    · exact nodeCircuit_scoped _ hmem b hb

end Module

/-! ## Casts below the first block of a guard -/

/-- A guard whose second block connects to what a cast below its first block makes of an access at a
computed position. -/
def castBody : Body where
  values := #[⟨.uint 1, .argument, [⟨⟨2⟩, 0⟩]⟩, ⟨.uint 1, .argument, [⟨⟨1⟩, 1⟩]⟩,
    ⟨.uint 8, .argument, [⟨⟨4⟩, 1⟩]⟩,
    ⟨.vector (.vector (.uint 8) 1) 2, .result ⟨0⟩ 0, [⟨⟨1⟩, 0⟩]⟩,
    ⟨.vector (.uint 8) 1, .result ⟨1⟩ 0, [⟨⟨3⟩, 0⟩]⟩,
    ⟨.uint 8, .result ⟨3⟩ 0, [⟨⟨4⟩, 0⟩]⟩]
  ops := #[⟨.wire { name := some "w" }, [], [⟨3⟩], Body.entry, false⟩,
    ⟨.subaccess, [⟨3⟩, ⟨1⟩], [⟨4⟩], Body.entry, false⟩,
    ⟨.when ⟨1⟩ (some ⟨2⟩), [⟨0⟩], [], Body.entry, false⟩,
    ⟨.bitcast, [⟨4⟩], [⟨5⟩], ⟨1⟩, false⟩,
    ⟨.connect false, [⟨5⟩, ⟨2⟩], [], ⟨2⟩, false⟩]
  blocks := #[⟨[⟨0⟩, ⟨1⟩, ⟨2⟩], none⟩, ⟨[⟨3⟩], some ⟨2⟩⟩, ⟨[⟨4⟩], some ⟨2⟩⟩]
  args := [⟨0⟩, ⟨1⟩, ⟨2⟩]

/-- A module with that body. -/
def castModule : Module :=
  ⟨"M", true, [⟨"c", .uint 1, .input, none, []⟩, ⟨"i", .uint 1, .input, none, []⟩,
    ⟨"s", .uint 8, .input, none, []⟩], [], some castBody⟩

theorem castModule_built : castModule.Built := by
  intro b hb
  obtain rfl := Option.some.inj hb
  exact ⟨⟨⟨2⟩, 1⟩, .call (.connect false ⟨5⟩ ⟨2⟩) (.call (.moveTo ⟨⟨2⟩, 0⟩)
    (.call (.bitcast (.uint 8) ⟨4⟩) (.call (.moveTo ⟨⟨1⟩, 0⟩) (.call (.when ⟨0⟩ true)
      (.call (.subaccess ⟨3⟩ ⟨1⟩) (.call (.wire (.vector (.vector (.uint 8) 1) 2) { name := some "w" })
        (.start ⟨Body.entry, 0⟩ rfl) rfl) rfl) rfl) rfl) rfl) rfl) rfl⟩

theorem castBody_ordered : castBody.Ordered := by
  rintro ⟨n⟩ op v d i hop hv hr
  have hlt : n < 5 := lt_of_op? hop
  have hmade : ∀ {x : OpId}, castBody.origin? v = some (.result x 0) → d = x := fun hx =>
    (Origin.result.inj (Option.some.inj (hr.symm.trans hx))).1
  obtain rfl | rfl | rfl | rfl | rfl : n = 0 ∨ n = 1 ∨ n = 2 ∨ n = 3 ∨ n = 4 := by omega
  all_goals obtain rfl := Option.some.inj hop
  · cases hv
  · rcases List.mem_pair.1 hv with rfl | rfl
    · obtain rfl := hmade rfl
      decide
    · cases hr
  · obtain rfl := List.mem_singleton.1 hv
    cases hr
  · obtain rfl := List.mem_singleton.1 hv
    obtain rfl := hmade rfl
    decide
  · rcases List.mem_pair.1 hv with rfl | rfl
    · obtain rfl := hmade rfl
      decide
    · cases hr

/-- The cast is lowered before the connection that reads it; so this drives an element at a computed
position when it is reached, and is expanded. -/
theorem castModule_not_framed : castModule.Reachable ∧ (∀ b, castModule.body = some b → b.Ordered) ∧
    ∃ r op, castModule.lower ⟨{}, []⟩ 0 = .ok r ∧ castBody.op? ⟨4⟩ = some op ∧ op.erased = false ∧
      castBody.Spared ⟨{}, []⟩ op ∧ ∃ b', r.1.body = some b' ∧ ¬b'.stands ⟨4⟩ := by
  have hrun : ((castModule.lower ⟨{}, []⟩ 0).toOption.bind fun r => r.1.body.map (·.stands ⟨4⟩)) =
    some false := by decide +kernel
  cases hr : castModule.lower ⟨{}, []⟩ 0 with
  | error => rw [hr] at hrun; cases hrun
  | ok r =>
    rw [hr] at hrun
    obtain ⟨b', hb', hs⟩ := Option.map_eq_some_iff.1 hrun
    refine ⟨castModule_built.reachable, fun b hb => Option.some.inj hb ▸ castBody_ordered, r, _, rfl, rfl, rfl,
      fun v hv => ?_, b', hb', by simp [hs]⟩
    obtain rfl := Option.some.inj hv
    refine ⟨fun u hu t ht => ?_, fun ⟨path, w, x, hl, hx, _⟩ => ?_⟩
    · obtain rfl := List.mem_singleton.1 hu
      obtain rfl := Option.some.inj ht
      rfl
    · -- no accessor makes what is connected
      cases hl with
      | nil => cases hx
      | cons hv hop hacc =>
        obtain ⟨rfl, -⟩ := Origin.result.inj (Option.some.inj hv)
        obtain rfl := Option.some.inj hop
        cases hacc

end Scalarize
