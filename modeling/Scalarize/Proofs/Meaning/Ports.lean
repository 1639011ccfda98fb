import Scalarize.Proofs.Meaning.Outcome
import Scalarize.Proofs.Scope

/-!
# Ports keep the meaning

* `Interpreted.grown` : more values agree with senses as well;
* `Silent.effectsIn_same` : edits without effects, when all operations stay in their blocks;
* `Body.Retains.splitArgument` : an argument gives way to its parts, and the effects are the same;
* `Module.drivers_lower` : a module is lowered to one whose leaves are driven by the same bits.
-/

namespace Scalarize

open Body

namespace Body

variable {I : Interpretation} {idle : OpId → Prop} {b b' : Body} {S S' : ValueId → Sense} {Q : List OpId} {x : OpId}
  {op : Operation} {k : BlockId} {E : List Effect} {v : ValueId}

/-- Senses of new values, when the operations are as they were. -/
theorem Interpreted.grown (h : b.Interpreted I idle Q S) (he : b.Extends b') (hb' : b'.Coherent)
    (hsome : ∀ x, (b'.op? x).isSome = (b.op? x).isSome) (hwalked : ∀ {x}, b.Walked x → b'.Walked x)
    (hS : ∀ v : ValueId, v.index < b.values.size → S' v = S v)
    (hproper : ∀ {v : ValueId} {t}, b.values.size ≤ v.index → b'.ty? v = some t → t.Accepts (S' v).bits) :
    b'.Interpreted I idle Q S' := by
  have hold : ∀ {x op'}, b'.Active idle x op' → ∃ op, b.Active idle x op ∧ op'.kind.bare = op.kind.bare ∧
      op'.operands = op.operands ∧ op'.results = op.results := fun {x op'} hx =>
    hx.of_extends he (by rw [← hsome, hx.op?]; rfl)
  refine
    { coherent := hb', present := fun {x} hx => ?_, proper := fun {v t} hv => ?_
      walked := fun {x op'} hx => ?_, heeds := fun {x op'} hx => ?_, scope := fun {x op' v} hx hv => ?_
      pending := fun {Q x L op'} hP hx => ?_, landed := fun {x op'} hx hP => ?_ }
  · rw [hsome]
    exact h.present hx
  · by_cases hlt : v.index < b.values.size
    · rw [hS v hlt]
      rw [he.ty? hlt] at hv
      exact h.proper hv
    · exact hproper (by omega) hv
  · obtain ⟨op, hact, -⟩ := hold hx
    exact hwalked (h.walked hact)
  · obtain ⟨op, hact, hk, hvs, hrs⟩ := hold hx
    exact (h.heeds hact).extends he hS h.coherent hact.op? hk hvs hrs
  · obtain ⟨op, hact, -, hvs, -⟩ := hold hx
    exact (h.scope hact (hvs ▸ hv)).extends he
  · obtain ⟨op, hact, hk, hvs, hrs⟩ := hold hx
    exact (h.pending hP hact).extends he hS h.coherent hact.op? hk hvs hrs
  · obtain ⟨op, hact, hk, hvs, -⟩ := hold hx
    exact (h.landed hact hP).extends he hS h.coherent hact.op? hk hvs

/-- Other arguments do not matter. -/
theorem Interpreted.reargs {new : List Ty} (h : b.Interpreted I idle Q S) (hr : Reargs b b' new) (hb' : b'.Coherent)
    (hS : ∀ v : ValueId, v.index < b.values.size → S' v = S v)
    (hproper : ∀ {v : ValueId} {t}, b.values.size ≤ v.index → b'.ty? v = some t → t.Accepts (S' v).bits) :
    b'.Interpreted I idle Q S' := by
  refine h.grown hr.toExtends hb' (fun x => by rw [hr.op?]) (fun {x} hx => ?_) hS hproper
  refine hx.keeps ?_ (fun {k x} hx => ?_) fun {g k} hg hk => ⟨?_, ?_⟩
  · rw [stands_eq, hr.op?, ← stands_eq]
    exact hx.stands
  · unfold slotsOf
    rw [hr.block?]
    exact hx
  · rw [stands_eq, hr.op?, ← stands_eq]
    exact hg
  · unfold guardedBlocks
    rw [hr.op?]
    exact hk

/-- A slot contributes what it contributed, if the blocks that it guards do. -/
theorem Silent.effectsAt_slot (hq : Silent idle b S b' S') (hb : b.Coherent) (hx : x ∈ b.slotsOf k)
    (hbusy : b.stands x → ¬idle x)
    (hbelow : b.stands x → ∀ k' ∈ b.guardedBlocks x, b'.effectsIn S' k' = b.effectsIn S k') :
    b'.effectsAt S' x = b.effectsAt S x := by
  obtain ⟨op, hop, rfl⟩ := hb.op?_of_mem_slotsOf hx
  unfold effectsAt
  cases he : op.erased with
  | true =>
    obtain ⟨op', hop', he'⟩ := hq.gone hop he
    simp [stands_eq, hop, hop', he, he']
  | false =>
    have hst : b.stands x := by simp [stands_eq, hop, he]
    have hbelow := hbelow hst
    rw [guardedBlocks_eq hop] at hbelow
    obtain ⟨op', hop', ⟨he', hbare, hown, hruns⟩ | ⟨he', hblocks, hown⟩⟩ := hq.stay ⟨hop, he, hbusy hst⟩
    · have hst' : b'.stands x := by simp [stands_eq, hop', he']
      have : b'.effectsBelow S' x = b.effectsBelow S x := by
        cases hkind : op.kind with
        | when t e =>
          rw [hkind] at hbelow
          unfold effectsBelow
          rw [kind?_eq, kind?_eq, hop, hop', Option.map_some, Option.map_some,
            (OpKind.eq_iff_of_bare_eq hbare rfl).2 hkind, hkind, hruns]
          dsimp only
          rw [hbelow t (by simp [OpKind.blocks])]
          cases e with
          | none => rfl
          | some e => rw [Option.elim_some, Option.elim_some, hbelow e (by simp [OpKind.blocks])]
        | _ =>
          have hnil : op.kind.blocks = [] := by rw [hkind]; rfl
          rw [effectsBelow_eq_nil hop hnil, effectsBelow_eq_nil hop' ((OpKind.blocks_eq_of_bare_eq hbare).trans hnil)]
      rw [hst, hst', hown, this]
    · rw [effectsBelow_eq_nil hop hblocks, hown]
      simp [stands_eq, hop', he']

/-- Blocks have the effects that they had, when all operations stay where they are. -/
theorem Silent.effectsIn_same (hq : Silent idle b S b' S') (hb : b.Coherent) (hb' : b'.Coherent)
    (hbusy : ∀ x, b.Walked x → ¬idle x) (hslots : ∀ k, b'.slotsOf k = b.slotsOf k) (hexposed : b.Exposed k) :
    b'.effectsIn S' k = b.effectsIn S k := by
  induction k using hb.wellFounded_blocks.induction with
  | h k ih =>
    rw [hb.effectsIn_slots, hb'.effectsIn_slots, hslots]
    refine List.flatMap_congr fun x hx => hq.effectsAt_slot hb hx (fun hst => hbusy x (hexposed.walked hx hst))
      fun hst k' hk' => ih k' ⟨x, hb.liesIn hx, hk'⟩ (.inr ⟨x, hexposed.walked hx hst, hk'⟩)

/-! ## Arguments -/

theorem flatMap_eq_of_forall₂ {α β γ : Type} {R : α → β → Prop} {f : α → List γ} {g : β → List γ} {l : List α}
    {l' : List β} (h : List.Forall₂ R l l') (hR : ∀ a b, R a b → f a = g b) : l.flatMap f = l'.flatMap g := by
  rw [List.flatMap_def, List.flatMap_def, List.map_eq_of_forall₂ h hR]

/-- An argument gives way to its parts, and the effects are the same. -/
theorem Retains.splitArgument {A₀ B₀ : List Ty} {t : Ty} {ps : List Part} (h : b.Retains I idle E [])
    (hbusy : ∀ x, b.Walked x → ¬idle x) (hargs : b.Types b.args (A₀ ++ t :: B₀)) (hps : t.PartsOf ps) :
    Ends False (b.splitArgument A₀.length (ps.map (·.ty))) fun b' => b'.Retains I idle E [] := by
  obtain ⟨S, hi, hE⟩ := h
  have hb := hi.coherent
  refine hb.splitArgument_ends hargs _ fun {A old values B b₁} hw => ?_
  -- the new arguments stand for the parts
  let σ : ValueId → Sense := fun v =>
    if v.index < b.values.size then S v
    else (ps[values.idxOf v]?).elim ⟨(b₁.tyOf v).unpack [], none⟩ fun p => (S old).part p.index
  have hσ : ∀ v : ValueId, v.index < b.values.size → σ v = S v := fun v hv => if_pos hv
  have hold : old.index < b.values.size := hb.lt_of_arg (by simp [hw.args₀])
  have hty : b.ty? old = some t := by rw [← hw.old, hw.reargs.toExtends.ty? hold]
  have hnd : values.Nodup := by
    have := hw.coherent.nodup_args
    rw [hw.args, List.nodup_append, List.nodup_append] at this
    exact this.1.2.1
  have hlen : values.length = ps.length := by simpa using hw.types.length_eq
  have hpart : ∀ {i : Nat} {p : Part}, ps[i]? = some p → ∃ w, values[i]? = some w ∧ b₁.ty? w = some p.ty ∧
      σ w = (S old).part p.index := fun {i p} hp => by
    obtain ⟨hlt, -⟩ := List.getElem?_eq_some_iff.1 hp
    have hval : values[i]? = some values[i] := List.getElem?_eq_getElem (by omega)
    refine ⟨values[i], hval, hw.types.getElem?_eq hval (by rw [List.getElem?_map, hp]; rfl), ?_⟩
    have hge := hw.new _ (List.mem_of_getElem? hval)
    have hidx : values.idxOf values[i] = i := hnd.idxOf_getElem i (by omega)
    change (if _ then _ else _) = _
    rw [if_neg (by omega), hidx, hp]
    rfl
  have hi₁ : b₁.Interpreted I idle [] σ := by
    refine hi.reargs hw.reargs hw.coherent hσ fun {v u} hge hu => ?_
    change u.Accepts (if _ then _ else _ : Sense).bits
    rw [if_neg (by omega)]
    cases hp : ps[values.idxOf v]? with
    | none =>
      rw [tyOf_eq hu]
      exact (Ty.exact_unpack u []).accepts
    | some p =>
      obtain ⟨w, hval, hwty, -⟩ := hpart hp
      have hmem : v ∈ values := by
        refine List.idxOf_lt_length_iff.1 ?_
        obtain ⟨hlt, -⟩ := List.getElem?_eq_some_iff.1 hval
        exact hlt
      obtain rfl : v = w := by
        rw [List.getElem?_eq_getElem (List.idxOf_lt_length_iff.2 hmem), List.getElem_idxOf] at hval
        exact Option.some.inj hval
      obtain rfl := Option.some.inj (hu.symm.trans hwty)
      exact ((hi.proper hty).child (hps.child_index (List.mem_of_getElem? hp))).accepts
  have hvs : List.Forall₂ (b₁.PartValue idle σ old) values ps := by
    refine List.forall₂_iff_get.2 ⟨hlen, fun i hv hp => ?_⟩
    obtain ⟨w, hval, hwty, hsense⟩ := hpart (List.getElem?_eq_getElem hp)
    obtain rfl : values.get ⟨i, hv⟩ = w := Option.some.inj ((List.getElem?_eq_getElem hv).symm.trans hval)
    have hmem := List.mem_of_getElem? hval
    have horigin := hw.origin? hmem
    refine ⟨hwty, by rw [hσ old hold]; exact hsense, ⟨?_, .inl horigin⟩, hw.ne hb hmem⟩
    rintro ⟨y, j, op, u, g, a, hy, -⟩
    rw [horigin] at hy
    cases hy
  refine (hi₁.rewired hw.old hps hvs (fun d i op hd _ => ?_) fun x hx => by cases hx).mono
    fun b₂ ⟨hi₂, hq₂, hout, _⟩ => ⟨hout.args, fun {b₃} hr₃ hsub hargs₃ => ?_⟩
  · rw [hw.origin?_old] at hd
    cases hd
  have hb₃ : b₃.Coherent := hr₃.coherent hi₂.coherent
    (fun v hv => hr₃.toExtends.origin?_some (hi₂.coherent.args v (hsub.subset hv))) (hi₂.coherent.nodup_args.sublist hsub)
  have hi₃ : b₃.Interpreted I idle [] σ := by
    refine hi₂.reargs hr₃ hb₃ (fun _ _ => rfl) fun {v u} hge hu => ?_
    have hlt : v.index < b₃.values.size := isSome_ty?.1 (by rw [hu]; rfl)
    rw [hr₃.size, List.length_nil] at hlt
    omega
  have hq : Silent idle b S b₃ σ := ((Silent.extends hb hw.reargs.toExtends hσ).trans hq₂).trans
    (Silent.extends hi₂.coherent hr₃.toExtends fun _ _ => rfl)
  refine ⟨σ, hi₃, ?_⟩
  rw [← hE]
  unfold effects
  have hslots : ∀ k, b₃.slotsOf k = b.slotsOf k := fun k => by
    have h₁ : b₁.slotsOf k = b.slotsOf k := by unfold slotsOf; rw [hw.reargs.block?]
    have h₃ : b₃.slotsOf k = b₂.slotsOf k := by unfold slotsOf; rw [hr₃.block?]
    rw [h₃, hout.slotsOf k, h₁]
  rw [hq.effectsIn_same hb hb₃ hbusy hslots (.inl rfl), hargs₃, hw.args₀]
  -- the parts hold what the argument held
  have hsame : ∀ {v}, v ∈ b.args → b₃.holding σ .port v = b.holding S .port v := fun {v} hv => by
    have hlt := hb.lt_of_arg hv
    refine holding_congr ?_ (hσ v hlt) .port
    have hlt₁ : v.index < b₁.values.size := Nat.lt_of_lt_of_le hlt hw.reargs.toExtends.size
    have hsome : (b₂.ty? v).isSome := by rw [hout.ty?]; exact isSome_ty?.2 hlt₁
    rw [hr₃.toExtends.ty? (isSome_ty?.1 hsome), hout.ty?, hw.reargs.toExtends.ty? hlt]
  have hparts : values.flatMap (b₃.holding σ .port) = b.holding S .port old := by
    change _ = (b.tyOf old).holding .port (S old)
    rw [tyOf_eq hty, hps.holding_eq]
    refine flatMap_eq_of_forall₂ hvs fun v p hv => ?_
    have hsome : (b₂.ty? v).isSome := by rw [hout.ty?, hv.ty?]; rfl
    have hv₃ : b₃.ty? v = some p.ty := by rw [hr₃.toExtends.ty? (isSome_ty?.1 hsome), hout.ty?, hv.ty?]
    rw [holding, tyOf_eq hv₃, hv.sense, hσ old hold]
  simp only [List.flatMap_append, List.flatMap_singleton]
  rw [hparts, List.flatMap_congr fun v hv => hsame (by simp [hw.args₀, hv]),
    List.flatMap_congr (l := B) fun v hv => hsame (by simp [hw.args₀, hv])]

/-- Compacting leaves what drives the leaves. -/
theorem drivers_compact (b : Body) (I : Interpretation) (xs : Valuation) :
    b.compact.vars = b.vars ∧ b.compact.sinks = b.sinks ∧ b.compact.drivers I xs = b.drivers I xs := by
  have houtline : b.compact.outline entry = b.outline entry := by
    have hsize : b.compact.blocks.size = b.blocks.size := by simp [compact]
    unfold outline
    rw [hsize, outlineWith_compact]
  have hvars : b.compact.vars = b.vars := by
    unfold vars
    rw [walk_compact]
    rfl
  have hsinks : b.compact.sinks = b.sinks := by
    unfold sinks
    rw [hvars]
  have hgiven : b.compact.given xs = b.given xs := by
    funext v
    unfold given
    rw [hvars]
    rfl
  have hmeaning : b.compact.meaning I xs = b.meaning I xs := by
    unfold meaning senses
    rw [hgiven, walk_compact]
    rfl
  have hdrives : ∀ S, b.compact.drives S = b.drives S := fun S => by
    unfold drives
    rw [houtline]
    rfl
  refine ⟨hvars, hsinks, ?_⟩
  unfold drivers
  rw [hsinks, hmeaning, hdrives]

end Body

/-! ## Modules -/

/-- The body means something, and its arguments have the types of the ports. -/
def Module.Sensible (m : Module) : Prop :=
  ∀ b, m.body = some b → b.Sensible ∧ b.Types b.args (m.ports.map (·.ty))

/-- A body with the effects of the one that it was, whatever the variables have. -/
structure Body.Mirrors (b₀ b : Body) : Prop where
  edited : b₀.Edited b
  scope : b.InScope
  retains : ∀ I xs, b₀.Ranged I xs → b.Retains I b₀.Unwalked (b₀.effects (b₀.meaning I xs)) []

/-- What is kept while ports are split: arguments of the types of the ports, and the effects. -/
structure Module.PortsMirror (m : Module) (ps : List Port) (s : PortState) : Prop where
  isSome : s.body.isSome = m.body.isSome
  mirrors : ∀ b, s.body = some b → b.Types b.args (ps.map (·.ty)) ∧ ∃ b₀, m.body = some b₀ ∧ b₀.Mirrors b

/-- The leaves are driven by what they were driven by. -/
theorem Body.Mirrors.drivers_eq {b₀ b : Body} (h : b₀.Mirrors b) (hb₀ : b₀.Coherent) {I : Interpretation} {xs : Valuation}
    (hr : b₀.Ranged I xs) :
    b.vars.map (fun z => (z.role, z.ground)) = b₀.vars.map (fun z => (z.role, z.ground)) ∧
      b.sinks.map (fun z => (z.role, z.ground)) = b₀.sinks.map (fun z => (z.role, z.ground)) ∧
      b.drivers I xs = b₀.drivers I xs := by
  obtain ⟨S, hi, hE⟩ := h.retains I xs hr
  have hout : Outcome I b₀.Unwalked xs b₀ b S :=
    { former := hb₀, interpreted := hi, scope := h.scope, effects := hE
      busy := fun {x} hx hun => hun.2 (h.edited.walked hb₀ hx hun.1) }
  refine ⟨?_, hout.drivers_eq⟩
  have hseen := congrArg (List.map fun e => (e.1, e.2.1)) hout.vars_seen
  rwa [List.map_map, List.map_map] at hseen

namespace Module

variable {cx : Context} {m m' : Module} {y : Symbols} {generated : Nat}

theorem PortsMirror.edits (hm : m.Reachable) (keep : Bool) : PortEdits keep m.PortsMirror where
  split {A B p s parts new y body} hJ hpeel hnew hbody := by
    unfold SplitsArgument at hbody
    split at hbody
    next hs => exact ⟨by rw [hbody, ← hJ.isSome, hs], fun b hb => by rw [hbody] at hb; cases hb⟩
    next b hs =>
      obtain ⟨b', hb', rfl⟩ := hbody
      refine ⟨by rw [← hJ.isSome, hs]; rfl, fun b'' hb'' => ?_⟩
      obtain rfl := Option.some.inj hb''
      obtain ⟨hargs, b₀, hb₀, h⟩ := hJ.mirrors b hs
      have hb := h.edited.coherent
      have hps : p.ty.PartsOf parts := ((Ty.peel_ends (nofun : False → _)).of_ok hpeel).1
      rw [List.map_append, List.map_cons] at hargs
      have hscope := h.scope.splitArgument_ends hb hargs (parts.map (·.ty))
      rw [List.length_map] at hscope
      obtain ⟨-, hscope', hargs'⟩ := hscope.of_ok hb'
      have hedited := h.edited.trans ((splitArgument_ends hb _ _).of_ok hb').edited
      rw [List.map_append, List.map_append, hnew.map_ty]
      refine ⟨hargs', b₀, hb₀, hedited, hscope', fun I xs hr => ?_⟩
      have hretains := (h.retains I xs hr).splitArgument
        (fun x hx hun => hun.2 (h.edited.walked (hm hb₀).coherent hx hun.1)) hargs hps
      rw [List.length_map] at hretains
      exact hretains.of_ok hb'

/-- A lowered body has the effects of the one that it was. -/
theorem lowerBlock_mirrors {b : Body} (hb : b.Coherent) (h : b.Sensible) (n : Nat) (p : Point) :
    Runs False (Lower.lowerBlock cx n Body.entry) ⟨⟨b, p⟩, y⟩ fun _ t =>
      b.Mirrors t.builder.body ∧ t.builder.body.args = b.args := by
  obtain ⟨L, hL⟩ := hb.exists_unfolds_slotsOf Body.entry
  have hany := Lower.lowerBlock_any (S := fun b' _ => b'.InScope ∧ b'.args = b.args) (y := y) hb
    (Body.InScope.keptBySteps cx b) ⟨h.scope, rfl⟩ n p
  have hretains : Runs False (Lower.lowerBlock cx n Body.entry) ⟨⟨b, p⟩, y⟩ fun _ t => ∀ I xs, b.Ranged I xs →
      t.builder.body.Retains I b.Unwalked (b.effects (b.meaning I xs)) [] := by
    refine .intro (fun r hrun I xs hr => ?_) False.elim
    exact ((Lower.lowerBlock_retains hb hL ⟨_, h.interpreted hb hr hL, rfl⟩ n p).of_ok hrun).1
  refine (hany.and hretains).mono ?_
  rintro _ t ⟨⟨hedited, ⟨hscope, hargs⟩, -⟩, hretains⟩
  exact ⟨⟨hedited, hscope, hretains⟩, hargs⟩

/-- A module is lowered to one that means the same: it has the same variables in the same order, and each leaf of a port,
a wire, a register or a port of an instance is driven by the same bits, if it is driven, whatever the variables hold. -/
theorem drivers_lower (hm : m.Reachable) (hs : m.Sensible) (h : m.lower cx generated = .ok (m', y)) :
    m'.body.isSome = m.body.isSome ∧ ∀ b b', m.body = some b → m'.body = some b' → ∀ I xs, b.Ranged I xs →
      b'.vars.map (fun z => (z.role, z.ground)) = b.vars.map (fun z => (z.role, z.ground)) ∧
      b'.sinks.map (fun z => (z.role, z.ground)) = b.sinks.map (fun z => (z.role, z.ground)) ∧
      b'.drivers I xs = b.drivers I xs := by
  have hlower : Ends False (m.lower cx generated) fun r => m.LowersTo cx m.PortsMirror r.1 r.2 := by
    refine lower_of_block (fun {b p} hb => lowerBlock_mirrors (hm hb).coherent (hs b hb).1 _ p)
      (PortsMirror.edits hm _) (fun hb => ⟨by rw [hb], nofun⟩) fun {b t} hb ⟨hmirrors, hargs⟩ => ?_
    refine ⟨by rw [hb]; rfl, fun b' hb' => ?_⟩
    obtain rfl := Option.some.inj hb'
    exact ⟨hargs ▸ (hs b hb).2.imp fun _ _ => hmirrors.edited.ty?, b, hb, hmirrors⟩
  obtain ⟨body, hJ, heq⟩ := (hlower.of_ok h).state
  have hbody : m'.body = body.map compact := congrArg Module.body heq
  refine ⟨by rw [hbody, Option.isSome_map, hJ.isSome], fun b b' hb hb' I xs hr => ?_⟩
  rw [hbody] at hb'
  obtain ⟨b₁, hb₁, rfl⟩ := Option.map_eq_some_iff.1 hb'
  obtain ⟨-, b₀, hb₀, hmirrors⟩ := hJ.mirrors b₁ hb₁
  obtain rfl := Option.some.inj (hb.symm.trans hb₀)
  obtain ⟨hvars, hsinks, hdrivers⟩ := drivers_compact b₁ I xs
  rw [hvars, hsinks, hdrivers]
  exact hmirrors.drivers_eq (hm hb).coherent hr

/-- A port of one field, and a wire that it drives. -/
def linkBody : Body where
  values := #[⟨.bundle [⟨"x", false, .uint 1⟩], .argument, [⟨⟨1⟩, 1⟩]⟩,
    ⟨.bundle [⟨"x", false, .uint 1⟩], .result ⟨0⟩ 0, [⟨⟨1⟩, 0⟩]⟩]
  ops := #[⟨.wire {}, [], [⟨1⟩], Body.entry, false⟩, ⟨.connect false, [⟨1⟩, ⟨0⟩], [], Body.entry, false⟩]
  blocks := #[⟨[⟨0⟩, ⟨1⟩], none⟩]
  args := [⟨0⟩]

/-- A module with that body. -/
def linkModule : Module := ⟨"M", true, [⟨"p", .bundle [⟨"x", false, .uint 1⟩], .input, none, []⟩], [], some linkBody⟩

theorem linkModule_built : linkModule.Built := by
  intro b hb
  obtain rfl := Option.some.inj hb
  exact ⟨⟨Body.entry, 2⟩, .call (.connect false ⟨1⟩ ⟨0⟩) (.call (.wire (.bundle [⟨"x", false, .uint 1⟩]) {})
    (.start ⟨Body.entry, 0⟩ rfl) rfl) rfl⟩

theorem linkBody_cases {x : OpId} {op : Operation} (hop : linkBody.op? x = some op) :
    x = ⟨0⟩ ∧ op = ⟨.wire {}, [], [⟨1⟩], Body.entry, false⟩ ∨
      x = ⟨1⟩ ∧ op = ⟨.connect false, [⟨1⟩, ⟨0⟩], [], Body.entry, false⟩ := by
  obtain ⟨n⟩ := x
  have hlt : n < 2 := lt_of_op? hop
  obtain rfl | rfl : n = 0 ∨ n = 1 := by omega
  all_goals obtain rfl := Option.some.inj hop
  · exact .inl ⟨rfl, rfl⟩
  · exact .inr ⟨rfl, rfl⟩

theorem linkModule_sensible : linkModule.Sensible := by
  intro b hb
  obtain rfl := Option.some.inj hb
  refine ⟨⟨fun {x op} hop _ => ?_, fun {x op} hop _ => ?_, fun x op v _ hop hv => ?_, fun {x op} _ hop => ?_,
    fun {x op v e n} _ hop hk => ?_, fun {x op strict v} _ hop hk hv hcast => ?_⟩, .cons rfl .nil⟩
  all_goals rcases linkBody_cases hop with ⟨rfl, rfl⟩ | ⟨rfl, rfl⟩
  · exact ⟨_, _, .nil, .cons rfl .nil, trivial⟩
  · exact ⟨_, _, .cons rfl (.cons rfl .nil), .nil, _, rfl⟩
  · exact ⟨_, _, .nil, .cons rfl .nil, rfl, _, rfl⟩
  · exact ⟨_, _, .cons rfl (.cons rfl .nil), .nil, _, _, rfl, rfl⟩
  · cases hv
  · rcases List.mem_pair.1 hv with rfl | rfl
    · exact .inr ⟨⟨0⟩, 0, rfl, by decide, .here (k := Body.entry) (by decide)⟩
    · exact .inl (by decide)
  · trivial
  · trivial
  · cases hk
  · cases hk
  · cases hk
  · obtain rfl := Option.some.inj hv
    obtain ⟨y, i, opy, u, g, t, hy, hact, hbit, -⟩ := hcast
    obtain ⟨rfl, -⟩ := Origin.result.inj (Option.some.inj hy)
    rw [← Option.some.inj hact.op?] at hbit
    cases hbit

theorem linkBody_ranged (I : Interpretation) (xs : Valuation) : linkBody.Ranged I xs := by
  intro x _ op hop hk
  rcases linkBody_cases hop with ⟨rfl, rfl⟩ | ⟨rfl, rfl⟩ <;> cases hk

theorem drivers_lower_link : ∃ r b', linkModule.lower ⟨{}, []⟩ 0 = .ok r ∧ r.1.body = some b' ∧
    ∀ I xs, linkBody.Ranged I xs ∧ b'.drivers I xs = linkBody.drivers I xs := by
  have hok : (linkModule.lower ⟨{}, []⟩ 0).isOk := by decide +kernel
  cases hr : linkModule.lower ⟨{}, []⟩ 0 with
  | error => rw [hr] at hok; cases hok
  | ok r =>
    obtain ⟨hsome, h⟩ := drivers_lower linkModule_built.reachable linkModule_sensible hr
    obtain ⟨b', hb'⟩ := Option.isSome_iff_exists.1 hsome
    exact ⟨r, b', rfl, hb', fun I xs => ⟨linkBody_ranged I xs, (h _ b' rfl hb' I xs (linkBody_ranged I xs)).2.2⟩⟩

/-- A wire of one field that is cast to a ground type, and a connection to the cast. -/
def recastBody : Body where
  values := #[⟨.uint 1, .argument, [⟨⟨2⟩, 1⟩]⟩, ⟨.bundle [⟨"a", false, .uint 1⟩], .result ⟨0⟩ 0, [⟨⟨1⟩, 0⟩]⟩,
    ⟨.uint 1, .result ⟨1⟩ 0, [⟨⟨2⟩, 0⟩]⟩]
  ops := #[⟨.wire { name := some "w" }, [], [⟨1⟩], Body.entry, false⟩, ⟨.bitcast, [⟨1⟩], [⟨2⟩], Body.entry, false⟩,
    ⟨.connect false, [⟨2⟩, ⟨0⟩], [], Body.entry, false⟩]
  blocks := #[⟨[⟨0⟩, ⟨1⟩, ⟨2⟩], none⟩]
  args := [⟨0⟩]

/-- A module with that body. -/
def recastModule : Module := ⟨"M", true, [⟨"p", .uint 1, .input, none, []⟩], [], some recastBody⟩

theorem recastModule_built : recastModule.Built := by
  intro b hb
  obtain rfl := Option.some.inj hb
  exact ⟨⟨Body.entry, 3⟩, .call (.connect false ⟨2⟩ ⟨0⟩) (.call (.bitcast (.uint 1) ⟨1⟩)
    (.call (.wire (.bundle [⟨"a", false, .uint 1⟩]) { name := some "w" }) (.start ⟨Body.entry, 0⟩ rfl) rfl) rfl) rfl⟩

theorem recastBody_cases {x : OpId} {op : Operation} (hop : recastBody.op? x = some op) :
    x = ⟨0⟩ ∧ op = ⟨.wire { name := some "w" }, [], [⟨1⟩], Body.entry, false⟩ ∨
      x = ⟨1⟩ ∧ op = ⟨.bitcast, [⟨1⟩], [⟨2⟩], Body.entry, false⟩ ∨
      x = ⟨2⟩ ∧ op = ⟨.connect false, [⟨2⟩, ⟨0⟩], [], Body.entry, false⟩ := by
  obtain ⟨n⟩ := x
  have hlt : n < 3 := lt_of_op? hop
  obtain rfl | rfl | rfl : n = 0 ∨ n = 1 ∨ n = 2 := by omega
  all_goals obtain rfl := Option.some.inj hop
  · exact .inl ⟨rfl, rfl⟩
  · exact .inr (.inl ⟨rfl, rfl⟩)
  · exact .inr (.inr ⟨rfl, rfl⟩)

/-- The cast has no place, so that the connection drives nothing; when the field stands for the cast, it is driven. -/
theorem recast_driven : recastModule.Reachable ∧ recastBody.WellTyped ∧ recastBody.Typed (OpKind.Shaped True) ∧
    recastBody.InScope ∧ recastBody.Types recastBody.args (recastModule.ports.map (·.ty)) ∧
    (∀ {x op}, recastBody.op? x = some op → op.kind.Meant ∧ op.kind ≠ .subaccess) ∧
    ∃ r b', recastModule.lower ⟨{}, []⟩ 0 = .ok r ∧ r.1.body = some b' ∧
      recastBody.drivers (fun _ _ => []) (fun _ => [true]) = [none, none] ∧
      b'.drivers (fun _ _ => []) (fun _ => [true]) = [none, some [true]] := by
  have hrun : ((recastModule.lower ⟨{}, []⟩ 0).toOption.bind fun r =>
      r.1.body.map (·.drivers (fun _ _ => []) fun _ => [true])) = some [none, some [true]] := by
    decide +kernel
  cases hr : recastModule.lower ⟨{}, []⟩ 0 with
  | error => rw [hr] at hrun; cases hrun
  | ok r =>
    rw [hr] at hrun
    obtain ⟨b', hb', hdrivers⟩ := Option.map_eq_some_iff.1 hrun
    refine ⟨recastModule_built.reachable, fun {x op} hop _ => ?_, fun {x op} hop _ => ?_, fun x op v _ hop hv => ?_,
      .cons rfl .nil, fun {x op} hop => ?_, r, b', rfl, hb', by decide +kernel, hdrivers⟩
    all_goals rcases recastBody_cases hop with ⟨rfl, rfl⟩ | ⟨rfl, rfl⟩ | ⟨rfl, rfl⟩
    · exact ⟨_, _, .nil, .cons rfl .nil, trivial⟩
    · exact ⟨_, _, .cons rfl .nil, .cons rfl .nil, _, _, 1, rfl, rfl, by decide, by decide, by decide⟩
    · exact ⟨_, _, .cons rfl (.cons rfl .nil), .nil, _, rfl⟩
    · exact ⟨_, _, .nil, .cons rfl .nil, rfl, _, rfl⟩
    · exact ⟨_, _, .cons rfl .nil, .cons rfl .nil, _, _, rfl, rfl⟩
    · exact ⟨_, _, .cons rfl (.cons rfl .nil), .nil, _, _, rfl, rfl⟩
    · cases hv
    · obtain rfl := List.mem_singleton.1 hv
      exact .inr ⟨⟨0⟩, 0, rfl, by decide, .here (k := Body.entry) (by decide)⟩
    · rcases List.mem_pair.1 hv with rfl | rfl
      · exact .inr ⟨⟨1⟩, 0, rfl, by decide, .here (k := Body.entry) (by decide)⟩
      · exact .inl (by decide)
    · exact ⟨trivial, nofun⟩
    · exact ⟨trivial, nofun⟩
    · exact ⟨trivial, nofun⟩

end Module

end Scalarize
