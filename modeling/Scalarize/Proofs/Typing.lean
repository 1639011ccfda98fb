import Scalarize.Proofs.Edits.Ports
import Scalarize.Proofs.Progress
import Scalarize.Proofs.Reachable
import Scalarize.Proofs.Typing.Write

/-!
# Lowering well-typed bodies

* `Lower.lowerOp_refits`, `Lower.lowerBlock_refits` : operations are lowered to the end, and every reader that
  is left reads values of the types that it read;
* `Body.splitArgument_refits` : an argument gives way to arguments of the types of its parts;
* `Module.WellTyped`, `Module.wellTyped_lower` : a well-typed module is lowered into a well-typed module.
-/

namespace Scalarize

open Body

/-! ## Operations -/

/-- The bodies of a walk keep what a well-typed one holds. -/
theorem Body.WellTyped.stages {cx : Context} {Inv : Stage} {b₀ : Body} (hw : b₀.WellTyped)
    (h : Stages False cx Inv) : Stages False cx fun b y R P D => Inv b y R P D ∧ b₀.Refits b :=
  h.keeps fun {t _ _ _ o op _ _ _} hI hS hop hwalked hblocks _ _ => by
    have hmeets : t.builder.body.Meets o op :=
      ⟨h.coherent hI, hS.wellTyped hw, hop, erased_of_stands hop hwalked.stands⟩
    exact hmeets.step_refits.mono fun replaced t' ht =>
      (hmeets.erase_refits hblocks ht).mono fun _ => hS.trans

namespace Lower

variable {cx : Context} {t : LowerState} {k : BlockId} {A B : List OpId} {o : OpId}

/-- An operation is lowered to the end. -/
theorem lowerOp_refits (hb : t.builder.body.Coherent) (hw : t.builder.body.WellTyped)
    (hk : t.builder.body.Exposed k) (hs : t.builder.body.slotsOf k = A ++ o :: B) (fuel : Nat) :
    Runs False (lowerOp cx fuel k A.length) t fun _ t' => t.builder.body.Refits t'.builder.body := by
  obtain ⟨L, E, hL, hI⟩ := hb.exists_tidy (k := k) (o := o) (by simp [hs])
  refine ((hw.stages (Tidy.stages cx E)).lowerOp_runs fuel (P := []) (D := []) (R := fun _ => 0)
    ⟨hI, .refl hb _⟩ hk hs hL nofun).mono ?_
  rintro _ t' ⟨⟨C, N, R', -, -, ⟨-, h⟩, -⟩, -⟩
  exact h

/-- So is a body; its arguments stay as they are. -/
theorem lowerBlock_refits {b : Body} (hb : b.Coherent) (hw : b.WellTyped) (fuel : Nat) (p : Point) (y : Symbols) :
    Runs False (lowerBlock cx fuel Body.entry) ⟨⟨b, p⟩, y⟩ fun _ t' =>
      b.Refits t'.builder.body ∧ t'.builder.body.args = b.args := by
  obtain ⟨L, hL⟩ := hb.exists_unfolds_slotsOf Body.entry
  obtain ⟨blk, hblk, -⟩ := hb.entry
  obtain ⟨E, hI⟩ : ∃ E, b.Tidy E L [] := ⟨_, .start hb hL⟩
  refine ((hw.stages (Tidy.stages cx E)).lowerBlock_runs (t := ⟨⟨b, p⟩, y⟩) (P := []) (L := L) (D := [])
    (R := fun _ => 0) ⟨hI, .refl hb _⟩ (by simp [hblk]) (.inl rfl) hL nofun).mono ?_
  rintro _ t' ⟨C, N, R', -, -, ⟨-, h⟩, hloc, -⟩
  exact ⟨h, hloc.args⟩

end Lower

/-! ## Arguments -/

namespace Body

variable {W : OpId → Prop} {b b' : Body}

theorem RefitsBut.reargs {new : List Ty} (hr : Reargs b b' new) (hb : b'.Coherent) : RefitsBut W b b' where
  coherent := hb
  ty? := hr.toExtends.ty?_some
  op? {x op} hop := ⟨op, (hr.op? x).trans hop, rfl, rfl, id, fun _ _ {_} hts => hr.toExtends.types hts⟩
  new {x op} hx hop := by
    rw [hr.op?, hx] at hop
    cases hop

theorem RefitsBut.compact (hb : b.Coherent) : RefitsBut W b b.compact where
  coherent := hb.compact
  ty? := id
  op? hop := ⟨_, hop, rfl, rfl, id, fun _ _ {_} => id⟩
  new hx hop := by
    rw [op?_compact, hx] at hop
    cases hop

/-- An argument gives way to arguments of the types of its parts. -/
theorem splitArgument_refits (hb : b.Coherent) (hw : b.WellTyped) {S T : List Ty} {t : Ty}
    (hargs : b.Types b.args (S ++ t :: T)) :
    Ends False (b.splitArgument S.length t.children) fun b' =>
      b.Refits b' ∧ b'.Types b'.args (S ++ t.children ++ T) := by
  refine hb.splitArgument_ends hargs _ fun {A old values B b₁} hwide => ?_
  have h₁ : b.Refits b₁ := .reargs hwide.reargs hwide.coherent
  have houtlives := (Rearranged.rewires b₁).rewire_ends (v := old) (.refl hwide.coherent)
    (fun w hw => hwide.origin? hw) fun _ _ => trivial
  refine ((rewire_refits hwide.coherent (h₁.wellTyped hw) hwide.old hwide.types).and houtlives).mono ?_
  rintro b₂ ⟨h₂, hout⟩
  refine ⟨hout.outlives.args, fun {b₃} hr hsub hargs₃ => ⟨(h₁.trans h₂).trans (.reargs hr ?_),
    hwide.narrowed (fun {_ _} => h₂.ty?) hr hargs₃⟩⟩
  exact hr.coherent h₂.coherent (fun v hv => hr.toExtends.origin?_some (h₂.coherent.args v (hsub.subset hv)))
    (h₂.coherent.nodup_args.sublist hsub)

end Body

/-! ## Modules -/

/-- The body is well-typed, and its arguments have the types of the ports. -/
def Module.WellTyped (m : Module) : Prop :=
  ∀ b, m.body = some b → b.WellTyped ∧ b.Types b.args (m.ports.map (·.ty))

/-- What is kept while ports are split: the readers of arguments read values of the types that they read. -/
structure Module.PortsRefit (m : Module) (ps : List Port) (s : PortState) : Prop where
  isSome : s.body.isSome = m.body.isSome
  refits : ∀ b, s.body = some b → b.Types b.args (ps.map (·.ty)) ∧ ∃ b₀, m.body = some b₀ ∧ b₀.Refits b

namespace Module

variable {cx : Context} {m m' : Module} {y : Symbols} {generated : Nat}

theorem PortsRefit.edits (hm : m.WellTyped) (keep : Bool) : PortEdits keep m.PortsRefit where
  split {A B p s parts new y body} hJ hpeel hnew hbody := by
    unfold SplitsArgument at hbody
    split at hbody
    next hs => exact ⟨by rw [hbody, ← hJ.isSome, hs], fun b hb => by rw [hbody] at hb; cases hb⟩
    next b hs =>
      obtain ⟨b', hb', rfl⟩ := hbody
      refine ⟨by rw [← hJ.isSome, hs]; rfl, fun b'' hb'' => ?_⟩
      obtain rfl := Option.some.inj hb''
      obtain ⟨hargs, b₀, hb₀, h⟩ := hJ.refits b hs
      have hps : p.ty.PartsOf parts := ((Ty.peel_ends (nofun : False → _)).of_ok hpeel).1
      rw [List.map_append, List.map_cons] at hargs
      have hsplit := splitArgument_refits h.coherent (h.wellTyped (hm b₀ hb₀).1) hargs
      rw [List.length_map, ← hps.map_ty] at hsplit
      obtain ⟨h', hargs'⟩ := hsplit.of_ok hb'
      rw [List.map_append, List.map_append, hnew.map_ty]
      exact ⟨hargs', b₀, hb₀, h.trans h'⟩

/-- A well-typed module is lowered into a well-typed module. Every reader that is left reads values of the
types that it read, and so it does whenever a single operation was lowered. -/
theorem wellTyped_lower (hm : m.Reachable) (hw : m.WellTyped) (h : m.lower cx generated = .ok (m', y)) :
    m'.body.isSome = m.body.isSome ∧ m'.WellTyped ∧
    (∀ b b', m.body = some b → m'.body = some b' → b.Refits b') ∧
    ∀ {fuel t t' k A o B}, t.builder.body.Coherent → t.builder.body.WellTyped → t.builder.body.Exposed k →
      t.builder.body.slotsOf k = A ++ o :: B → (Lower.lowerOp cx fuel k A.length).run t = .ok ((), t') →
      t.builder.body.Refits t'.builder.body := by
  have hlower : Ends False (m.lower cx generated) fun r => m.LowersTo cx m.PortsRefit r.1 r.2 := by
    refine lower_of_block (fun {b p} hb => Lower.lowerBlock_refits (hm hb).coherent (hw b hb).1 _ p _)
      (PortsRefit.edits hw _) (fun hb => ⟨by rw [hb], nofun⟩) fun {b t} hb ⟨hrefits, hargs⟩ => ?_
    refine ⟨by rw [hb]; rfl, fun b' hb' => ?_⟩
    obtain rfl := Option.some.inj hb'
    exact ⟨hargs ▸ hrefits.types (hw b hb).2, b, hb, hrefits⟩
  obtain ⟨body, hJ, heq⟩ := (hlower.of_ok h).state
  have hbody : m'.body = body.map compact := congrArg Module.body heq
  have hrefits : ∀ b', m'.body = some b' → b'.Types b'.args (m'.ports.map (·.ty)) ∧
      ∃ b₀, m.body = some b₀ ∧ b₀.Refits b' := by
    intro b' hb'
    rw [hbody] at hb'
    obtain ⟨b, hb, rfl⟩ := Option.map_eq_some_iff.1 hb'
    obtain ⟨hargs, b₀, hb₀, hrefits⟩ := hJ.refits b hb
    exact ⟨hargs, b₀, hb₀, hrefits.trans (.compact hrefits.coherent)⟩
  refine ⟨by rw [hbody, Option.isSome_map, hJ.isSome], fun b' hb' => ?_, fun b b' hb hb' => ?_,
    fun hb hw hk hs hrun => (Lower.lowerOp_refits hb hw hk hs _).of_ok hrun⟩
  · obtain ⟨hargs, b₀, hb₀, h⟩ := hrefits b' hb'
    exact ⟨h.wellTyped (hw b₀ hb₀).1, hargs⟩
  · obtain ⟨-, b₀, hb₀, h⟩ := hrefits b' hb'
    exact Option.some.inj (hb.symm.trans hb₀) ▸ h

theorem wellTyped_node : ∀ m ∈ nodeCircuit.modules, m.WellTyped := by
  intro m hm b hb
  obtain rfl := List.mem_singleton.1 hm
  obtain rfl := Option.some.inj hb
  refine ⟨fun {x op} hop _ => ?_, .cons rfl .nil⟩
  have hlt : x.index < 1 := lt_of_op? hop
  obtain rfl : x = ⟨0⟩ := congrArg OpId.mk (Nat.lt_one_iff.1 hlt)
  obtain rfl := Option.some.inj hop
  exact ⟨_, _, .cons rfl .nil, .cons rfl .nil, _, rfl, rfl⟩

theorem wellTyped_lower_node : ∃ m ∈ nodeCircuit.modules, ∃ r, m.lower ⟨{}, []⟩ 0 = .ok r ∧
    r.1.body.isSome = m.body.isSome ∧ r.1.WellTyped ∧
    (∀ b b', m.body = some b → r.1.body = some b' → b.Refits b') ∧
    ∀ {fuel t t' k A o B}, t.builder.body.Coherent → t.builder.body.WellTyped → t.builder.body.Exposed k →
      t.builder.body.slotsOf k = A ++ o :: B → (Lower.lowerOp ⟨{}, []⟩ fuel k A.length).run t = .ok ((), t') →
      t.builder.body.Refits t'.builder.body := by
  have hmem : nodeCircuit.modules.head (List.cons_ne_nil _ _) ∈ nodeCircuit.modules := List.head_mem _
  refine ⟨_, hmem, ?_⟩
  have hok : (Module.lower ⟨{}, []⟩ (nodeCircuit.modules.head (List.cons_ne_nil _ _)) 0).isOk := by
    decide +kernel
  cases hr : Module.lower ⟨{}, []⟩ (nodeCircuit.modules.head (List.cons_ne_nil _ _)) 0 with
  | error => rw [hr] at hok; cases hok
  | ok r => exact ⟨r, rfl, wellTyped_lower (nodeCircuit_built.reachable _ hmem) (wellTyped_node _ hmem) hr⟩

end Module

end Scalarize
