import Scalarize.Proofs.Completeness
import Scalarize.Proofs.PortReaders
import Scalarize.Proofs.Steady

/-!
# Modules with flattened ports

* `Body.ReadersFollow` : whoever reads a node of a port reads the argument of the flattened port that it lies in;
* `Module.Flattening`, `Flattening.edits` : the pieces of ports under way, which splitting another port keeps;
* `Module.PortsFlattened`, `Module.portsFlattened_of_lower` : the ports of a lowered module are those of its recursive
  definition, and its body reads them.
-/

namespace Scalarize

open Body Lower

/-! ## Readers -/

/-- What is left of `b` in `b'` reads the arguments for the pieces `os`, where it read nodes of the ports. -/
def Body.ReadersFollow (b : Body) (os : List PortPiece) (b' : Body) : Prop :=
  ∀ {i v q u x j}, b.args[i]? = some v → b.At v q u → b.Slot x j u → b'.stands x →
    ∃ (k : Nat) (o : PortPiece) (a : ValueId) (rest : List Nat) (u' : ValueId), os[k]? = some o ∧ o.port = i ∧
      q = o.path ++ rest ∧ b'.args[k]? = some a ∧ b'.At a rest u' ∧ b'.Slot x j u'

/-- Lowering a block leaves the readers of ports alone. -/
theorem Body.Steady.readers {b₀ b : Body} (h : b₀.Steady b₀.IsArgument (fun _ => False) b) (h₀ : b₀.Coherent)
    (he : b₀.Edited b) (os : List PortPiece) : Hands (b₀.StandsFor os) b₀ (b.StandsFor os) b := by
  have hsame : b.StandsFor os = b₀.StandsFor os := by
    unfold StandsFor
    rw [h.args]
  rw [hsame]
  refine h.hands h₀ he ?_
  rintro a k p ⟨o, ha, -⟩
  exact h₀.args a (List.of_mem_zip ha).1

/-- Whole ports are split into pieces, and compacted. -/
theorem Body.Hands.readersFollow {m : Module} {b b' : Body} {os : List PortPiece}
    (h : Hands (b.StandsFor m.pieces) b (b'.StandsFor os) b') (hargs : b.args.length = m.ports.length) :
    b.ReadersFollow os b'.compact := by
  intro i v q u x j hv hat hu hs
  obtain ⟨hi, rfl⟩ := List.getElem?_eq_some_iff.1 hv
  have hd : b.Denotes (b.StandsFor m.pieces) u i q := by
    refine ⟨b.args[i], [], q, ⟨⟨i, [], m.ports[i].shape⟩, List.mem_iff_getElem.2 ⟨i, ?_, ?_⟩, rfl, rfl⟩, hat, rfl⟩
    · simp [Module.pieces]
      omega
    · simp [Module.pieces]
  obtain ⟨u', hu', a, _, rest, ⟨o, ha, hport, rfl⟩, hat', hpath⟩ := h.slot hs hu hd
  obtain ⟨k, hk, he⟩ := List.mem_iff_getElem.1 ha
  rw [List.getElem_zip, Prod.mk.injEq] at he
  rw [List.length_zip] at hk
  have hcompact : Extends b' b'.compact :=
    ⟨fun hop => ⟨_, hop, rfl, rfl, rfl, rfl, rfl⟩, fun _ => rfl, fun _ => rfl, Nat.le_refl _⟩
  refine ⟨k, o, a, rest, u', ?_, hport, hpath.symm, ?_, hat'.mono hcompact, hu'⟩
  · rw [List.getElem?_eq_getElem (by omega), he.2]
  · change b'.args[k]? = some a
    rw [List.getElem?_eq_getElem (by omega), he.1]

/-! ## Modules -/

namespace Module

variable {cx : Context} {m m' : Module} {generated : Nat} {y : Symbols}

/-- `t` is the body of the module once its operations are lowered. -/
def BodyLowered (cx : Context) (m : Module) (generated : Nat) (b t : Body) : Prop :=
  ∃ p s, (lowerBlock cx b.loweringDepth Body.entry).run ⟨⟨b, p⟩, Symbols.ofModule m generated⟩ = .ok ((), s) ∧
    s.builder.body = t

/-- The ports `ps` are pieces of those of the module, which are split further into the same as these, and what is left
of the body reads them. -/
structure Flattening (cx : Context) (m : Module) (generated : Nat) (ps : List Port) (s : PortState) : Prop where
  pieces : ∃ os : List PortPiece, os.map (·.shape) = ps.map Port.shape ∧
    os.flatMap (·.flattened (cx.options.portsMayPreserve m.entry)) = m.flattened (cx.options.portsMayPreserve m.entry) ∧
    ∀ b, s.body = some b → ∃ b₀ t, m.body = some b₀ ∧ m.BodyLowered cx generated b₀ t ∧ b₀.Edited t ∧
      b₀.Steady b₀.IsArgument (fun _ => False) t ∧ b.Types b.args (ps.map (·.ty)) ∧ Rearranged t b ∧
      Hands (t.StandsFor m.pieces) t (b.StandsFor os) b
  body : s.body.isSome = m.body.isSome

namespace Flattening

/-- In the beginning, all ports are whole. -/
theorem start {s : PortState} (hm : ∀ {b}, m.body = some b → b.Types b.args (m.ports.map (·.ty)))
    (hbody : s.body.isSome = m.body.isSome)
    (h : ∀ t, s.body = some t → ∃ b₀, m.body = some b₀ ∧ m.BodyLowered cx generated b₀ t ∧ b₀.Edited t ∧
      b₀.Steady b₀.IsArgument (fun _ => False) t) : m.Flattening cx generated m.ports s where
  pieces := by
    refine ⟨m.pieces, m.shape_pieces, rfl, fun t ht => ?_⟩
    obtain ⟨b₀, hb₀, hlowered, he, hs⟩ := h t ht
    refine ⟨b₀, t, hb₀, hlowered, he, hs, ?_, .refl he.coherent, .refl _ _⟩
    rw [hs.args]
    exact (hm hb₀).imp fun _ _ => he.ty?
  body := hbody

/-- Splitting a port by one layer keeps this. -/
theorem edits (cx : Context) (m : Module) (generated : Nat) :
    PortEdits (cx.options.portsMayPreserve m.entry) (m.Flattening cx generated) where
  split {A B p s parts new y body} h hpeel hnew hsplit := by
    obtain ⟨⟨os, hshape, hflat, hread⟩, hbody⟩ := h
    have hps : p.ty.PartsOf parts := ((Ty.peel_ends (nofun : False → _)).of_ok hpeel).1
    rw [List.map_append, List.map_cons] at hshape
    obtain ⟨l, l₀, rfl, hl, hl₀⟩ := List.map_eq_append_iff.1 hshape
    obtain ⟨o, l', rfl, ho, hl'⟩ := List.map_eq_cons_iff.1 hl₀
    have hlen : l.length = A.length := by simpa using congrArg List.length hl
    have hpeel' : o.shape.ty.peel (cx.options.portsMayPreserve m.entry) = .ok (some parts) := by rw [ho]; exact hpeel
    unfold SplitsArgument at hsplit
    refine ⟨⟨l ++ parts.map (fun q => o.node q.stop) ++ l', ?_, ?_, ?_⟩, ?_⟩
    · rw [List.map_append, List.map_append, List.map_append, List.map_append, hl, hl', hnew.map_shape, List.map_map, ← ho]
      rfl
    · rw [← hflat, List.flatMap_append, List.flatMap_append, List.flatMap_append, List.flatMap_cons,
        PortPiece.flattened_of_peel hpeel', List.append_assoc]
    · intro b' hb'
      cases hs : s.body with
      | none =>
        rw [hs] at hsplit
        rw [show body = none from hsplit] at hb'
        cases hb'
      | some b =>
        rw [hs] at hsplit
        obtain ⟨b'', hb'', hbody'⟩ := hsplit
        obtain rfl := Option.some.inj (hb'.symm.trans hbody')
        obtain ⟨b₀, t, hb₀, hlowered, he, hsteady, htypes, hr, hh⟩ := hread b hs
        rw [List.map_append, List.map_cons] at htypes
        have hA : A.length = (A.map (·.ty)).length := by simp
        rw [hA] at hb''
        have hends := splitArgument_readers l' o hr.coherent htypes hps (by simpa using hlen)
        obtain ⟨htypes', hh'⟩ := hends.of_ok hb''
        have hr' := (splitArgument_ends hr.coherent _ _).of_ok hb''
        refine ⟨b₀, t, hb₀, hlowered, he, hsteady, ?_, hr.trans hr', hh.trans hh' fun hx => ?_⟩
        · simpa [hnew.map_ty] using htypes'
        · obtain ⟨op, hop⟩ := Option.isSome_iff_exists.1 hx
          obtain ⟨op', hop', -⟩ := hr.op? hop
          rw [hop']
          rfl
    · rw [← hbody]
      cases hs : s.body with
      | none =>
        rw [hs] at hsplit
        rw [show body = none from hsplit]
      | some b =>
        rw [hs] at hsplit
        obtain ⟨b'', -, hbody'⟩ := hsplit
        rw [hbody']
        rfl

end Flattening

/-- The ports of `m'` are those of `m` split to the end. In a body, whoever read a node of a port reads the argument of
the new port that it lies in, and this is so for the body with its operations lowered as for the one before. -/
structure PortsFlattened (cx : Context) (generated : Nat) (m m' : Module) : Prop where
  ports : m'.shape = (m.flattened (cx.options.portsMayPreserve m.entry)).map (·.shape)
  body : m'.body.isSome = m.body.isSome
  types : ∀ {b'}, m'.body = some b' → b'.Types b'.args (m'.ports.map (·.ty))
  readers : ∀ {b b'}, m.body = some b → m'.body = some b' →
    b.ReadersFollow (m.flattened (cx.options.portsMayPreserve m.entry)) b'
  lowered : ∀ {b b'}, m.body = some b → m'.body = some b' → ∃ t, m.BodyLowered cx generated b t ∧
    t.ReadersFollow (m.flattened (cx.options.portsMayPreserve m.entry)) b' ∧
    ∀ {x op}, t.op? x = some op → op.erased = false → op.kind.isAccessor = false → b'.stands x

/-- The ports of every lowered module are flattened. -/
theorem portsFlattened_of_lower (hm : m.Reachable)
    (htypes : ∀ {b}, m.body = some b → b.Types b.args (m.ports.map (·.ty)))
    (h : m.lower cx generated = .ok (m', y)) : m.PortsFlattened cx generated m' := by
  have hlower : Ends False (m.lower cx generated) fun r => m.LowersTo cx (m.Flattening cx generated) r.1 r.2 := by
    refine lower_of_block (T := fun b s => m.BodyLowered cx generated b s.builder.body ∧ b.Edited s.builder.body ∧
      b.Steady b.IsArgument (fun _ => False) s.builder.body) (fun {b p} hb => ?_) (Flattening.edits cx m generated)
      (fun hb => .start htypes (by rw [hb]) nofun)
      fun {b s} hb h => .start htypes (by rw [hb]; rfl) fun t ht => ?_
    · have hruns := Steady.lowerBlock_runs cx (hm hb).coherent b.loweringDepth p (Symbols.ofModule m generated)
      exact hruns.with_ok.mono fun _ s ⟨hrun, h⟩ => ⟨⟨p, s, hrun, rfl⟩, h⟩
    · obtain rfl := Option.some.inj ht
      exact ⟨b, hb, h⟩
  obtain ⟨⟨body, ⟨⟨os, hshape, hflat, hread⟩, hsome⟩, heq⟩, hwhole⟩ := hlower.of_ok h
  -- nothing is left to be split
  have hos : os = m.flattened (cx.options.portsMayPreserve m.entry) := by
    rw [← hflat]
    have hone : ∀ o ∈ os, o.flattened (cx.options.portsMayPreserve m.entry) = [o] := fun o ho => by
      have hmem : o.shape ∈ m'.ports.map Port.shape := hshape ▸ List.mem_map_of_mem ho
      obtain ⟨p, hp, he⟩ := List.mem_map.1 hmem
      exact PortPiece.flattened_of_whole (he ▸ hwhole p hp)
    rw [List.flatMap_congr hone, List.flatMap_singleton']
  subst hos
  have hbody : m'.body = body.map compact := congrArg Module.body heq
  have hfinal : ∀ {b b'}, m.body = some b → m'.body = some b' → ∃ b₁ t, b' = b₁.compact ∧ m.BodyLowered cx generated b t ∧
      b.Edited t ∧ b.Steady b.IsArgument (fun _ => False) t ∧ b₁.Types b₁.args (m'.ports.map (·.ty)) ∧ Rearranged t b₁ ∧
      Hands (t.StandsFor m.pieces) t (b₁.StandsFor (m.flattened (cx.options.portsMayPreserve m.entry))) b₁ := by
    intro b b' hb hb'
    rw [hbody] at hb'
    obtain ⟨b₁, hb₁, rfl⟩ := Option.map_eq_some_iff.1 hb'
    obtain ⟨b₀, t, hb₀, hrest⟩ := hread b₁ hb₁
    obtain rfl := Option.some.inj (hb.symm.trans hb₀)
    exact ⟨b₁, t, rfl, hrest⟩
  have hlen : ∀ {b}, m.body = some b → b.args.length = m.ports.length := fun hb => by
    simpa using (htypes hb).length_eq
  refine ⟨?_, ?_, fun {b'} hb' => ?_, fun {b b'} hb hb' => ?_, fun {b b'} hb hb' => ?_⟩
  · exact hshape.symm
  · rw [hbody, Option.isSome_map, hsome]
  · obtain ⟨b, hb⟩ : ∃ b, m.body = some b := Option.isSome_iff_exists.1 (by
      rw [← hsome, ← Option.isSome_map (f := compact), ← hbody, hb']
      rfl)
    obtain ⟨b₁, t, rfl, -, -, -, htypes₁, -⟩ := hfinal hb hb'
    exact htypes₁
  · obtain ⟨b₁, t, rfl, -, he, hs, -, hr, hh⟩ := hfinal hb hb'
    refine ((hs.readers (hm hb).coherent he m.pieces).trans hh fun hx => ?_).readersFollow (hlen hb)
    obtain ⟨op, hop⟩ := Option.isSome_iff_exists.1 hx
    obtain ⟨op', hop', -⟩ := he.op? hop
    rw [hop']
    rfl
  · obtain ⟨b₁, t, rfl, hlowered, he, hs, -, hr, hh⟩ := hfinal hb hb'
    refine ⟨t, hlowered, hh.readersFollow (by rw [hs.args, hlen hb]), fun {x op} hop hlive hacc => ?_⟩
    obtain ⟨op', hop', -, -, -, -, hsame⟩ := hr.op? hop
    rw [stands_eq, op?_compact, hop', Option.any_some, hsame hacc, hlive]
    rfl

/-- A port with a field that flows against it, and a node that names the element of that field. -/
def flippedBody : Body where
  values := #[⟨.bundle [⟨"x", false, .uint 1⟩, ⟨"y", true, .vector (.uint 2) 1⟩], .argument, [⟨⟨0⟩, 0⟩]⟩,
    ⟨.vector (.uint 2) 1, .result ⟨0⟩ 0, [⟨⟨1⟩, 0⟩]⟩, ⟨.uint 2, .result ⟨1⟩ 0, [⟨⟨2⟩, 0⟩]⟩, ⟨.uint 2, .result ⟨2⟩ 0, []⟩]
  ops := #[⟨.subfield 1, [⟨0⟩], [⟨1⟩], Body.entry, false⟩, ⟨.subindex 0, [⟨1⟩], [⟨2⟩], Body.entry, false⟩,
    ⟨.node {}, [⟨2⟩], [⟨3⟩], Body.entry, false⟩]
  blocks := #[⟨[⟨0⟩, ⟨1⟩, ⟨2⟩], none⟩]
  args := [⟨0⟩]

/-- A module with that body. -/
def flippedModule : Module where
  name := "M"
  isPublic := true
  ports := [⟨"a", .bundle [⟨"x", false, .uint 1⟩, ⟨"y", true, .vector (.uint 2) 1⟩], .input, none, []⟩]
  annotations := []
  body := some flippedBody

theorem flippedModule_built : flippedModule.Built := by
  intro b hb
  obtain rfl := Option.some.inj hb
  exact ⟨⟨Body.entry, 3⟩, .call (.node ⟨2⟩ {}) (.call (.subindex ⟨1⟩ 0) (.call (.subfield ⟨0⟩ 1)
    (.start ⟨Body.entry, 0⟩ rfl) rfl) rfl) rfl⟩

example : (flippedModule.flattened false).map (fun o => (o.path, o.shape.name, o.shape.direction)) =
    [([0], "a_x", .input), ([1, 0], "a_y_0", .output)] := by decide +kernel

theorem portsFlattened_of_lower_flipped : ∃ r, flippedModule.lower ⟨{}, []⟩ 0 = .ok r ∧
    flippedModule.PortsFlattened ⟨{}, []⟩ 0 r.1 := by
  have hok : (flippedModule.lower ⟨{}, []⟩ 0).isOk := by decide +kernel
  cases hr : flippedModule.lower ⟨{}, []⟩ 0 with
  | error => rw [hr] at hok; cases hok
  | ok r =>
    refine ⟨r, rfl, portsFlattened_of_lower flippedModule_built.reachable (fun hb => ?_) hr⟩
    obtain rfl := Option.some.inj hb
    exact .cons rfl .nil

end Module

end Scalarize
