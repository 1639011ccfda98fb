import Scalarize.Proofs.Arguments
import Scalarize.Proofs.Targets

/-!
# Module ports

* `Port.narrow_ends` : the port of one part;
* `PortState.Holds`, `PortState.Tracks` : what holds while ports are split: the arguments of the body
  follow them, and every target is a declaration or a ground port;
* `Lower.splitPort_runs`, `Lower.ports_runs` : one port, and all ports, are split to the end.
-/

namespace Scalarize

open Body

variable {q : Setting} {R : OpId → Nat} {D : List OpId} {keep external : Bool}

/-! ## What holds while ports are split -/

/-- A port of its own needs no further split. -/
def Port.Whole (keep : Bool) (p : Port) : Prop := p.ty.isGround ∨ keep = true ∧ p.ty.preservable

/-- The declaration, or the ground port, that a target stands for. -/
def Target.Found (body : Option Body) (ports : List Port) (t : Target) : Prop :=
  match t.kind with
  | .operation o => ∃ b, body = some b ∧ b.Declared o
  | .port => ∃ p ∈ ports, p.ty.isGround ∧ p.sym = some t.sym

namespace PortState

variable {s s' : PortState} {ts : List Ty} {X Y : List Port}

/-- A body, unless the module is external, is lowered, and its arguments have the types of the ports. -/
def Holds (q : Setting) (R : OpId → Nat) (D : List OpId) (external : Bool) (ts : List Ty)
    (s : PortState) : Prop :=
  s.body.isNone = external ∧ ∀ b, s.body = some b → Lowered q b R D ts

/-- Every target is found. -/
def Tracks (s : PortState) (X : List Port) : Prop := s.symbols.Targets (Target.Found s.body X)

theorem Tracks.mono (h : Tracks s X) (hXY : ∀ p ∈ X, p.ty.isGround → p ∈ Y) : Tracks s Y := by
  refine Symbols.Targets.mono h fun t ht => ?_
  unfold Target.Found at ht ⊢
  split
  next ho => simpa only [ho] using ht
  next ho =>
    simp only [ho] at ht
    obtain ⟨p, hp, hg, hsym⟩ := ht
    exact ⟨p, hXY p hp hg, hg, hsym⟩

end PortState

/-! ## One layer -/

theorem Port.narrow_ends {must : Prop} {p : Port} {part : Part} {y : Symbols} {body : Option Body}
    {X : List Port} (hy : y.Targets (Target.Found body X))
    (hm : must → Annotated p.annotations p.ty ∧ p.ty.child? part.index = some part.ty ∧
      p.ty.childId? part.index = some part.fieldId) :
    Ends must (p.narrow part y) fun r => r.1.ty = part.ty ∧
      (must → Annotated r.1.annotations r.1.ty) ∧ r.2.Targets (Target.Found body (X ++ [r.1])) := by
  have hX : ∀ p', ∀ t, Target.Found body X t → Target.Found body (X ++ [p']) t := by
    intro p' t ht
    unfold Target.Found at ht ⊢
    split
    next ho => simpa only [ho] using ht
    next ho =>
      simp only [ho] at ht
      obtain ⟨p, hp, hg⟩ := ht
      exact ⟨p, List.mem_append_left _ hp, hg⟩
  unfold Port.narrow
  refine (restrict_ends hm).bind fun restricted hr => ?_
  cases hs : p.sym with
  | some base =>
    refine .pure ⟨rfl, hr, Symbols.Targets.derive (Symbols.Targets.mono hy (hX _)) fun hg => ?_⟩
    exact ⟨_, List.mem_append_right _ (List.mem_singleton_self _), hg, rfl⟩
  | none =>
    dsimp only
    split
    · exact .pure ⟨rfl, hr, Symbols.Targets.detached (Symbols.Targets.mono hy (hX _)) _ _⟩
    · exact .pure ⟨rfl, hr, Symbols.Targets.mono hy (hX _)⟩

namespace Lower

open PortState

/-- The arguments of the body follow a port that is split. -/
theorem splitBody_runs {s : PortState} {S T : List Ty} {p : Port} {ps : List Part} {X : List Port}
    (hs : s.Holds q R D external (S ++ p.ty :: T)) (htr : s.Tracks X) (hps : p.ty.PartsOf ps) {α : Type}
    {m : StateT PortState (Except Failure) α} {Q : α → PortState → Prop}
    (hm : ∀ s', s'.Holds q R D external (S ++ ps.map (·.ty) ++ T) → s'.Tracks X → Runs q.must m s' Q) :
    Runs q.must (do
      if let some b := (← get).body then
        let b ← b.splitArgument S.length (ps.map (·.ty))
        modify fun s => { s with body := some b }
      m) s Q := by
  refine Runs.bind (P := fun s' s'' => s = s' ∧ s = s'') (Runs.get ⟨rfl, rfl⟩) ?_
  rintro _ _ ⟨rfl, rfl⟩
  split
  next b hb =>
    refine Runs.bind (Runs.lift (Q := fun b' s' => s = s' ∧ _) ((hs.2 b hb).splitArgument_ends hps |>.mono
      fun b' hb' => ⟨rfl, hb'⟩)) ?_
    rintro b' _ ⟨rfl, hb', hkind⟩
    refine Runs.bind (Runs.modify (Q := fun _ s' => s' = ({ s with body := some b' } : PortState)) rfl) ?_
    rintro _ _ rfl
    refine hm _ ⟨by simp [← hs.1, hb], fun b'' hb'' => Option.some.inj hb'' ▸ hb'⟩ (Symbols.Targets.mono htr fun t ht => ?_)
    unfold Target.Found at ht ⊢
    split
    next o ho =>
      simp only [ho] at ht
      obtain ⟨b₀, hb₀, op, hop, hd⟩ := ht
      rw [hb] at hb₀
      obtain rfl := Option.some.inj hb₀
      obtain ⟨op', hop', hk⟩ := hkind hop
      exact ⟨b', rfl, op', hop', by rw [hk, hd]⟩
    next ho => simpa only [ho] using ht
  next hb => exact hm _ ⟨hs.1, fun b' hb' => (hb b' hb').elim⟩ htr

/-- The ports of the parts of one port. -/
theorem narrowPorts_runs {s : PortState} {ts : List Ty} {p : Port} {ps : List Part} {X : List Port}
    (hs : s.Holds q R D external ts) (htr : s.Tracks X) (hps : p.ty.PartsOf ps)
    (hm : q.must → Annotated p.annotations p.ty) :
    Runs q.must (ps.mapM fun part => (do
      let (port, symbols) ← p.narrow part (← get).symbols
      modify fun s : PortState => { s with symbols }
      return port : StateT PortState (Except Failure) Port)) s
      fun (new : List Port) (s' : PortState) => s'.Holds q R D external ts ∧ s'.Tracks (X ++ new) ∧
        new.map (·.ty) = ps.map (·.ty) ∧
        (q.must → ∀ n ∈ new, Annotated n.annotations n.ty) := by
  refine Runs.mapM (fun done (new : List Port) (s' : PortState) => s'.Holds q R D external ts ∧
    s'.Tracks (X ++ new) ∧ new.map (·.ty) = done.map (·.ty) ∧
    (q.must → ∀ n ∈ new, Annotated n.annotations n.ty)) ps ⟨hs, by simpa using htr, rfl, fun _ n hn => (by cases hn)⟩ ?_
  rintro done part rest new s hl ⟨hs, htr, hty, hann⟩
  have hpart : part ∈ ps := hl ▸ List.mem_append_right _ List.mem_cons_self
  refine Runs.bind (P := fun s' s'' => s = s' ∧ s = s'') (Runs.get ⟨rfl, rfl⟩) ?_
  rintro _ _ ⟨rfl, rfl⟩
  refine Runs.bind (Runs.lift (Q := fun r s' => s = s' ∧ _) ((Port.narrow_ends htr fun hmust =>
    ⟨hm hmust, hps.child_index hpart, hps.fieldId_index hpart⟩).mono fun r hr => ⟨rfl, hr⟩)) ?_
  rintro ⟨port, symbols⟩ _ ⟨rfl, hpty, hpann, hptr⟩
  refine Runs.bind (Runs.modify (Q := fun _ s' => s' = ({ s with symbols } : PortState)) rfl) ?_
  rintro _ _ rfl
  dsimp only at hpty hpann hptr ⊢
  refine .pure ⟨hs, by rw [← List.append_assoc]; exact hptr, by simp [hty, hpty], fun hmust n hn => ?_⟩
  rcases List.mem_append.1 hn with hn | hn
  · exact hann hmust n hn
  · obtain rfl := List.mem_singleton.1 hn
    exact hpann hmust

/-- What a function does that splits a port at a position of the argument list until its parts stay
whole. -/
def SplitsPort (q : Setting) (R : OpId → Nat) (D : List OpId) (external keep : Bool) (p : Port)
    (f : Nat → StateT PortState (Except Failure) (List Port)) : Prop :=
  ∀ {s : PortState} {S T : List Ty} {X : List Port}, s.Holds q R D external (S ++ p.ty :: T) →
    s.Tracks (X ++ [p]) →
    Runs q.must (f S.length) s fun ps s' => s'.Holds q R D external (S ++ ps.map (·.ty) ++ T) ∧
      s'.Tracks (X ++ ps) ∧ ∀ p ∈ ps, p.Whole keep

/-- Ports are split one after the other. -/
theorem splitEach_runs {s : PortState} {S T : List Ty} {X new : List Port}
    {f : Port → Nat → StateT PortState (Except Failure) (List Port)}
    (hf : ∀ n ∈ new, SplitsPort q R D external keep n (f n)) (hs : s.Holds q R D external (S ++ new.map (·.ty) ++ T))
    (htr : s.Tracks (X ++ new)) :
    Runs q.must (new.foldlM (fun done port => do return done ++ (← f port (S.length + done.length))) [])
      s fun ps s' => s'.Holds q R D external (S ++ ps.map (·.ty) ++ T) ∧ s'.Tracks (X ++ ps) ∧
        ∀ p ∈ ps, p.Whole keep := by
  refine (Runs.foldlM (fun (from_ : List Port) done s' => ∀ rest, new = from_ ++ rest →
    s'.Holds q R D external (S ++ done.map (·.ty) ++ (rest.map (·.ty) ++ T)) ∧ s'.Tracks (X ++ done ++ rest) ∧
      ∀ p ∈ done, p.Whole keep) new ?_ ?_).mono ?_
  · rintro rest rfl
    exact ⟨by simpa using hs, by simpa using htr, fun p hp => by cases hp⟩
  · intro from_ n rest done s' hl hI
    obtain ⟨hs', htr', hw⟩ := hI _ hl
    have hn : n ∈ new := hl ▸ List.mem_append_right _ List.mem_cons_self
    have hlen : S.length + done.length = (S ++ done.map (·.ty)).length := by simp
    rw [hlen]
    refine Runs.bind (hf n hn (S := S ++ done.map (·.ty)) (T := rest.map (·.ty) ++ T)
      (X := X ++ done ++ rest) (by simpa using hs') (htr'.mono fun p' hp' _ => ?_)) ?_
    · simp only [List.mem_append, List.mem_cons] at hp' ⊢
      tauto
    rintro more s'' ⟨hs'', htr'', hwhole⟩
    refine .pure fun rest' hrest' => ?_
    obtain rfl : rest' = rest := by simpa using (hl.symm.trans hrest').symm
    refine ⟨by simpa using hs'', htr''.mono fun p' hp' _ => ?_, fun p' hp' => ?_⟩
    · simp only [List.mem_append] at hp' ⊢
      tauto
    · rcases List.mem_append.1 hp' with hp' | hp'
      · exact hw p' hp'
      · exact hwhole p' hp'
  · intro done s' hI
    obtain ⟨hs', htr', hw⟩ := hI [] (by simp)
    exact ⟨by simpa using hs', by simpa using htr', hw⟩

/-- A port is split until all its parts stay whole. -/
theorem splitPort_runs (fuel : Nat) : ∀ {p : Port}, p.ty.depth ≤ fuel →
    (q.must → Annotated p.annotations p.ty) →
    SplitsPort q R D external keep p (splitPort keep fuel p) := by
  have hstay : ∀ {s : PortState} {S T : List Ty} {p : Port} {X : List Port},
      s.Holds q R D external (S ++ p.ty :: T) → s.Tracks (X ++ [p]) → p.Whole keep →
      s.Holds q R D external (S ++ [p].map (·.ty) ++ T) ∧ s.Tracks (X ++ [p]) ∧ ∀ p' ∈ [p], p'.Whole keep :=
    fun hs htr hw => ⟨by simpa using hs, htr, fun p' hp' => List.mem_singleton.1 hp' ▸ hw⟩
  induction fuel with
  | zero =>
    intro p hd _ s S T X hs htr
    refine .pure (hstay hs htr (.inl ?_))
    by_contra hg
    have := Ty.depth_pos (Bool.eq_false_iff.2 hg)
    omega
  | succ fuel ih =>
    intro p hd hann s S T X hs htr
    unfold splitPort
    refine Runs.bind (Runs.lift (Q := fun r s' => s = s' ∧ _)
      ((Ty.peel_ends fun hm => (hann hm).isSome).mono fun r hr => ⟨rfl, hr⟩)) ?_
    rintro (_ | ps) _ ⟨rfl, hpeel⟩
    · exact .pure (hstay hs htr hpeel)
    obtain ⟨hps, -⟩ := hpeel
    -- an aggregate is nobody's target
    have htr' : s.Tracks X := htr.mono fun p' hp' hg => by
      rcases List.mem_append.1 hp' with hp' | hp'
      · exact hp'
      · rw [List.mem_singleton.1 hp', hps.aggregate] at hg
        cases hg
    refine (narrowPorts_runs hs htr' hps hann).bind ?_
    rintro new s₁ ⟨hs₁, htr₁, hty, hannNew⟩
    refine splitBody_runs hs₁ htr₁ hps fun s₂ hs₂ htr₂ => ?_
    rw [← hty] at hs₂
    refine splitEach_runs (fun n hn => ih ?_ fun hm => hannNew hm n hn) hs₂ htr₂
    obtain ⟨part, hpart, he⟩ := List.mem_map.1 (hty ▸ List.mem_map_of_mem hn : n.ty ∈ ps.map (·.ty))
    have := hps.depth_lt hpart
    have he' : part.ty = n.ty := he
    rw [he'] at this
    omega

/-- All ports are split until their parts stay whole. -/
theorem ports_runs {s : PortState} {ps : List Port} (hs : s.Holds q R D external (ps.map (·.ty)))
    (htr : s.Tracks ps) (hm : q.must → ∀ p ∈ ps, Annotated p.annotations p.ty) :
    Runs q.must (ports keep ps) s fun new s' => s'.Holds q R D external (new.map (·.ty)) ∧ s'.Tracks new ∧
      ∀ p ∈ new, p.Whole keep := by
  have heach : ∀ p ∈ ps, SplitsPort q R D external keep p (splitPort keep p.ty.depth p) :=
    fun p hp => splitPort_runs _ (Nat.le_refl _) fun hmust => hm hmust p hp
  have hsplit := splitEach_runs (S := []) (T := []) (X := []) heach (by simpa using hs)
    (by simpa using htr)
  simpa [ports] using hsplit

end Lower

end Scalarize
