import Scalarize.Proofs.Circuits
import Scalarize.Proofs.Completeness
import Scalarize.Proofs.Edits.Standing
import Scalarize.Proofs.Reachable

/-!
# Instances match the modules that they instantiate

* `PortShape`, `Flattens` : what of a port both sides share, and how a list of them is split to the end;
* `Body.Offers` : the ports of an instance;
* `Traced` : the ports of each instance are on the way to those of its module;
  `Traced.events` : every edit keeps that;
* `Circuit.fits_lower` : instances match their modules in a lowered circuit.
-/

namespace Scalarize

open Body

/-! ## Splitting lists of ports -/

/-- Name, direction and type of a port, seen from inside its module or from an instance. -/
structure PortShape where
  name : String
  direction : Direction
  ty : Ty

namespace PortShape

/-- The port of one part. -/
def part (e : PortShape) (part : Part) : PortShape :=
  ⟨e.name ++ part.suffix, e.direction.flipIf part.flip, part.ty⟩

end PortShape

/-- Ports are split, the first one first, until all of them stay whole. -/
inductive Flattens (keep : Bool) : List PortShape → List PortShape → Prop
  | nil : Flattens keep [] []
  | whole {e : PortShape} {l l' : List PortShape} (h : e.ty.peel keep = .ok none)
      (rest : Flattens keep l l') : Flattens keep (e :: l) (e :: l')
  | split {e : PortShape} {parts : List Part} {l l' : List PortShape}
      (h : e.ty.peel keep = .ok (some parts)) (rest : Flattens keep (parts.map e.part ++ l) l') :
      Flattens keep (e :: l) l'

namespace Flattens

variable {keep : Bool} {e : PortShape} {parts : List Part} {l l₁ l₂ m m₁ m₂ : List PortShape}

/-- There is one way to split ports to the end. -/
theorem unique (h₁ : Flattens keep l l₁) (h₂ : Flattens keep l l₂) : l₁ = l₂ := by
  induction h₁ generalizing l₂ with
  | nil =>
    cases h₂
    rfl
  | whole h _ ih =>
    cases h₂ with
    | whole _ rest => rw [ih rest]
    | split h' => rw [h] at h'; cases h'
  | split h _ ih =>
    cases h₂ with
    | whole h' => rw [h] at h'; cases h'
    | split h' rest =>
      rw [h] at h'
      obtain rfl := Option.some.inj (Except.ok.inj h')
      exact ih rest

theorem append (h : Flattens keep l l₁) (hm : Flattens keep m m₁) :
    Flattens keep (l ++ m) (l₁ ++ m₁) := by
  induction h with
  | nil => exact hm
  | whole h _ ih => exact .whole h ih
  | split h _ ih =>
    refine .split h ?_
    rw [List.append_assoc] at ih
    exact ih

theorem of_append (h : Flattens keep (l ++ m) m₂) :
    ∃ l₁ m₁, m₂ = l₁ ++ m₁ ∧ Flattens keep l l₁ ∧ Flattens keep m m₁ := by
  generalize hlm : l ++ m = lm at h
  induction h generalizing l with
  | nil =>
    obtain ⟨rfl, rfl⟩ := List.append_eq_nil_iff.1 hlm
    exact ⟨[], [], rfl, .nil, .nil⟩
  | @whole e l' l'' h rest ih =>
    rcases List.append_eq_cons_iff.1 hlm with ⟨rfl, rfl⟩ | ⟨l, rfl, rfl⟩
    · exact ⟨[], e :: l'', rfl, .nil, .whole h rest⟩
    · obtain ⟨l₁, m₁, rfl, h₁, h₂⟩ := ih rfl
      exact ⟨e :: l₁, m₁, rfl, .whole h h₁, h₂⟩
  | @split e parts l' l'' h rest ih =>
    rcases List.append_eq_cons_iff.1 hlm with ⟨rfl, rfl⟩ | ⟨l, rfl, rfl⟩
    · exact ⟨[], l'', rfl, .nil, .split h rest⟩
    · obtain ⟨l₁, m₁, rfl, h₁, h₂⟩ := ih (List.append_assoc _ _ _)
      exact ⟨l₁, m₁, rfl, .split h h₁, h₂⟩

/-- It does not matter which port is split first. -/
theorem unsplit (he : e.ty.peel keep = .ok (some parts))
    (h : Flattens keep (l ++ parts.map e.part ++ m) m₂) : Flattens keep (l ++ e :: m) m₂ := by
  rw [List.append_assoc] at h
  obtain ⟨l₁, m₁, rfl, h₁, h₂⟩ := h.of_append
  exact h₁.append (.split he h₂)

/-- Ports that stay whole are split to the end. -/
theorem of_whole (h : ∀ e ∈ l, e.ty.peel keep = .ok none) : Flattens keep l l := by
  induction l with
  | nil => exact .nil
  | cons e l ih =>
    exact .whole (h e List.mem_cons_self) (ih fun e he => h e (List.mem_cons_of_mem _ he))

end Flattens

/-! ## Module ports -/

/-- What an instance sees of a port. -/
def Port.shape (p : Port) : PortShape := ⟨p.name, p.direction, p.ty⟩

/-- The ports of a module, as an instance sees them. -/
def Module.shape (m : Module) : List PortShape := m.ports.map Port.shape

theorem Port.shape_narrow {p n : Port} {part : Part} {y y' : Symbols} (h : p.narrow part y = .ok (n, y')) :
    n.shape = p.shape.part part := by
  have hends : Ends False (p.narrow part y) fun r => r.1.shape = p.shape.part part :=
    Ends.bind (P := fun _ => True) (.intro (fun _ _ => trivial) nofun) fun _ _ => .pure rfl
  exact hends.of_ok h

theorem Port.Narrows.map_shape {p : Port} {parts : List Part} {y y' : Symbols} {new : List Port}
    (h : p.Narrows parts y new y') : new.map Port.shape = parts.map p.shape.part := by
  induction h with
  | nil => rfl
  | snoc _ hlast ih => simp [ih, shape_narrow hlast]

/-- Ports are on the way to what the ports `l` are split into. -/
def OnTheWay (keep : Bool) (l l' : List PortShape) : Prop := ∀ m, Flattens keep l' m → Flattens keep l m

theorem OnTheWay.append {keep : Bool} {l l' m m' : List PortShape} (h : OnTheWay keep l l')
    (hm : OnTheWay keep m m') : OnTheWay keep (l ++ m) (l' ++ m') := fun n hn => by
  obtain ⟨l₁, m₁, rfl, h₁, h₂⟩ := hn.of_append
  exact (h l₁ h₁).append (hm m₁ h₂)

theorem OnTheWay.narrows {keep : Bool} {l : List PortShape} {A B new : List Port} {p : Port}
    {parts : List Part} {y y' : Symbols} (h : OnTheWay keep l ((A ++ p :: B).map Port.shape))
    (hpeel : p.ty.peel keep = .ok (some parts)) (hnew : p.Narrows parts y new y') :
    OnTheWay keep l ((A ++ new ++ B).map Port.shape) := fun m hm => by
  rw [List.map_append, List.map_append, hnew.map_shape] at hm
  refine h m ?_
  rw [List.map_append, List.map_cons]
  exact hm.unsplit hpeel

/-! ## Instances -/

/-- The ports of an instance with these results, as its body sees them. -/
structure Body.Offers (b : Body) (results : List ValueId) (ports : List InstancePort)
    (l : List PortShape) : Prop where
  ports : ports.map (fun p => (p.name, p.direction)) = l.map fun e => (e.name, e.direction)
  types : b.Types results (l.map (·.ty))

namespace Body.Offers

variable {b b' : Body} {results : List ValueId} {ports : List InstancePort} {l : List PortShape}
  {keep : Bool} {splits : List (ValueId × SplitPort)}

theorem mono (h : b.Offers results ports l) (hty : ∀ {v t}, b.ty? v = some t → b'.ty? v = some t) :
    b'.Offers results ports l := ⟨h.ports, h.types.imp fun _ _ ht => hty ht⟩

/-- What one port of an instance is split into. -/
theorem split_ends {p : InstancePort} {ty : Ty} :
    Ends False (p.split ty keep) fun s => ∃ l, OnTheWay keep [⟨p.name, p.direction, ty⟩] l ∧
      s.ports.map (fun p => (p.name, p.direction)) = l.map (fun e => (e.name, e.direction)) ∧
      s.types = l.map (·.ty) ∧ (s.changed = false → ty.peel keep = .ok none) := by
  unfold InstancePort.split
  refine Ends.bind (P := fun ps? => ty.peel keep = .ok ps?) (.intro (fun _ h => h) nofun) fun ps? hpeel => ?_
  cases ps? with
  | none => exact .pure ⟨[⟨p.name, p.direction, ty⟩], fun _ h => h, rfl, rfl, fun _ => hpeel⟩
  | some parts =>
    refine Ends.bind (Ends.mapM (fun _ _ => True) parts fun _ _ => .intro (fun _ _ => trivial) nofun)
      fun restricted hr => .pure ?_
    refine ⟨parts.map (PortShape.part ⟨p.name, p.direction, ty⟩), fun m hm => ?_, ?_, ?_, nofun⟩
    · exact .split hpeel (by simpa using hm)
    · have hfst := List.map_fst_zip (Nat.le_of_eq hr.length_eq)
      rw [List.map_map, List.map_map]
      conv_rhs => rw [← hfst, List.map_map]
      rfl
    · simp [PortShape.part]

/-- What the ports of an instance are split into. -/
theorem split (h : b.Offers results ports l)
    (hs : List.Forall₂ (b.Splits keep) (ports.zip results) splits) :
    ∃ l', OnTheWay keep l l' ∧
      (splits.flatMap (·.2.ports)).map (fun p => (p.name, p.direction)) =
        l'.map (fun e => (e.name, e.direction)) ∧
      splits.flatMap (·.2.types) = l'.map (·.ty) ∧
      ((∀ s ∈ splits, s.2.changed = false) → ∀ e ∈ l, e.ty.peel keep = .ok none) := by
  have hports := h.ports
  have htypes := h.types
  clear h
  induction l generalizing ports results splits with
  | nil =>
    obtain rfl : ports = [] := List.map_eq_nil_iff.1 hports
    cases hs
    exact ⟨[], fun _ h => h, rfl, rfl, fun _ => nofun⟩
  | cons e l ih =>
    obtain ⟨p, ports, rfl, he, hports₀⟩ := List.map_eq_cons_iff.1 hports
    obtain ⟨v, results, hv, htypes₀, rfl⟩ := List.forall₂_cons_right_iff.1 htypes
    obtain ⟨s, splits, ⟨-, ty, hty, hsplit⟩, hs₀, rfl⟩ := List.forall₂_cons_left_iff.1 hs
    obtain rfl := Option.some.inj (hv.symm.trans hty)
    obtain ⟨hname, hdir⟩ : p.name = e.name ∧ p.direction = e.direction := by simpa using he
    obtain ⟨l₁, hway₁, hports₁, htypes₁, hchanged⟩ := split_ends.of_ok hsplit
    obtain ⟨l', hway, hports', htypes', hwhole⟩ := ih hs₀ hports₀ htypes₀
    refine ⟨l₁ ++ l', ?_, ?_, ?_, fun hun e' he' => ?_⟩
    · have : OnTheWay keep ([e] ++ l) (l₁ ++ l') := OnTheWay.append (by rwa [hname, hdir] at hway₁) hway
      exact this
    · rw [List.flatMap_cons, List.map_append, List.map_append, hports₁, hports']
    · rw [List.flatMap_cons, List.map_append, htypes₁, htypes']
    · obtain ⟨hs', hrest⟩ := List.forall_mem_cons.1 hun
      rcases List.mem_cons.1 he' with rfl | he'
      · exact hchanged hs'
      · exact hwhole hrest e' he'

end Body.Offers

/-! ## What edits leave of instances -/

namespace Body

variable {b b' b₀ : Body} {o x : OpId} {op : Operation} {i : Instance} {C : OpId → Prop}
  {face : String → List PortShape} {cx : Context} {y : Symbols}

/-- The instances with `C` that stand have ports on the way to those that their modules have in the
end. -/
def Traced (cx : Context) (face : String → List PortShape) (C : OpId → Prop) (b : Body) : Prop :=
  ∀ x op i, C x → b.op? x = some op → op.erased = false → op.kind = .inst i →
    ∃ l, b.Offers op.results i.ports l ∧ ∀ entry, cx.modules.get? i.moduleName = some entry →
      OnTheWay (cx.options.portsMayPreserve entry) (face i.moduleName) l

/-- In `b'` only those instances stand that do so in `b`. -/
structure NoNewInstance (b b' : Body) : Prop where
  inst : ∀ {x op' i}, b'.op? x = some op' → op'.erased = false → op'.kind = .inst i →
    ∃ op, b.op? x = some op ∧ op.erased = false ∧ op.kind = .inst i ∧ op.results = op'.results
  ty? : ∀ {v t}, b.ty? v = some t → b'.ty? v = some t

theorem Traced.less (h : Traced cx face C b) (hb : NoNewInstance b b') : Traced cx face C b' := by
  intro x op' i hC hop' he hk
  obtain ⟨op, hop, he₀, hk₀, hres⟩ := hb.inst hop' he hk
  obtain ⟨l, hl, hway⟩ := h _ _ _ hC hop he₀ hk₀
  exact ⟨l, hres ▸ hl.mono hb.ty?, hway⟩

namespace NoNewInstance

theorem created {p : Point} {kind : OpKind} {vs : List ValueId} {tys : List Ty}
    (hc : Created b p kind vs tys x b') (hk : ∀ i, kind ≠ .inst i) : NoNewInstance b b' where
  inst hx he hkind := by
    rcases hc.op?_cases hx with hx | ⟨-, rfl⟩
    · exact ⟨_, hx, he, hkind, rfl⟩
    · exact absurd hkind (hk _)
  ty? := hc.extended.ty?_some

theorem declared (h : NoNewInstance b b') (hx : ∀ op i, b'.op? x = some op → op.kind ≠ .inst i)
    (f : Decl → Decl) : NoNewInstance b (b'.modifyDecl x f) where
  inst {x' op' i} hx' he hk := by
    rw [op?_modifyDecl] at hx'
    obtain ⟨op, hop, rfl⟩ := Option.map_eq_some_iff.1 hx'
    by_cases heq : x' = x
    · rw [if_pos heq] at hk
      cases hkind : op.kind with
      | inst i' => exact absurd hkind (hx op i' (heq ▸ hop))
      | _ => rw [hkind] at hk; cases hk
    · rw [if_neg heq] at he hk ⊢
      exact h.inst hop he hk
  ty? hv := by rw [ty?_modifyDecl, h.ty? hv]

theorem replaced {v w : ValueId} (hr : Replaced b v w b') : NoNewInstance b b' where
  inst hx he hk := by
    rw [hr.op?] at hx
    obtain ⟨op, hop, rfl⟩ := Option.map_eq_some_iff.1 hx
    exact ⟨op, hop, he, hk, rfl⟩
  ty? hv := by rw [hr.outlives.ty?, hv]

theorem dropped {f : Bool → Bool} (hf : f true = true) (hd : Dropped b x f b') : NoNewInstance b b' where
  inst {x' op' i} hx he hk := by
    obtain ⟨op, hop, hkind, hres, -⟩ := (hd.outlives hf).op?_some' hx
    have hs := hd.standing?_some hf (standing?_of_op? hx he)
    obtain ⟨op₁, hop₁, he₁, -⟩ := standing?_eq_some_iff.1 hs
    obtain rfl := Option.some.inj (hop.symm.trans hop₁)
    exact ⟨op, hop, he₁, hkind ▸ hk, hres.symm⟩
  ty? hv := by rw [(hd.outlives hf).ty?, hv]

end NoNewInstance

/-- The ports of instances stay on their way while an operation is lowered. -/
theorem Traced.events (h : Traced cx face C b₀) (hop : b₀.op? o = some op) (he : op.erased = false)
    (hC : C o) : Events cx b₀ o op fun _ b _ => Traced cx face C b where
  create _ hS hk hc := hS.less (.created hc fun i hi => by rw [hi] at hk; exact hk)
  guard _ hS hc := hS.less (.created hc nofun)
  part {_ _ _ b y kind _ _ _ x b' _ _} _ hS _ _ hcopies hc _ := by
    have hkind : ∀ i, kind ≠ .inst i := fun i hi => by
      have := hcopies.plain
      rw [hi] at this
      exact this
    refine hS.less ((NoNewInstance.created hc hkind).declared (fun op' i hop' => ?_) _)
    rw [hc.op?_self] at hop'
    obtain rfl := Option.some.inj hop'
    exact hkind i
  memory {_ _ _ b y m part m' _ x b'} _ hS _ _ _ _ hc := by
    have hnew : NoNewInstance b b' := .created hc nofun
    unfold Memory.forPart
    split
    · refine hS.less (hnew.declared (fun op' i hop' hi => ?_) _)
      rw [hc.op?_self] at hop'
      obtain rfl := Option.some.inj hop'
      cases hi
    · exact hS.less hnew
  inst {y i entry splits p x b'} hS hk hentry hsplits hc _ := by
    -- the new instance has the ports that those of the former one are split into
    obtain ⟨l, hl, hway⟩ := h _ _ _ hC hop he hk
    obtain ⟨l', hway', hports, htypes, -⟩ := hl.split hsplits
    intro x' op' i' hC' hop' he' hk'
    rcases hc.op?_cases hop' with hop' | ⟨rfl, rfl⟩
    · obtain ⟨l, hl, hway⟩ := hS _ _ _ hC' hop' he' hk'
      exact ⟨l, hl.mono hc.extended.ty?_some, hway⟩
    · obtain rfl : i.split splits (i.renamed splits y).1 = i' := by simpa using hk'
      refine ⟨l', ⟨hports, ?_⟩, fun entry' hentry' m hm => ?_⟩
      · rw [← htypes]
        exact hc.types_results
      · obtain rfl := Option.some.inj (hentry.symm.trans hentry')
        exact hway _ hentry m (hway' m hm)
  replace _ hS hr := hS.less (.replaced hr)
  drop _ hS hf _ hd := hS.less (.dropped hf hd)

/-- The ports of instances stay on their way while a body is lowered. -/
theorem Traced.keptBySteps (hb₀ : b₀.Coherent) :
    KeptBySteps cx b₀ fun b _ => Traced cx face b₀.Counts b := fun hedited h hop hw _ _ _ =>
  (h.events hop (erased_of_stands hop hw.stands) (hedited.counts hb₀ hw)).lowersTo hedited.coherent hop h
    fun hS _ => hS

/-- Every instance that a walk lists has the ports of the module with its name. -/
def Fits (face : String → List PortShape) (b : Body) : Prop :=
  ∀ x ∈ b.walk, ∀ op i, b.op? x = some op → op.kind = .inst i →
    b.Offers op.results i.ports (face i.moduleName)

theorem Fits.traced (h : b.Fits face) (hb : b.Coherent) : Traced cx face b.Counts b :=
  fun x op i hC hop he hk => by
    have hw : b.Walked x := hC (by rw [hop]; rfl)
    exact ⟨_, h x (hb.mem_walk_iff.2 hw) op i hop hk, fun _ _ _ hm => hm⟩

/-- Every instance that a walk lists has the ports that those of its module are split into. -/
def FitsEnd (cx : Context) (face : String → List PortShape) (b : Body) : Prop :=
  ∀ x op i, b.Walked x → b.op? x = some op → op.kind = .inst i → ∃ entry l,
    cx.modules.get? i.moduleName = some entry ∧ b.Offers op.results i.ports l ∧
    Flattens (cx.options.portsMayPreserve entry) (face i.moduleName) l

theorem Traced.fitsEnd (h : Traced cx face b₀.Counts b) (hb₀ : b₀.Coherent) (hb : b₀.Edited b)
    (hwhole : ∀ x op, b.Walked x → b.op? x = some op → b.Whole cx op) : b.FitsEnd cx face := by
  intro x op i hw hop hk
  obtain ⟨l, hl, hway⟩ := h x op i (hb.counts hb₀ hw) hop (erased_of_stands hop hw.stands) hk
  obtain ⟨entry, splits, hentry, hsplits, hall⟩ := hwhole x op hw hop i hk
  obtain ⟨-, -, -, -, hl'⟩ := hl.split hsplits
  exact ⟨entry, l, hentry, hl, hway entry hentry l (.of_whole (hl' hall))⟩

theorem FitsEnd.rearranged (h : b.FitsEnd cx face) (hb : b.Coherent) (hr : b.Rearranged b') :
    b'.FitsEnd cx face := by
  intro x op' i hw hop' hk
  obtain ⟨op, hop⟩ := Option.isSome_iff_exists.1 (hr.old hop')
  obtain ⟨op'', hop'', hkind, hres, -⟩ := hr.op? hop
  obtain rfl := Option.some.inj (hop'.symm.trans hop'')
  obtain ⟨entry, l, hentry, hl, hflat⟩ := h x op i (hr.edited.walked hb hw (hr.old hop')) hop (hkind ▸ hk)
  exact ⟨entry, l, hentry, hres ▸ hl.mono hr.ty?, hflat⟩

end Body

/-! ## Modules -/

/-- The ports of a module, and those of the instances in its body, are split to the end. -/
structure Module.FitsEnd (cx : Context) (face : String → List PortShape) (m m' : Module) : Prop where
  name : m'.name = m.name
  ports : Flattens (cx.options.portsMayPreserve m.entry) m.shape m'.shape
  body : ∀ {b'}, m'.body = some b' → b'.Coherent ∧ b'.FitsEnd cx face

theorem Module.fitsEnd_lower {cx : Context} {face : String → List PortShape} {m : Module} {generated : Nat}
    (hm : m.Reachable) (h : ∀ {b}, m.body = some b → b.Fits face) :
    Ends False (m.lower cx generated) fun r => m.FitsEnd cx face r.1 := by
  have hedits : PortEdits (cx.options.portsMayPreserve m.entry) fun ps s =>
      OnTheWay (cx.options.portsMayPreserve m.entry) m.shape (ps.map Port.shape) ∧
        ∀ b, s.body = some b → b.Coherent ∧ b.FitsEnd cx face := by
    refine ⟨fun {A B p s parts new y body} hJ hpeel hnew hbody => ⟨?_, ?_⟩⟩
    · exact hJ.1.narrows hpeel hnew
    · rintro b rfl
      unfold SplitsArgument at hbody
      split at hbody
      next => cases hbody
      next b₁ hb₁ =>
        obtain ⟨b', hb', heq⟩ := hbody
        obtain rfl := Option.some.inj heq
        obtain ⟨hcoherent, hfits⟩ := hJ.2 b₁ hb₁
        have hr := (splitArgument_ends hcoherent _ _).of_ok hb'
        exact ⟨hr.coherent, hfits.rearranged hcoherent hr⟩
  refine (lower_any (S := fun b₀ b _ => b.Traced cx face b₀.Counts) (fun hb => (hm hb).coherent)
    (fun hb => ⟨Body.Traced.keptBySteps (hm hb).coherent, (h hb).traced (hm hb).coherent⟩) hedits
    (fun _ => ⟨fun _ hl => hl, nofun⟩) ?_).mono ?_
  · rintro b₀ b y hb₀ hedited hS hwhole
    refine ⟨fun _ hl => hl, fun b' hb' => ?_⟩
    obtain rfl := Option.some.inj hb'
    exact ⟨hedited.coherent, hS.fitsEnd (hm hb₀).coherent hedited hwhole⟩
  · rintro ⟨m', y⟩ hl
    obtain ⟨body, ⟨hway, hbody⟩, heq⟩ := hl.state
    refine ⟨by rw [heq], hway _ (.of_whole fun e he => ?_), fun {b'} hb' => ?_⟩
    · obtain ⟨p, hp, rfl⟩ := List.mem_map.1 he
      exact hl.whole p hp
    · rw [heq] at hb'
      obtain ⟨b, hb, rfl⟩ := Option.map_eq_some_iff.1 hb'
      obtain ⟨hcoherent, hfits⟩ := hbody b hb
      refine ⟨hcoherent.compact, fun x op i hw hop hk => ?_⟩
      rw [← hcoherent.compact.mem_walk_iff, walk_compact, hcoherent.mem_walk_iff] at hw
      obtain ⟨entry, l, hentry, hl, hflat⟩ := hfits x op i hw hop hk
      exact ⟨entry, l, hentry, hl.mono id, hflat⟩

/-! ## Circuits -/

/-- Every instance that a walk lists instantiates a module of the circuit, and its ports have the names,
directions and types of the ports of that module, in the same order. -/
def Circuit.Fits (c : Circuit) : Prop :=
  ∀ m ∈ c.modules, ∀ b, m.body = some b → ∀ x ∈ b.walk, ∀ op i, b.op? x = some op → op.kind = .inst i →
    ∃ n ∈ c.modules, n.name = i.moduleName ∧ b.Offers op.results i.ports n.shape

theorem Circuit.mem_of_moduleTable {c : Circuit} {name : String} {entry : ModuleEntry}
    (h : c.moduleTable.get? name = some entry) : ∃ m ∈ c.modules, m.name = name ∧ m.entry = entry := by
  have hcases : ∀ (ms : List Module) (table : ModuleTable),
      (ms.foldl (fun table m => table.put m.name m.entry) table).get? name = some entry →
      table.get? name = some entry ∨ ∃ m ∈ ms, m.name = name ∧ m.entry = entry := by
    intro ms
    induction ms with
    | nil => exact fun table h => .inl h
    | cons m ms ih =>
      intro table h
      rcases ih _ h with h | ⟨n, hn, h⟩
      · rw [Assoc.get?_put] at h
        split at h
        next heq => exact .inr ⟨m, List.mem_cons_self, heq, Option.some.inj h⟩
        next => exact .inl h
      · exact .inr ⟨n, List.mem_cons_of_mem _ hn, h⟩
  rcases hcases c.modules [] h with h | h
  · cases h
  · exact h

/-- The ports of the module with a name. -/
def Circuit.face (c : Circuit) (name : String) : List PortShape :=
  ((c.modules.find? (·.name == name)).map Module.shape).getD []

/-- Names tell modules apart. -/
theorem eq_of_name_eq {ms : List Module} (h : (ms.map (·.name)).Nodup) {m n : Module} (hm : m ∈ ms)
    (hn : n ∈ ms) (hname : m.name = n.name) : m = n :=
  List.inj_on_of_nodup_map h hm hn hname

theorem Circuit.face_eq {c : Circuit} (h : (c.modules.map (·.name)).Nodup) {m : Module}
    (hm : m ∈ c.modules) : c.face m.name = m.shape := by
  unfold face
  cases hf : c.modules.find? (·.name == m.name) with
  | none => exact absurd (List.find?_eq_none.1 hf m hm) (by simp)
  | some n =>
    have hname : n.name = m.name := by simpa using List.find?_some hf
    rw [eq_of_name_eq h (List.mem_of_find?_eq_some hf) hm hname]
    rfl

theorem Port.Reannotated.shape {p p' : Port} (h : p.Reannotated p') : p'.shape = p.shape := by
  obtain ⟨a, rfl⟩ := h
  rfl

theorem Module.Reannotated.shape {m m' : Module} (h : m.Reannotated m') : m'.shape = m.shape := by
  unfold Module.shape
  have := h.ports
  generalize m.ports = ps at this
  generalize m'.ports = ps' at this
  induction this with
  | nil => rfl
  | cons hp _ ih => rw [List.map_cons, List.map_cons, hp.shape, ih]

theorem Body.Reannotated.live {b b' : Body} (h : b.Reannotated b') : b'.live = b.live := by
  have hstands : b'.stands = b.stands := funext fun x => by
    obtain ⟨f, hf⟩ := h.op? x
    rw [stands_eq, stands_eq, hf]
    cases b.op? x <;> rfl
  funext k
  unfold Body.live
  rw [h.blocks, hstands]

/-- Annotations do not matter for what a walk lists. -/
theorem Body.Reannotated.walk {b b' : Body} (h : b.Reannotated b') : b'.walk = b.walk := by
  have houtline : ∀ n k, b'.outlineWith n k = b.outlineWith n k := by
    intro n
    induction n with
    | zero => exact fun _ => rfl
    | succ n ih =>
      intro k
      unfold outlineWith
      rw [h.live]
      refine List.map_congr_left fun x _ => ?_
      obtain ⟨f, hf⟩ := h.op? x
      have hkind : b'.kind? x = (b.kind? x).map fun k => k.mapDecl fun d =>
          { d with annotations := f d.annotations } := by
        rw [kind?_eq, kind?_eq, hf]
        cases b.op? x <;> rfl
      rw [hkind]
      cases b.kind? x with
      | none => rfl
      | some kind => cases kind <;> simp only [Option.map_some, OpKind.mapDecl, ih]
  unfold Body.walk outline
  rw [h.blocks, houtline]

/-- If every instance has the ports of the module that it instantiates, so has every instance of the
lowered circuit. -/
theorem Circuit.fits_lower {c c' : Circuit} {options : Options} {generated generated' : Nat} {stats : Stats}
    (hc : c.Reachable) (hnames : (c.modules.map (·.name)).Nodup) (hfits : c.Fits)
    (h : c.lower options generated = .ok (c', stats, generated')) : c'.Fits := by
  have hbodies : ∀ m ∈ c.modules, ∀ {b}, m.body = some b → b.Fits c.face := by
    intro m hm b hb x hx op i hop hk
    obtain ⟨n, hn, hname, ho⟩ := hfits m hm b hb x hx op i hop hk
    rw [← hname, Circuit.face_eq hnames hn]
    exact ho
  have hlower : Ends False (c.lower options generated) fun r => ∃ ms,
      List.Forall₂ (Module.FitsEnd ⟨options, c.moduleTable⟩ c.face) c.modules ms ∧
      Reannotated { c with modules := ms } r.1 :=
    Circuit.lower_ends fun m hm g =>
      (Module.fitsEnd_lower (hc m hm) (hbodies m hm)).mono fun r hr => ⟨hr, nofun⟩
  obtain ⟨ms, hms, hre⟩ := hlower.of_ok h
  intro m' hm' b' hb' x hx op i hop hk
  obtain ⟨m₁, hm₁, hrm⟩ := exists_of_forall₂ hre.modules hm'
  obtain ⟨m, hm, hend⟩ := exists_of_forall₂ hms hm₁
  -- the ports of the instance are those of its module, split to the end
  have hrel := hrm.body
  rw [hb'] at hrel
  cases hb₁ : m₁.body with
  | none => rw [hb₁] at hrel; cases hrel
  | some b₁ =>
    rw [hb₁] at hrel
    cases hrel with
    | some hrb =>
      obtain ⟨hcoherent, hfits'⟩ := hend.body hb₁
      obtain ⟨op₁, f, hop₁, rfl⟩ := hrb.op?_some' hop
      have hkind : ∃ i₁, op₁.kind = .inst i₁ ∧ i₁.moduleName = i.moduleName ∧ i₁.ports = i.ports := by
        dsimp only at hk
        cases hk₁ : op₁.kind with
        | inst i₁ =>
          rw [hk₁] at hk
          obtain rfl := OpKind.inst.inj hk
          exact ⟨i₁, rfl, rfl, rfl⟩
        | _ => rw [hk₁] at hk; cases hk
      obtain ⟨i₁, hk₁, hname, hports⟩ := hkind
      rw [hrb.walk, hcoherent.mem_walk_iff] at hx
      obtain ⟨entry, l, hentry, hl, hflat⟩ := hfits' x op₁ i₁ hx hop₁ hk₁
      -- and so are the ports of the module
      obtain ⟨n, hn, hnname, rfl⟩ := Circuit.mem_of_moduleTable hentry
      obtain ⟨n₁, hn₁, hendn⟩ := exists_of_forall₂ hms.flip hn
      obtain ⟨n', hn', hrn⟩ := exists_of_forall₂ hre.modules.flip hn₁
      rw [← hnname, Circuit.face_eq hnames hn] at hflat
      obtain rfl := hflat.unique hendn.ports
      refine ⟨n', hn', by rw [hrn.name, hendn.name, hnname, hname], ?_⟩
      rw [hrn.shape, ← hports]
      exact hl.mono fun hv => by rwa [hrb.ty?]

/-- An instance of `E` with a port of one field. -/
def instBody : Body where
  values := #[⟨.bundle [⟨"x", false, .uint 1⟩], .result ⟨0⟩ 0, []⟩]
  ops := #[⟨.inst ⟨{}, "E", [⟨"a", .input, []⟩], false⟩, [], [⟨0⟩], Body.entry, false⟩]
  blocks := #[⟨[⟨0⟩], none⟩]

/-- A module with that instance, and the module that it instantiates. -/
def instCircuit : Circuit where
  name := "M"
  modules := [⟨"M", true, [], [], some instBody⟩,
    ⟨"E", true, [⟨"a", .bundle [⟨"x", false, .uint 1⟩], .input, none, []⟩], [], none⟩]
  paths := []

theorem instCircuit_built : instCircuit.Built := by
  intro m hm b hb
  rcases List.mem_pair.1 hm with rfl | rfl
  · obtain rfl := Option.some.inj hb
    exact ⟨⟨Body.entry, 1⟩, .call (.inst ⟨{}, "E", [⟨"a", .input, []⟩], false⟩
      [.bundle [⟨"x", false, .uint 1⟩]]) (.start ⟨Body.entry, 0⟩ rfl) rfl⟩
  · cases hb

theorem instCircuit_fits : instCircuit.Fits := by
  intro m hm b hb x hx op i hop hk
  rcases List.mem_pair.1 hm with rfl | rfl
  · obtain rfl := Option.some.inj hb
    have hwalk : instBody.walk = [⟨0⟩] := by decide +kernel
    rw [hwalk, List.mem_singleton] at hx
    subst hx
    obtain rfl := Option.some.inj hop
    obtain rfl := OpKind.inst.inj hk
    exact ⟨_, List.mem_cons_of_mem _ List.mem_cons_self, rfl, rfl, .cons rfl .nil⟩
  · cases hb

theorem Circuit.fits_lower_inst : ∃ r, instCircuit.lower {} 0 = .ok r ∧ r.1.Fits := by
  have hok : (instCircuit.lower {} 0).isOk := by decide +kernel
  cases hr : instCircuit.lower {} 0 with
  | error => rw [hr] at hok; cases hok
  | ok r => exact ⟨r, rfl, Circuit.fits_lower instCircuit_built.reachable (by decide) instCircuit_fits hr⟩

end Scalarize
