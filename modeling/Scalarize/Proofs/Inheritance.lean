import Scalarize.Proofs.Symbols
import Scalarize.Proofs.Tracking

/-!
# What becomes of the carriers of a module

* `Setting.lax` : types are as the builder makes them, and failures are not excluded;
* `Lower.lowerBlock_descends` : descent is kept while a body is lowered, and what stands then stays whole;
* `PortState.Descends`, `PortState.Descends.edits` : descent is kept when a port is split by one layer;
* `Module.Inherits`, `Module.inherits_lower` : the carriers of a lowered module descend from those of the
  module, and stay whole.
-/

namespace Scalarize

open Body Lower

/-! ## What stands is walked -/

/-- Where erased operations guard nothing, everything that stands is walked. -/
theorem Body.Coherent.walked_of_stands {b : Body} (h : b.Coherent)
    (hplain : ∀ {x op}, b.op? x = some op → op.erased → op.kind.blocks = []) {x : OpId} (hx : b.stands x) :
    b.Walked x := by
  -- by induction on the block in which the operation stands
  suffices ∀ n x, b.blockIndex x = n → b.stands x → b.Walked x from this _ x rfl hx
  intro n
  induction n using Nat.strongRecOn with
  | ind n ih =>
    intro x hn hx
    obtain ⟨op, hop⟩ : ∃ op, b.op? x = some op := by
      cases hop : b.op? x with
      | none => simp [stands_eq, hop] at hx
      | some op => exact ⟨op, rfl⟩
    have hslot := h.mem_slotsOf hop (erased_of_stands hop hx)
    by_cases hentry : op.block = Body.entry
    · exact .entry (hentry ▸ hslot) hx
    · obtain ⟨blk, hblk⟩ := exists_block_of_mem_slotsOf hslot
      obtain ⟨g, hg⟩ := Option.isSome_iff_exists.1 (h.guarded hblk hentry)
      obtain ⟨opg, hopg, hmem⟩ := h.parent hblk hg
      have hinner : x ∈ b.inner g := mem_inner_iff.2 ⟨op.block, by rwa [guardedBlocks_eq hopg], hslot⟩
      refine .inner (ih _ (hn ▸ h.blockIndex_lt hinner) g rfl ?_) hinner hx
      cases he : opg.erased with
      | false => simp [stands_eq, hopg, he]
      | true =>
        rw [hplain hopg he] at hmem
        cases hmem

/-! ## Bodies -/

/-- Types are as the builder makes them, and failures are not excluded. -/
def Setting.lax (cx : Context) : Setting where
  must := False
  ordered := False
  ordered_of_must := id
  cx := cx
  splits_of_must := False.elim
  depth := 0
  strict := False
  strict_of_must := id

/-- The carrier is not split any further. -/
def Carrier.Whole (e : Carrier) : Prop := ∀ t, e.ty = some t → t.isGround ∨ e.keep = true ∧ t.preservable

theorem Carrier.Whole.not_splits {e : Carrier} (h : e.Whole) : ¬e.Splits := by
  rintro ⟨t, ht, hg, hk⟩
  rcases h t ht with hg' | hk'
  · rw [hg] at hg'
    cases hg'
  · exact hk hk'

section

variable {cx : Context} {m : Module} {ports : List Carrier} {R : OpId → Nat} {b : Body} {y : Symbols}

/-- Descent is kept while a body is lowered. -/
theorem Lowering.refines_descent (hports : ∀ e ∈ ports, e.place = .port) :
    Refines cx (Lowering.stage (.lax cx)) fun b y _ =>
      Descent cx.options m (b.Carries ports cx.options.preserveAggregate fun _ => True) (fun _ => []) y where
  skip hS _ := hS
  stay hS _ _ := hS
  step {t R P D o op k A B} hI hS hop hw _ _ _ := by
    have he := erased_of_stands hop hw.stands
    refine hS.lowersTo hports hI.1.coherent hop he fun d hk => ?_
    obtain ⟨ins, outs, hins, houts, hsh⟩ := hI.1.typed List.not_mem_nil hop he
    rw [hk] at hsh
    obtain ⟨s, u, rfl, rfl, hag⟩ := hsh
    obtain ⟨v, hv, hops⟩ := hins.singleton
    obtain ⟨r, hr, hres⟩ := houts.singleton
    exact ⟨v, r, s, u, by rw [hops]; rfl, by rw [hres]; rfl, hv, hr, hag⟩

/-- What is done is not split any further. -/
theorem Lowering.whole {D : List OpId} (h : Lowering (.lax cx) b R [] [] D) {x : OpId} {e : Carrier}
    (he : b.carrier? cx.options.preserveAggregate x = some e) : e.Whole := by
  obtain ⟨op, d, hop, hstands, hd, rfl⟩ := carrier?_eq_some_iff.1 he
  obtain ⟨ins, outs, hins, houts, hsh⟩ := h.typed List.not_mem_nil hop hstands
  have hset := h.settled (by simpa using h.tracked hop hstands) hop hstands hins houts
  intro t ht
  dsimp only at ht ⊢
  cases hk : op.kind with
  | inst i =>
    rw [hk] at ht
    cases ht
  | mem n =>
    rw [hk] at hset ht
    obtain rfl := Option.some.inj ht
    exact .inl hset
  | wire | reg | regReset | node =>
    rw [hk] at hset ht
    obtain ⟨r, hr, hty⟩ := Option.bind_eq_some_iff.1 ht
    obtain ⟨u, hu, hut⟩ := houts.getElem? hr
    obtain rfl := Option.some.inj (hty.symm.trans hut)
    exact hset t (List.mem_of_getElem? hu)
  | _ =>
    rw [hk] at hd
    cases hd

/-- A body is lowered, and what stands then is not split any further. -/
theorem Lower.lowerBlock_descends (h : b.Input (.lax cx) R) (hports : ∀ e ∈ ports, e.place = .port)
    (hy : b.Tracked y) (hd : Descent cx.options m (b.Carries ports cx.options.preserveAggregate fun _ => True)
      (fun _ => []) y) (n : Nat) (p : Point) :
    Runs False (lowerBlock cx n Body.entry) ⟨⟨b, p⟩, y⟩ fun _ t => ∃ R' D,
      Lowering (.lax cx) t.builder.body R' [] [] D ∧ Descent cx.options m
        (t.builder.body.Carries ports cx.options.preserveAggregate fun _ => True) (fun _ => []) t.symbols := by
  obtain ⟨L, hL⟩ := h.coherent.exists_unfolds_slotsOf Body.entry
  obtain ⟨blk, hblk, -⟩ := h.coherent.entry
  have hstages : Stages False cx _ := (Lowering.stages (.lax cx)).refine (Lowering.refines_descent (m := m) hports)
  refine (hstages.lowerBlock_runs (t := ⟨⟨b, p⟩, y⟩) (P := []) (L := L) (D := []) (R := R)
    ⟨⟨by simpa using Lowering.start h hL, hy⟩, hd⟩ (by simp [hblk]) (.inl rfl) hL nofun).mono ?_
  rintro _ t ⟨C, N, R', -, -, ⟨⟨hlow, -⟩, hd'⟩, -, -, -⟩
  exact ⟨R', N, by simpa using hlow, hd'⟩

end

/-! ## Ports -/

/-- The ports, and the operations of the body if there is one, as carriers. -/
def PortState.Carries (options : Options) (entry : ModuleEntry) (ps : List Port) (body : Option Body)
    (e : Carrier) : Prop :=
  e ∈ ps.map (Port.carrier (options.portsMayPreserve entry)) ∨
    ∃ b, body = some b ∧ ∃ x, b.carrier? options.preserveAggregate x = some e

/-- The carriers descend from those of the module, no two ports have the same symbol, and the operations of
the body are not split any further. -/
structure PortState.Descends (options : Options) (m : Module) (ps : List Port) (s : PortState) : Prop where
  descent : Descent options m (Carries options m.entry ps s.body) (fun _ => []) s.symbols
  nodup : (ps.filterMap (·.sym)).Nodup
  external : m.isExternal = s.body.isNone
  coherent : ∀ b, s.body = some b → b.Coherent
  plain : ∀ b, s.body = some b → ∀ {x op}, b.op? x = some op → op.erased → op.kind.blocks = []
  whole : ∀ b, s.body = some b → ∀ {x e}, b.carrier? options.preserveAggregate x = some e → e.Whole

namespace PortState

variable {options : Options} {m : Module} {A B new : List Port} {p : Port} {parts : List Part} {s : PortState}
  {y : Symbols}

theorem carries_cons {options : Options} {entry : ModuleEntry} {A B : List Port} {p : Port} {body : Option Body}
    (e : Carrier) : Carries options entry (A ++ p :: B) body e ↔
      Carries options entry (A ++ B) body e ∨ e = p.carrier (options.portsMayPreserve entry) := by
  unfold Carries
  simp only [List.map_append, List.map_cons, List.mem_append, List.mem_cons]
  constructor
  · rintro ((he | he | he) | he)
    exacts [.inl (.inl (.inl he)), .inr he, .inl (.inl (.inr he)), .inl (.inr he)]
  · rintro (((he | he) | he) | he)
    exacts [.inl (.inl he), .inl (.inr (.inr he)), .inr he, .inl (.inr (.inl he))]

/-- One symbol more leaves all symbols apart if it is new. -/
theorem nodup_syms_cons {A B : List Port} {p : Port} : ((A ++ p :: B).filterMap (·.sym)).Nodup ↔
    ((A ++ B).filterMap (·.sym)).Nodup ∧ ∀ u, p.sym = some u → u ∉ (A ++ B).filterMap (·.sym) := by
  rw [List.filterMap_append, List.filterMap_cons]
  cases p.sym with
  | none => simp
  | some u =>
    dsimp only
    rw [List.nodup_middle, List.nodup_cons, ← List.filterMap_append]
    simp [and_comm]

/-- A port is split, and has given way to the ports of some of its parts. -/
theorem Descends.narrows (h : Descends options m (A ++ p :: B) s)
    (hpeel : p.ty.peel (options.portsMayPreserve m.entry) = .ok (some parts)) {done : List Part} {y₀ : Symbols}
    (hy : s.symbols = y₀) (hnew : p.Narrows done y₀ new y) : ∀ rest, parts = done ++ rest →
    Parting options m (Carries options m.entry (A ++ new ++ B) s.body)
      (p.carrier (options.portsMayPreserve m.entry)) rest y ∧ ((A ++ new ++ B).filterMap (·.sym)).Nodup := by
  induction hnew with
  | nil y =>
    rintro rest rfl
    subst hy
    rw [List.append_nil]
    obtain ⟨hnd, hown⟩ := nodup_syms_cons.1 h.nodup
    refine ⟨h.descent.part ((carries_cons _).2 (.inr rfl)) rfl hpeel (fun e he => (carries_cons e).2 (.inl he))
      (fun e he => ((carries_cons e).1 he).symm) fun hsome he => ?_, hnd⟩
    -- no other port has the symbol, and no operation is a port
    obtain ⟨u, hu⟩ := Option.isSome_iff_exists.1 hsome
    rcases he with he | ⟨b, -, x, hx⟩
    · obtain ⟨p', hp', heq⟩ := List.mem_map.1 he
      exact hown u hu (List.mem_filterMap.2 ⟨p', hp', (congrArg Carrier.sym heq).trans hu⟩)
    · cases Body.place_of_carrier? hx
  | @snoc done part y₀ y₁ y₂ new n _ hlast ih =>
    rintro rest rfl
    obtain ⟨hparting, hnd⟩ := ih hy (part :: rest) (by simp)
    obtain ⟨hl, hann⟩ := Port.labelsPart hlast
    have hty := Port.ty_of_narrow hlast
    have happend : A ++ (new ++ [n]) ++ B = A ++ new ++ n :: B := by simp
    rw [happend]
    refine ⟨hparting.label hl n.annotations (fun e => ?_) fun a ha q hq => ?_,
      nodup_syms_cons.2 ⟨hnd, fun u hu hmem => ?_⟩⟩
    · rw [carries_cons, ← hty]
      rfl
    · obtain ⟨a', ha', hp⟩ := hann a ha
      exact ⟨a', ha', hp.trans hq⟩
    · obtain ⟨p', hp', hs'⟩ := List.mem_filterMap.1 hmem
      have htaken := hparting.descent.taken (.inl (List.mem_map_of_mem hp')) hs'
      have hlabels := Port.labels_narrow hlast
      rw [hu] at hlabels
      cases hlabels with
      | some _ hnot => exact hnot htaken

/-- Descent is kept when a port is split by one layer. -/
theorem Descends.edits (options : Options) (m : Module) :
    PortEdits (options.portsMayPreserve m.entry) (Descends options m) where
  split {A B p s parts new y body} h hpeel hnew hbody := by
    obtain ⟨hparting, hnd⟩ := h.narrows hpeel rfl hnew [] (by simp)
    unfold SplitsArgument at hbody
    cases hs : s.body with
    | none =>
      rw [hs] at hbody hparting
      obtain rfl : body = none := hbody
      exact ⟨hparting.finish, hnd, h.external.trans (by rw [hs]), nofun, nofun, nofun⟩
    | some b =>
      rw [hs] at hbody hparting
      obtain ⟨b', hb', rfl⟩ := hbody
      have hb := h.coherent b hs
      have hr := (Body.splitArgument_ends hb _ _).of_ok hb'
      have hcarrier : ∀ x, b'.carrier? options.preserveAggregate x = b.carrier? options.preserveAggregate x :=
        hr.carrier? hb
      refine ⟨hparting.finish.congr fun e => or_congr_right ?_, hnd, h.external.trans (by rw [hs]; rfl),
        fun b₁ hb₁ => ?_, fun b₁ hb₁ x op' hop' he => ?_, fun b₁ hb₁ x e he => ?_⟩
      · simp only [Option.some.injEq, exists_eq_left', hcarrier]
      · exact Option.some.inj hb₁ ▸ hr.coherent
      · obtain rfl := Option.some.inj hb₁
        obtain ⟨op, hop⟩ := Option.isSome_iff_exists.1 (hr.old hop')
        obtain ⟨op'', hop'', hk, -, -, -, hacc⟩ := hr.op? hop
        obtain rfl := Option.some.inj (hop'.symm.trans hop'')
        rw [hk]
        cases ha : op.kind.isAccessor with
        | true => exact OpKind.blocks_of_isAccessor ha
        | false => exact h.plain b hs hop (hacc ha ▸ he)
      · obtain rfl := Option.some.inj hb₁
        rw [hcarrier] at he
        exact h.whole b hs he

end PortState

/-! ## Modules -/

/-- The carriers of the lowered module `m'` descend from those of `m`, and are not split any further. -/
structure Module.Inherits (options : Options) (m m' : Module) (y : Symbols) : Prop where
  name : m'.name = m.name
  entry : m'.entry = m.entry
  descent : Descent options m (· ∈ m'.carriers options) (fun _ => []) y
  whole : ∀ e ∈ m'.carriers options, e.Whole
  nodup : (m'.ports.filterMap (·.sym)).Nodup
  coherent : ∀ b, m'.body = some b → b.Coherent

/-- Where erased operations guard nothing, the carriers are the ports and all declarations that stand. -/
theorem Module.mem_carriers_iff {options : Options} {m : Module} (hb : ∀ b, m.body = some b → b.Coherent)
    (hplain : ∀ b, m.body = some b → ∀ {x op}, b.op? x = some op → op.erased → op.kind.blocks = []) (e : Carrier) :
    e ∈ m.carriers options ↔ PortState.Carries options m.entry m.ports m.body e := by
  unfold carriers PortState.Carries
  rw [List.mem_append]
  refine or_congr_right ?_
  cases hbody : m.body with
  | none => simp
  | some b =>
    simp only [List.mem_filterMap, Option.some.injEq, exists_eq_left']
    refine exists_congr fun x => and_iff_right_of_imp fun hx => ?_
    exact (hb b hbody).mem_walk_iff.2 ((hb b hbody).walked_of_stands (hplain b hbody) (Body.stands_of_carrier? hx))

theorem eq_of_nodup_filterMap {α β : Type} {f : α → Option β} {l : List α} (h : (l.filterMap f).Nodup) {a a' : α}
    {b : β} (ha : a ∈ l) (ha' : a' ∈ l) (hb : f a = some b) (hb' : f a' = some b) : a = a' := by
  induction l with
  | nil => cases ha
  | cons c l ih =>
    rw [List.filterMap_cons] at h
    have hc : ∀ {a}, a ∈ l → f a = some b → f c ≠ some b := by
      intro a ha hb hc
      rw [hc, List.nodup_cons] at h
      exact h.1 (List.mem_filterMap.2 ⟨a, ha, hb⟩)
    rcases List.mem_cons.1 ha with rfl | hl <;> rcases List.mem_cons.1 ha' with rfl | hl'
    · rfl
    · exact absurd hb (hc hl' hb')
    · exact absurd hb' (hc hl hb)
    · refine ih ?_ hl hl'
      cases hfc : f c with
      | none => rwa [hfc] at h
      | some _ =>
        rw [hfc] at h
        exact (List.nodup_cons.1 h).2

/-- At first every symbol descends from itself. -/
theorem Descent.start {options : Options} {m : Module} (hm : ∀ b, m.body = some b → b.Coherent)
    (h : m.syms.Nodup) (generated : Nat) :
    Descent options m (· ∈ m.carriers options) (fun _ => []) (Symbols.ofModule m generated) := by
  rw [Module.syms_eq hm options] at h
  have hroot : ∀ s, (Symbols.ofModule m generated).root s = s := fun _ => rfl
  have hmem : ∀ {e s}, e ∈ m.carriers options → e.sym = some s → s ∈ (Symbols.ofModule m generated).names.taken :=
    fun he hs => Symbols.mem_taken_ofModule.2 (Module.syms_eq hm options ▸ List.mem_filterMap.2 ⟨_, he, hs⟩)
  have hsingle : ∀ {e e' s}, e ∈ m.carriers options → e' ∈ m.carriers options → e.sym = some s →
      e'.sym = some s → e = e' := fun he he' hs hs' => eq_of_nodup_filterMap h he he' hs hs'
  exact
    { moduleName := rfl
      rooted := ⟨Partition.star_empty, nofun, nofun⟩
      own := fun he hs => ⟨hmem he hs, rfl, nofun⟩
      single := hsingle
      taken := hmem
      stem := fun he _ => .first he
      kept := fun he hs _ => ⟨_, he, hs⟩
      targets := nofun
      keys := .nil
      complete := fun {e s} he hs hground hr => by
        obtain ⟨e₀, he₀, hs₀, hsplits⟩ := hr
        obtain rfl := hsingle he he₀ hs hs₀
        rw [hsplits.not_ground] at hground
        cases hground
      annotated := fun {e a p} he ha hp => ⟨e, he, ⟨a, ha, hp⟩, .inr (by cases e.sym <;> rfl)⟩
      divided := fun {e₀ s t} he₀ hs ht => by
        refine ⟨[e₀], List.nodup_singleton e₀, fun e => ?_, fun e he => ?_, ?_⟩
        · rw [List.mem_singleton]
          constructor
          · rintro rfl
            exact ⟨he₀, by rw [hs]; rfl⟩
          · rintro ⟨he, hr⟩
            obtain ⟨s', hs', rfl⟩ := Option.map_eq_some_iff.1 hr
            exact hsingle he he₀ hs' hs
        · rw [List.mem_singleton.1 he, ht]
          exact ⟨rfl, rfl⟩
        · simp [Carrier.pieces, ht] }

/-- The ports of a module whose body is lowered. -/
theorem Module.lowerPorts_inherits {cx : Context} {m : Module} {body : Option Body} {y : Symbols}
    (h : PortState.Descends cx.options m m.ports ⟨body, y⟩) :
    Ends False (do
      let (ports, s) ← (Lower.ports (cx.options.portsMayPreserve m.entry) m.ports).run ⟨body, y⟩
      return ({ m with ports, body := s.body.map Body.compact }, s.symbols))
      fun r => m.Inherits cx.options r.1 r.2 := by
  refine (Module.lowerPorts_any (PortState.Descends.edits cx.options m) h).mono ?_
  rintro ⟨m', y'⟩ ⟨⟨body', hd, heq⟩, hwhole⟩
  dsimp only at hd heq hwhole ⊢
  have hentry : m'.entry = m.entry := by
    have hext := hd.external
    unfold Module.isExternal at hext
    rw [heq]
    simp [Module.entry, Module.isExternal, hext]
  have hbody : ∀ b', m'.body = some b' → ∃ b, body' = some b ∧ b' = b.compact := fun b' hb' => by
    rw [heq] at hb'
    obtain ⟨b, hb, rfl⟩ := Option.map_eq_some_iff.1 hb'
    exact ⟨b, hb, rfl⟩
  have hcoherent : ∀ b', m'.body = some b' → b'.Coherent := fun b' hb' => by
    obtain ⟨b, hb, rfl⟩ := hbody b' hb'
    exact (hd.coherent b hb).compact
  -- compacting does not matter for carriers
  have hmem : ∀ e, e ∈ m'.carriers cx.options ↔ PortState.Carries cx.options m.entry m'.ports body' e := fun e => by
    refine (Module.mem_carriers_iff hcoherent (fun b' hb' x op hop he => ?_) e).trans ?_
    · obtain ⟨b, hb, rfl⟩ := hbody b' hb'
      exact hd.plain b hb hop he
    · have hb : m'.body = body'.map Body.compact := by rw [heq]
      unfold PortState.Carries
      rw [hentry, hb]
      simp
  refine ⟨by rw [heq], hentry, hd.descent.congr hmem, fun e he => ?_, hd.nodup, hcoherent⟩
  rcases (hmem e).1 he with he | ⟨b, hb, x, hx⟩
  · obtain ⟨p, hp, rfl⟩ := List.mem_map.1 he
    intro t ht
    obtain rfl := Option.some.inj ht
    exact (Ty.peel_ends False.elim).of_ok (hwhole p hp)
  · exact hd.whole b hb hx

/-- The carriers of a lowered module descend from those of the module. -/
theorem Module.inherits_lower {cx : Context} {m : Module} {R : OpId → Nat} {generated : Nat}
    (hm : m.Input (.lax cx) R) (hnd : m.syms.Nodup) :
    Ends False (m.lower cx generated) fun r => m.Inherits cx.options r.1 r.2 := by
  have hcoherent : ∀ b, m.body = some b → b.Coherent := fun b hb => (hm.body hb).1.coherent
  have hplain : ∀ b, m.body = some b → ∀ {x op}, b.op? x = some op → op.erased → op.kind.blocks = [] :=
    fun b hb x op hop he => absurd he (by simp [(hm.body hb).1.unerased hop])
  have hstart : Descent cx.options m (PortState.Carries cx.options m.entry m.ports m.body) (fun _ => [])
      (Symbols.ofModule m generated) :=
    (Descent.start hcoherent hnd generated).congr fun e => (Module.mem_carriers_iff hcoherent hplain e).symm
  have hports : (m.ports.filterMap (·.sym)).Nodup := (List.nodup_append.1 hnd).1
  unfold Module.lower
  dsimp only
  cases hb : m.body with
  | none =>
    rw [hb] at hstart
    refine Module.lowerPorts_inherits ⟨hstart, hports, by simp [Module.isExternal, hb], ?_, ?_, ?_⟩
    all_goals exact fun _ h => by cases h
  | some b =>
    rw [hb] at hstart
    obtain ⟨hin, -⟩ := hm.body hb
    have hcarries : ∀ {b : Body} e, PortState.Carries cx.options m.entry m.ports (some b) e ↔ b.Carries
        (m.ports.map (Port.carrier (cx.options.portsMayPreserve m.entry))) cx.options.preserveAggregate
        (fun _ => True) e := fun {b} e => by
      unfold PortState.Carries Body.Carries
      simp
    refine Ends.bind (P := fun _ => True) (.intro (fun _ _ => trivial) False.elim) fun n _ => ?_
    refine Ends.bind (Lower.lowerBlock_descends hin (fun e he => ?_) (Symbols.targets_ofModule m generated)
      (hstart.congr fun e => (hcarries e).symm) _ _) ?_
    · obtain ⟨p, -, rfl⟩ := List.mem_map.1 he
      rfl
    · rintro ⟨⟨⟩, t⟩ ⟨R', D, hlow, hd⟩
      refine Module.lowerPorts_inherits ⟨hd.congr hcarries, hports, by simp [Module.isExternal, hb],
        fun b hb => ?_, fun b hb x op hop he => ?_, fun b hb x e he => ?_⟩
      all_goals obtain rfl := Option.some.inj hb
      · exact hlow.coherent
      · exact hlow.plain hop he
      · exact hlow.whole he

end Scalarize
