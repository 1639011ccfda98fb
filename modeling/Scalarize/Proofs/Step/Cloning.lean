import Scalarize.Lower.Producer
import Scalarize.Proofs.Narrowing
import Scalarize.Proofs.Step

/-!
# Parts of producers

* `PartMade` : an operation was made that makes one part;
* `Lower.splitProducer_parts`, `Grows.declarePart_runs`, `Grows.splitProducer_runs` : a producer gives way to one operation for each
  part, given what each of them is;
* `Grows.Cloning`, `Grows.Clones` : what is known before and after an operation is made for one part;
  `Cloning.wire_runs` and the like : how it is made; `Lower.producer_splits` : the same for all producers.
-/

namespace Scalarize

open Body Lower

/-- An operation among `N` makes the part. -/
def PartMade (N : List OpId) (b : Body) (p : Part) (w : ValueId) : Prop :=
  ∃ o ∈ N, ∃ kind vs, b.Makes o kind vs [w] ∧ b.ty? w = some p.ty ∧ kind.fixedIndex? = none

theorem PartMade.mono {N N' : List OpId} {b b' : Body} {p : Part} {w : ValueId} (hb : Extends b b')
    (hN : ∀ o ∈ N, o ∈ N') (h : PartMade N b p w) : PartMade N' b' p w := by
  obtain ⟨o, ho, kind, vs, hmk, hty, hfix⟩ := h
  exact ⟨o, hN o ho, kind, vs, hmk.mono hb, hb.ty?_some hty, hfix⟩

/-- A producer stays, or gives way to one operation for each part; `J` is known of the parts that are made. -/
theorem Lower.splitProducer_parts {must : Prop} {t : LowerState} {o : OpId} {keep : Bool} {clone : Part → Build ValueId}
    {op : Operation} {r : ValueId} {ty : Ty} (hop : t.builder.body.op? o = some op) (hres : op.results = [r])
    (hty : t.builder.body.ty? r = some ty) (hm : must → ty.lastId?.isSome) {Q : Bool → LowerState → Prop}
    (hkeep : ty.isGround ∨ keep = true ∧ ty.preservable → Q false t) {J : List Part → List ValueId → LowerState → Prop}
    (hJ : J [] [] t)
    (hpart : ∀ {ps done p rest values t'}, ty.PartsOf ps → ps = done ++ p :: rest → J done values t' →
      Runs must (do
        let restricted ← restrict (op.kind.decl?.getD {}).annotations p
        let value ← clone p
        declarePart (op.kind.decl?.getD {}) p restricted value
        return value : Lower ValueId) t' fun w => J (done ++ [p]) (values ++ [w]))
    (hrewire : ∀ {ps values t'}, ty.PartsOf ps → ¬(keep = true ∧ ty.preservable) → J ps values t' →
      Ends must (t'.builder.body.rewire r values) fun b => Q true ⟨⟨b, t'.builder.point⟩, t'.symbols⟩) :
    Runs must (splitProducer o keep clone) t Q := by
  unfold splitProducer
  refine Body.bind_result hop (v := r) (by rw [hres]; rfl) ?_
  refine Body.bind_typeOf hty ?_
  refine Runs.bind_except (Ty.peel_ends hm) fun r' hr' => ?_
  cases r' with
  | none => exact .pure (hkeep hr')
  | some ps =>
    obtain ⟨hps, hnot⟩ := hr'
    refine Body.bind_kindOf hop ?_
    refine .bind (Runs.mapM J ps hJ fun done p rest values t' hl hJ' => hpart hps hl hJ') fun values t' hJ' => ?_
    exact Runs.bind_change (hrewire hps hnot hJ') fun b hb => .pure hb

namespace Grows

variable {must : Prop} {S : ValueId → Prop} {M : Body → OpKind → List ValueId → List Ty → Prop}
  {A : OpKind → List Ty → Prop} {I : List OpId → Builder → Prop} {N : List OpId} {t : LowerState}

/-- A new operation takes over the declaration of the one that is split. -/
theorem declarePart_runs (hI : Grows S M A I)
    (hA : ∀ kind new ty, (must → Annotated new.annotations ty) →
      A (OpKind.mapDecl (fun _ => new) kind) [ty])
    (h : I N t.builder) (htr : t.builder.body.Tracked t.symbols) {decl : Decl} {part : Part}
    {restricted : Restricted} {w : ValueId} {o : OpId} {kind : OpKind} {vs : List ValueId}
    (ho : o ∈ N) (hmk : t.builder.body.Makes o kind vs [w])
    (hty : t.builder.body.ty? w = some part.ty)
    (hr : must → Annotated restricted.annotations part.ty)
    (hd : decl.sym.isSome → kind.decl?.isSome) :
    Runs must (declarePart decl part restricted w) t fun _ t' =>
      Grew I N t.builder N t'.builder ∧ t'.builder.body.Tracked t'.symbols := by
  have horigin := hmk.origin? (hI.coherent h) (i := 0) rfl
  have hdecl : decl.sym.isSome → t.builder.body.Declared o := fun hs => by
    obtain ⟨op, hop, hb, -⟩ := hmk
    exact ⟨op, hop, by rw [isSome_decl?_of_bare_eq hb]; exact hd hs⟩
  -- whatever the symbol is, the declaration changes in the same way
  have hchange : ∀ (sym : Option String) (y : Symbols), t.builder.body.Tracked y →
      Runs must (change fun b => return b.modifyDecl o fun _ =>
        { decl.extendName part.suffix with annotations := restricted.annotations, sym })
        ⟨t.builder, y⟩ fun _ t' =>
          Grew I N t.builder N t'.builder ∧ t'.builder.body.Tracked t'.symbols := by
    intro sym y hy
    refine .change (.ok ⟨⟨hI.declare h ho ?_, Extends.modifyDecl _ _ _, List.prefix_refl _⟩,
      hy.persists (Extends.modifyDecl _ _ _).persists⟩)
    intro op outs hop houts
    obtain ⟨op', hop', -, -, hres, -⟩ := hmk
    rw [hop] at hop'
    obtain rfl := Option.some.inj hop'
    rw [hres] at houts
    obtain rfl := houts.unique (.cons hty .nil)
    exact hA _ _ _ hr
  unfold declarePart
  refine Runs.bind_body (P := fun d => some o = d) (definer_ends (fun ha => ?_) (fun d i hr' => ?_)
    fun _ => ?_) ?_
  · rw [horigin] at ha
    cases ha
  · rw [horigin] at hr'
    obtain ⟨rfl, -⟩ : o = d ∧ 0 = i := by simpa using hr'
    rfl
  · obtain ⟨y, hy, -⟩ := origin?_eq_some_iff.1 horigin
    rw [hy]
    rfl
  rintro _ rfl
  dsimp only
  split
  next base hs =>
    refine .bind_mint (hchange (some _) _ (Symbols.Targets.derive htr fun _ => ?_))
    exact ⟨o, rfl, hdecl (by rw [hs]; rfl)⟩
  next hs =>
    split
    · exact .bind_mint (hchange (some _) _ (Symbols.Targets.detached htr _ _))
    · exact hchange none _ htr

/-- A producer is split, or stays. -/
theorem splitProducer_runs (hI : Grows S M A I)
    (hA : ∀ kind new ty, (must → Annotated new.annotations ty) →
      A (OpKind.mapDecl (fun _ => new) kind) [ty])
    (h : I N t.builder) (htr : t.builder.body.Tracked t.symbols) {o : OpId} {keep : Bool}
    {clone : Part → Build ValueId} {op : Operation} {r : ValueId} {ty : Ty}
    (hop : t.builder.body.op? o = some op) (hres : op.results = [r])
    (hty : t.builder.body.ty? r = some ty)
    (hm : must → Annotated (op.kind.decl?.getD {}).annotations ty)
    (hclone : ∀ {N' : List OpId} {s : Builder} {ps : List Part} {p : Part}, Ty.PartsOf ty ps →
      p ∈ ps → Grew I N t.builder N' s →
      Runs must (clone p) s fun w s' => ∃ N'' o' kind vs, Grew I N' s N'' s' ∧ o' ∈ N'' ∧
        s'.body.Makes o' kind vs [w] ∧ s'.body.ty? w = some p.ty ∧ kind.fixedIndex? = none ∧
        (op.kind.decl?.isSome → kind.decl?.isSome))
    {Q : Bool → LowerState → Prop}
    (hkeep : ty.isGround ∨ keep = true ∧ ty.preservable → Q false t)
    (hsplit : ∀ {ps : List Part} {values : List ValueId} {N' : List OpId} {t' : LowerState},
      Ty.PartsOf ty ps → ¬(keep = true ∧ ty.preservable) →
      Grew I N t.builder N' t'.builder → t'.builder.body.Tracked t'.symbols →
      List.Forall₂ (PartMade N' t'.builder.body) ps values →
      Ends must (t'.builder.body.rewire r values) fun b =>
        Q true ⟨⟨b, t'.builder.point⟩, t'.symbols⟩) :
    Runs must (splitProducer o keep clone) t Q := by
  refine splitProducer_parts hop hres hty (fun hmust => (hm hmust).isSome) hkeep
    (J := fun done values t' => (∃ N', Grew I N t.builder N' t'.builder ∧
      List.Forall₂ (PartMade N' t'.builder.body) done values) ∧ t'.builder.body.Tracked t'.symbols)
    ⟨⟨N, .refl h, .nil⟩, htr⟩ ?_ ?_
  · rintro ps done p rest values t' hps hl ⟨⟨N', hg, hmade⟩, htr'⟩
    have hp : p ∈ ps := by
      rw [hl]
      exact List.mem_append_right _ List.mem_cons_self
    refine Runs.bind_except (restrict_ends fun hmust => ⟨hm hmust, hps.child_index hp,
      hps.fieldId_index hp⟩) fun restricted hr => ?_
    refine Runs.bind_build (hclone hps hp hg) ?_
    rintro w s' ⟨N'', o', kind, vs, hg', ho', hmk, hty', hfix, hd⟩
    have htr₁ := htr'.persists hg'.body.persists
    refine .bind (hI.declarePart_runs (t := ⟨s', t'.symbols⟩) hA hg'.holds htr₁ ho' hmk hty' hr
      fun hs => hd ?_) ?_
    · cases hk : op.kind.decl? with
      | some d => rfl
      | none =>
        rw [hk] at hs
        cases hs
    rintro _ t'' ⟨hg'', htr''⟩
    refine .pure ⟨⟨N'', (hg.trans hg').trans hg'', ?_⟩, htr''⟩
    have hext := hg'.body.trans hg''.body
    have hold := hmade.imp fun _ _ => PartMade.mono hext fun _ => hg'.mem
    refine List.rel_append hold (.cons ?_ .nil)
    exact ⟨o', ho', kind, vs, hmk.mono hg''.body, hg''.body.ty?_some hty', hfix⟩
  · rintro ps values t' hps hnot ⟨⟨N', hg, hmade⟩, htr'⟩
    exact hsplit hps hnot hg htr' hmade

end Grows

/-! ## One part of a producer -/

namespace Grows

variable {must : Prop} {S : ValueId → Prop} {M : Body → OpKind → List ValueId → List Ty → Prop}
  {A : OpKind → List Ty → Prop} {I : List OpId → Builder → Prop} {N : List OpId} {s s' : Builder}
  {kind : OpKind} {vs : List ValueId} {ty : Ty} {p : Part} {d : Decl}

theorem NewPart.accessor {input v : ValueId} {i : Nat} (h : NewPart I N s input i v s') :
    ∃ x, Grew I N s (N ++ [x]) s' ∧ MadeIn (N ++ [x]) s'.body v ∧ s'.body.PartOf input i v ∧ s'.body.Accessors [x] := by
  obtain ⟨t, c, kind, ht, hr, hnew⟩ := h
  obtain ⟨o, hg, hmk, hty, -⟩ := hnew
  refine ⟨o, hg, ⟨o, by simp, _, _, hmk⟩, ⟨⟨o, kind, hr.fixedIndex?, hmk⟩, t, c, hg.body.ty?_some ht, hr.1, hty⟩,
    fun x hx => ?_⟩
  obtain rfl := List.mem_singleton.1 hx
  exact ⟨kind, i, _, _, hr.fixedIndex?, hmk⟩

theorem NewPart.partOf {input v : ValueId} {i : Nat} (h : NewPart I N s input i v s') :
    ∃ N', Grew I N s N' s' ∧ MadeIn N' s'.body v ∧ s'.body.PartOf input i v := by
  obtain ⟨x, hg, hmade, hpart, -⟩ := h.accessor
  exact ⟨_, hg, hmade, hpart⟩

/-- What is known when an operation of a kind is to be made for part `p`. -/
structure Cloning (must : Prop) (S : ValueId → Prop)
    (M : Body → OpKind → List ValueId → List Ty → Prop) (I : List OpId → Builder → Prop)
    (N : List OpId) (s : Builder) (kind : OpKind) (vs : List ValueId) (ty : Ty) (p : Part) : Prop where
  holds : I N s
  atHand : ∀ v ∈ vs, AtHand S N s.body v
  shaped : ∃ ins, s.body.Types vs ins ∧ kind.Shaped False ins [ty]
  child : ty.child? p.index = some p.ty
  makesPart : ∀ {N' s'} v, Grew I N s N' s' → MakesPart M s'.body v p.index
  makes : ∀ {N' s' ws}, Grew I N s N' s' → s'.body.Narrowed kind p.index vs ws →
    M s'.body kind.bare ws [p.ty]
  must : must → ∀ {v j}, vs[j]? = some v → kind.takesPart j = true →
    ∃ t c, s.body.ty? v = some t ∧ t.child? p.index = some c

/-- An operation of the kind was made for part `p`, after accessors. -/
def Clones (I : List OpId → Builder → Prop) (N : List OpId) (s : Builder) (kind : OpKind)
    (vs : List ValueId) (p : Part) (w : ValueId) (s' : Builder) : Prop :=
  ∃ xs o ws, Grew I N s (N ++ xs ++ [o]) s' ∧ s'.body.Accessors xs ∧ s'.body.Makes o kind.bare ws [w] ∧
    s'.body.ty? w = some p.ty ∧ s'.body.Narrowed kind p.index vs ws

namespace Cloning

theorem clones {xs : List OpId} (hg : Grew I N s (N ++ xs) s') (hxs : s'.body.Accessors xs) {s'' : Builder}
    {ws : List ValueId} {w : ValueId} (hnew : NewValue I (N ++ xs) s' kind.bare ws p.ty w s'')
    (hn : s'.body.Narrowed kind p.index vs ws) : Clones I N s kind vs p w s'' := by
  obtain ⟨o, hg', hmk, hty, -⟩ := hnew
  exact ⟨xs, o, ws, hg.trans hg', hxs.mono hg'.body, hmk, hty, hn.mono hg'.body⟩

/-- Nothing had to be read first. -/
theorem clones_at_once (h : I N s) {s'' : Builder} {ws : List ValueId} {w : ValueId}
    (hnew : NewValue I N s kind.bare ws p.ty w s'') (hn : s.body.Narrowed kind p.index vs ws) :
    Clones I N s kind vs p w s'' := by
  rw [← List.append_nil N] at hnew
  exact clones (by simpa using Grew.refl h) (.nil _) hnew hn

/-- The part of an operand is taken, and the operands that were taken stay at hand. -/
theorem part_runs (h : Cloning must S M I N s kind vs ty p) (hI : Grows S M A I) {N' : List OpId}
    (hg : Grew I N s N' s') {v : ValueId} {j : Nat} (hv : vs[j]? = some v)
    (ht : kind.takesPart j = true) :
    Runs must (Build.part v p.index) s' fun w s'' => ∃ x, Grew I N' s' (N' ++ [x]) s'' ∧
      s''.body.Accessors [x] ∧ AtHand S (N' ++ [x]) s''.body w ∧ s''.body.PartOf v p.index w := by
  have hmem := List.mem_of_getElem? hv
  refine (hI.part_runs hg.holds (hg.atHand (h.atHand v hmem)) (h.makesPart v hg) fun hmust => ?_).mono
    fun w s'' hnew => ?_
  · obtain ⟨t, c, hty, hc⟩ := h.must hmust hv ht
    exact ⟨t, c, hg.body.ty?_some hty, hc⟩
  · obtain ⟨x, hg', hw, hpart, hx⟩ := hnew.accessor
    exact ⟨x, hg', hx, hw.atHand (hI.coherent hg'.holds), hpart⟩

theorem wire_runs (h : Cloning must S M I N s (.wire d) vs ty p) (hI : Grows S M A I) :
    Runs must (firstResult (Build.wire p.ty {})) s (Clones I N s (.wire d) vs p) := by
  obtain ⟨ins, hins, rfl, -⟩ := h.shaped
  cases hins
  have hs : (OpKind.wire {}).Shaped True [] [p.ty] := ⟨rfl, p.ty, rfl⟩
  exact (hI.declare_runs h.holds rfl (by simp) .nil hs (h.makes (.refl h.holds) .nil)).mono
    fun w s' hnew => clones_at_once h.holds hnew .nil

theorem invalid_runs (h : Cloning must S M I N s .invalid vs ty p) (hI : Grows S M A I) :
    Runs must (Build.invalid p.ty) s (Clones I N s .invalid vs p) := by
  obtain ⟨ins, hins, rfl, -⟩ := h.shaped
  cases hins
  exact (hI.invalid_runs h.holds (h.makes (.refl h.holds) .nil)).mono
    fun w s' hnew => clones_at_once h.holds hnew .nil

theorem reg_runs {clock : ValueId} (h : Cloning must S M I N s (.reg d) [clock] ty p)
    (hI : Grows S M A I) :
    Runs must (firstResult (Build.reg p.ty clock {})) s (Clones I N s (.reg d) [clock] p) := by
  obtain ⟨ins, hins, c, t, rfl, -⟩ := h.shaped
  have hs : (OpKind.reg {}).Shaped True [c] [p.ty] := ⟨c, p.ty, rfl, rfl⟩
  have hn : s.body.Narrowed (.reg d) p.index [clock] [clock] := .cons rfl .nil
  exact (hI.declare_runs h.holds rfl h.atHand hins hs (h.makes (.refl h.holds) hn)).mono
    fun w s' hnew => clones_at_once h.holds hnew hn

theorem regReset_runs {clock reset init : ValueId}
    (h : Cloning must S M I N s (.regReset d) [clock, reset, init] ty p) (hI : Grows S M A I) :
    Runs must (do
      let init ← Build.part init p.index
      firstResult (Build.regReset p.ty clock reset init {})) s
      (Clones I N s (.regReset d) [clock, reset, init] p) := by
  obtain ⟨ins, hins, c, r, i, t, rfl, -⟩ := h.shaped
  refine (h.part_runs hI (.refl h.holds) (j := 2) rfl rfl).bind fun w s' ⟨x, hg, hx, hw, hpart⟩ => ?_
  obtain ⟨-, t', c', -, -, hty⟩ := id hpart
  have hn : s'.body.Narrowed (.regReset d) p.index [clock, reset, init] [clock, reset, w] :=
    .cons rfl (.cons rfl (.cons hpart .nil))
  have hs : (OpKind.regReset {}).Shaped True [c, r, c'] [p.ty] := ⟨c, r, c', p.ty, rfl, rfl⟩
  have hins' := hg.body.types hins
  cases hins' with | cons h₁ hins' => cases hins' with | cons h₂ _ =>
  refine (hI.declare_runs hg.holds rfl ?_ (.cons h₁ (.cons h₂ (.cons hty .nil))) hs
    (h.makes hg hn)).mono fun w s'' hnew => clones hg hx hnew hn
  intro v hv
  simp only [List.mem_cons, List.not_mem_nil, or_false] at hv
  rcases hv with rfl | rfl | rfl
  · exact hg.atHand (h.atHand _ (by simp))
  · exact hg.atHand (h.atHand _ (by simp))
  · exact hw

theorem node_runs {input : ValueId} (h : Cloning must S M I N s (.node d) [input] ty p)
    (hg₀ : ty.isGround = false) (hI : Grows S M A I) :
    Runs must (do firstResult (Build.node (← Build.part input p.index) {})) s
      (Clones I N s (.node d) [input] p) := by
  obtain ⟨ins, hins, a, t, rfl, ht, hat⟩ := h.shaped
  obtain rfl : ty = t := by simpa using ht
  obtain rfl := hat.symm.eq_of_not_isGround hg₀
  refine (h.part_runs hI (.refl h.holds) (j := 0) rfl rfl).bind fun w s' ⟨x, hg, hx, hw, hpart⟩ => ?_
  have hins' := hg.body.types hins
  cases hins' with | cons h₁ _ =>
  have hty := hpart.ty? h₁ h.child
  have hn : s'.body.Narrowed (.node d) p.index [input] [w] := .cons hpart .nil
  have hs : (OpKind.node {}).Shaped True [p.ty] [p.ty] := ⟨p.ty, p.ty, rfl, rfl, .refl _⟩
  refine (firstResult_runs ?_).mono fun w s'' hnew => clones hg hx hnew hn
  refine bind_typeOf (fun _ => by rw [hty]; rfl) fun t ht => ?_
  obtain rfl : p.ty = t := Option.some.inj (hty.symm.trans ht)
  refine (hI.create_runs hg.holds rfl (by simpa using hw) (.cons ht .nil) hs (h.makes hg hn)).mono
    fun o s'' ⟨hg', hmk, hty'⟩ => ⟨hg', ?_, ?_⟩
  · change s''.body.Makes o (.node {}) [w] _
    simpa using hmk
  · cases hty' with | cons h₂ _ => simpa using h₂

theorem unrealizedCast_runs {input : ValueId}
    (h : Cloning must S M I N s .unrealizedCast [input] ty p) (hI : Grows S M A I) :
    Runs must (do Build.unrealizedCast p.ty (← Build.part input p.index)) s
      (Clones I N s .unrealizedCast [input] p) := by
  refine (h.part_runs hI (.refl h.holds) (j := 0) rfl rfl).bind fun w s' ⟨x, hg, hx, hw, hpart⟩ => ?_
  obtain ⟨-, t', c', -, -, hty⟩ := id hpart
  have hn : s'.body.Narrowed .unrealizedCast p.index [input] [w] := .cons hpart .nil
  exact (hI.cast_runs hg.holds (.inr rfl) hw (by rw [hty]; rfl) (h.makes hg hn)).mono
    fun w s'' hnew => clones hg hx hnew hn

theorem mux_runs {sel high low : ValueId} (h : Cloning must S M I N s .mux [sel, high, low] ty p)
    (hg₀ : ty.isGround = false) (hI : Grows S M A I) :
    Runs must (do
      let high ← Build.part high p.index
      let low ← Build.part low p.index
      Build.mux sel high low) s (Clones I N s .mux [sel, high, low] p) := by
  obtain ⟨ins, hins, a, b, c, t, rfl, ht, hbt⟩ := h.shaped
  obtain rfl : ty = t := by simpa using ht
  obtain rfl := hbt.symm.eq_of_not_isGround hg₀
  refine (h.part_runs hI (.refl h.holds) (j := 1) rfl rfl).bind fun w s' ⟨x, hg, hx, hw, hpart⟩ => ?_
  refine (h.part_runs hI hg (j := 2) rfl rfl).bind fun w' s'' ⟨x', hg', hx', hw', hpart'⟩ => ?_
  have hins' := (hg.trans hg').body.types hins
  cases hins' with | cons h₁ hins' => cases hins' with | cons h₂ _ =>
  have hty := (hpart.mono hg'.body).ty? h₂ h.child
  obtain ⟨-, t', c', -, -, hty'⟩ := id hpart'
  have hn : s''.body.Narrowed .mux p.index [sel, high, low] [sel, w, w'] :=
    .cons rfl (.cons (hpart.mono hg'.body) (.cons hpart' .nil))
  have hgg : Grew I N s (N ++ ([x] ++ [x'])) s'' := by simpa using hg.trans hg'
  rw [List.append_assoc] at hg' hw'
  refine (hI.mux_runs hg'.holds ?_ (by rw [h₁]; rfl) hty (by rw [hty']; rfl)
    (h.makes (hg.trans hg') hn)).mono fun w s'' hnew => clones hgg ((hx.mono hg'.body).append hx') hnew hn
  intro v hv
  simp only [List.mem_cons, List.not_mem_nil, or_false] at hv
  rcases hv with rfl | rfl | rfl
  · exact (hg.trans hg').atHand (h.atHand _ (by simp))
  · exact hg'.atHand hw
  · exact hw'

theorem narrowed_inputs {b : Body} {i : Nat} {ws : List ValueId}
    (h : List.Forall₂ (fun v w => b.PartOf v i w) vs ws) (j : Nat) :
    List.Forall₂ (fun (x : ValueId × Nat) w =>
      if OpKind.multiMux.takesPart x.2 then b.PartOf x.1 i w else w = x.1) (vs.zipIdx (j + 1)) ws := by
  induction h generalizing j with
  | nil => exact .nil
  | cons hw _ ih =>
    rw [List.zipIdx_cons]
    exact .cons hw (ih (j + 1))

theorem exists_types_of_parts {b : Body} {i : Nat} {ws : List ValueId}
    (h : List.Forall₂ (fun v w => b.PartOf v i w) vs ws) : ∃ ts, b.Types ws ts := by
  induction h with
  | nil => exact ⟨[], .nil⟩
  | cons hw _ ih =>
    obtain ⟨ts, hts⟩ := ih
    obtain ⟨-, t, c, -, -, hty⟩ := hw
    exact ⟨c :: ts, .cons hty hts⟩

theorem multiMux_runs {index : ValueId} {inputs : List ValueId}
    (h : Cloning must S M I N s .multiMux (index :: inputs) ty p)
    (hg₀ : ty.isGround = false) (hI : Grows S M A I) :
    Runs must (do Build.multiMux index (← inputs.mapM (Build.part · p.index))) s
      (Clones I N s .multiMux (index :: inputs) p) := by
  obtain ⟨ins, hins, x, f, rest, t, rfl, ht, hft⟩ := h.shaped
  obtain rfl : ty = t := by simpa using ht
  obtain rfl := hft.symm.eq_of_not_isGround hg₀
  refine (Runs.mapM (fun done ws s' => ∃ xs, Grew I N s (N ++ xs) s' ∧ s'.body.Accessors xs ∧
    (∀ w ∈ ws, AtHand S (N ++ xs) s'.body w) ∧ List.Forall₂ (fun v w => s'.body.PartOf v p.index w) done ws) inputs
    ⟨[], by simpa using .refl h.holds, .nil _, by simp, .nil⟩ ?_).bind ?_
  · rintro done v more ws s' hl ⟨xs, hg, hxs, hws, hparts⟩
    have hv : (index :: inputs)[done.length + 1]? = some v := by simp [hl]
    refine (h.part_runs hI hg hv (by simp [OpKind.takesPart])).mono fun w s'' ⟨x, hg', hx, hw, hpart⟩ => ?_
    rw [List.append_assoc] at hg' hw
    refine ⟨xs ++ [x], hg.trans hg', (hxs.mono hg'.body).append hx, fun u hu => ?_, ?_⟩
    · rcases List.mem_append.1 hu with hu | hu
      · exact hg'.atHand (hws u hu)
      · rw [List.mem_singleton.1 hu]
        exact hw
    · exact List.rel_append (hparts.imp fun _ _ hp => hp.mono hg'.body) (.cons hpart .nil)
  · rintro ws s' ⟨xs, hg, hx, hws, hparts⟩
    have hins' := hg.body.types hins
    cases hins' with | cons h₁ hins' =>
    cases hins' with | @cons v₁ _ vs' _ h₂ hrest =>
    cases hparts with | @cons _ w₁ _ ws' hpart₁ hparts' =>
    have hty := hpart₁.ty? h₂ h.child
    have hn : s'.body.Narrowed .multiMux p.index (index :: v₁ :: vs') (index :: w₁ :: ws') :=
      .cons rfl (narrowed_inputs (.cons hpart₁ hparts') 0)
    obtain ⟨ts, hts⟩ := exists_types_of_parts hparts'
    refine (hI.multiMux_runs hg.holds ?_ (by rw [h₁]; rfl) hty hts (h.makes hg hn)).mono
      fun w s'' hnew => clones hg hx hnew hn
    intro v hv
    rcases List.mem_cons.1 hv with rfl | hv
    · exact hg.atHand (h.atHand _ (by simp))
    · exact hws v hv

end Cloning

end Grows

/-- A producer is split by making an operation of its kind for each part. -/
theorem Lower.producer_splits {must : Prop} {t : LowerState} {o : OpId} {keep : Bool} {op : Operation} {ty : Ty}
    {Q : Bool → LowerState → Prop} (hop : t.builder.body.op? o = some op) (hp : op.kind.isProducer = true)
    (hsh : ∃ ins, t.builder.body.Types op.operands ins ∧ op.kind.Shaped False ins [ty])
    (hsplit : ∀ clone : Part → Build ValueId,
      (∀ {S : ValueId → Prop} {M : Body → OpKind → List ValueId → List Ty → Prop} {A : OpKind → List Ty → Prop}
        {I : List OpId → Builder → Prop} {N : List OpId} {s : Builder} {p : Part}, Grows S M A I → ty.isGround = false →
        Grows.Cloning must S M I N s op.kind op.operands ty p →
          Runs must (clone p) s (Grows.Clones I N s op.kind op.operands p)) →
      Runs must (splitProducer o keep clone) t Q) :
    Runs must (producer o keep op.kind) t Q := by
  obtain ⟨ins, hins, hsh⟩ := hsh
  cases hk : op.kind with
  | wire d =>
    refine hsplit _ fun hI _ hc => ?_
    rw [hk] at hc ⊢
    exact hc.wire_runs hI
  | invalid =>
    refine hsplit _ fun hI _ hc => ?_
    rw [hk] at hc ⊢
    exact hc.invalid_runs hI
  | reg d =>
    rw [hk] at hsh
    obtain ⟨c, t, rfl, -⟩ := hsh
    obtain ⟨clock, -, hops⟩ := hins.singleton
    refine bind_operand (v := clock) hop (by rw [hops]; rfl) (hsplit _ fun hI _ hc => ?_)
    rw [hk, hops] at hc ⊢
    exact hc.reg_runs hI
  | regReset d =>
    rw [hk] at hsh
    obtain ⟨c, x, i, t, rfl, -⟩ := hsh
    obtain ⟨clock, reset, init, -, -, -, hops⟩ := hins.triple
    refine bind_operand (v := clock) hop (by rw [hops]; rfl) ?_
    refine bind_operand (v := reset) hop (by rw [hops]; rfl) ?_
    refine bind_operand (v := init) hop (by rw [hops]; rfl) (hsplit _ fun hI _ hc => ?_)
    rw [hk, hops] at hc ⊢
    exact hc.regReset_runs hI
  | node d =>
    rw [hk] at hsh
    obtain ⟨a, t, rfl, -⟩ := hsh
    obtain ⟨input, -, hops⟩ := hins.singleton
    refine bind_operand (v := input) hop (by rw [hops]; rfl) (hsplit _ fun hI hagg hc => ?_)
    rw [hk, hops] at hc ⊢
    exact hc.node_runs hagg hI
  | mux =>
    rw [hk] at hsh
    obtain ⟨x, a, c, t, rfl, -⟩ := hsh
    obtain ⟨sel, high, low, -, -, -, hops⟩ := hins.triple
    refine bind_operand (v := sel) hop (by rw [hops]; rfl) ?_
    refine bind_operand (v := high) hop (by rw [hops]; rfl) ?_
    refine bind_operand (v := low) hop (by rw [hops]; rfl) (hsplit _ fun hI hagg hc => ?_)
    rw [hk, hops] at hc ⊢
    exact hc.mux_runs hagg hI
  | multiMux =>
    rw [hk] at hsh
    obtain ⟨x, f, rest, t, rfl, -⟩ := hsh
    cases hops : op.operands with
    | nil =>
      rw [hops] at hins
      cases hins
    | cons index inputs =>
      refine bind_op hop ?_
      rw [hops]
      refine hsplit _ fun hI hagg hc => ?_
      rw [hk, hops] at hc ⊢
      exact hc.multiMux_runs hagg hI
  | unrealizedCast =>
    rw [hk] at hsh
    obtain ⟨a, t, rfl, -⟩ := hsh
    obtain ⟨input, -, hops⟩ := hins.singleton
    refine bind_operand (v := input) hop (by rw [hops]; rfl) (hsplit _ fun hI _ hc => ?_)
    rw [hk, hops] at hc ⊢
    exact hc.unrealizedCast_runs hI
  | _ =>
    rw [hk] at hp
    cases hp

end Scalarize
