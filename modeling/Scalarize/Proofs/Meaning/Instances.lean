import Scalarize.Proofs.Meaning.Producers
import Scalarize.Proofs.Step.Instance

/-!
# Instances whose ports are split

* `Body.Apportioned` : a value is handed on as it is, or part by part;
* `Interpreted.handedOver` : the readers of the former results read the new ones;
* `Due.inst_runs` : an instance gives way to one with more ports.
-/

namespace Scalarize

open Body Lower

variable {I : Interpretation} {idle : OpId → Prop} {P Q : List OpId} {S : ValueId → Sense} {b b' : Body} {o : OpId}
  {op : Operation} {k : BlockId} {A B : List OpId} {s : Builder} {y : Symbols} {e : ValueId × SplitPort}
  {xs : List (Ty × Sense)} {mine new : List ValueId} {splits : List (ValueId × SplitPort)} {xss : List (List (Ty × Sense))}

namespace Body

/-! ## Results -/

/-- What is handed on in place of a value: the value as it is, or each of its parts. -/
inductive Apportioned (b : Body) (S : ValueId → Sense) : ValueId × SplitPort → List (Ty × Sense) → Prop
  | whole {v : ValueId} {t : Ty} {s : SplitPort} (hv : b.ty? v = some t) (hs : s.types = [t]) :
      Apportioned b S (v, s) [(t, S v)]
  | parts {v : ValueId} {t : Ty} {s : SplitPort} {ps : List Part} (hv : b.ty? v = some t) (hps : t.PartsOf ps)
      (hs : s.types = ps.map (·.ty)) : Apportioned b S (v, s) (ps.map fun p => (p.ty, (S v).part p.index))

namespace Apportioned

theorem types (h : b.Apportioned S e xs) : e.2.types = xs.map (·.1) := by
  cases h with
  | whole _ hs => exact hs
  | parts _ _ hs => rw [hs, List.map_map]; rfl

theorem holding (h : b.Apportioned S e xs) (role : Role) :
    xs.flatMap (fun x => x.1.holding role x.2) = b.holding S role e.1 := by
  unfold Body.holding
  cases h with
  | whole hv => rw [tyOf_eq hv, List.flatMap_singleton]
  | parts hv hps => rw [tyOf_eq hv, hps.holding_eq, List.flatMap_map]

theorem holds (h : b.Apportioned S e xs) (hproper : ∀ {v t}, b.ty? v = some t → t.Accepts (S v).bits) :
    ∀ x ∈ xs, x.1.Accepts x.2.bits := by
  cases h with
  | whole hv => exact List.forall_mem_singleton.2 (hproper hv)
  | parts hv hps =>
    intro x hx
    obtain ⟨p, hp, rfl⟩ := List.mem_map.1 hx
    exact ((hproper hv).child (hps.child_index hp)).accepts

theorem lt (h : b.Apportioned S e xs) : e.1.index < b.values.size := by
  cases h with
  | whole hv | parts hv => exact isSome_ty?.1 (by rw [hv]; rfl)

theorem congr {S' : ValueId → Sense} (h : b.Apportioned S e xs) (hty : b'.ty? e.1 = b.ty? e.1) (hS : S' e.1 = S e.1) :
    b'.Apportioned S' e xs := by
  cases h with
  | whole hv hs =>
    rw [← hS]
    exact .whole (hty.trans hv) hs
  | parts hv hps hs =>
    rw [← hS]
    exact .parts (hty.trans hv) hps hs

theorem flatMap_types (h : List.Forall₂ (b.Apportioned S) splits xss) :
    splits.flatMap (·.2.types) = xss.flatten.map (·.1) := by
  induction h with
  | nil => rfl
  | cons he _ ih => rw [List.flatMap_cons, List.flatten_cons, List.map_append, ih, he.types]

theorem flatMap_holding (h : List.Forall₂ (b.Apportioned S) splits xss) (role : Role) :
    xss.flatten.flatMap (fun x => x.1.holding role x.2) = (splits.map (·.1)).flatMap (b.holding S role) := by
  induction h with
  | nil => rfl
  | cons he _ ih => rw [List.flatten_cons, List.flatMap_append, ih, he.holding, List.map_cons, List.flatMap_cons]

end Apportioned

/-- A value with a type and a sense, which no accessor makes. -/
structure Receives (idle : OpId → Prop) (b : Body) (Q : List OpId) (S : ValueId → Sense) (v : ValueId) (x : Ty × Sense) :
    Prop where
  made : b.MadeBy Q v
  ty? : b.ty? v = some x.1
  sense : S v = x.2
  rooted : b.Rooted idle v

theorem Receives.flatMap_holding {vs : List ValueId} (h : List.Forall₂ (b.Receives idle Q S) vs xs) (role : Role) :
    vs.flatMap (b.holding S role) = xs.flatMap fun x => x.1.holding role x.2 := by
  induction h with
  | nil => rfl
  | cons hv _ ih => rw [List.flatMap_cons, List.flatMap_cons, ih, Body.holding, tyOf_eq hv.ty?, hv.sense]

/-- What was made by an instance, which is not among `Q`. -/
structure Former (b : Body) (Q : List OpId) (v : ValueId) : Prop where
  not_made : ¬b.MadeBy Q v
  instance? : ∀ {x i op}, b.origin? v = some (.result x i) → b.op? x = some op → ∃ j, op.kind = .inst j

theorem Former.outlives {v : ValueId} (h : b.Former Q v) (hout : Outlives b b') : b'.Former Q v where
  not_made := by
    rintro (hv | ⟨d, hd, i, hv⟩)
    · exact h.not_made (.inl ((hout.origin? v).symm.trans hv))
    · exact h.not_made (.inr ⟨d, hd, i, (hout.origin? v).symm.trans hv⟩)
  instance? hv hop := by
    obtain ⟨op, hop', hk, -⟩ := hout.op?_some' hop
    obtain ⟨j, hj⟩ := h.instance? ((hout.origin? v).symm.trans hv) hop'
    exact ⟨j, hk.trans hj⟩

/-- The readers of one former result read the new ones. -/
theorem Interpreted.handedOne (h : b.Interpreted I idle Q S) (hd : b.Apportioned S e xs)
    (hvs : List.Forall₂ (b.Receives idle Q S) mine xs) (hf : b.Former Q e.1) : Ends False (b.handOne e mine) fun b' =>
      b'.Interpreted I idle Q S ∧ Silent idle b S b' S ∧ Outlives b b' ∧ ∀ v, b.Rooted idle v → b'.Rooted idle v := by
  have hrewire : ∀ {t ps}, b.ty? e.1 = some t → t.PartsOf ps → xs = ps.map (fun p => (p.ty, (S e.1).part p.index)) →
      Ends False (b.rewire e.1 mine) fun b' => b'.Interpreted I idle Q S ∧ Silent idle b S b' S ∧ Outlives b b' ∧
        ∀ v, b.Rooted idle v → b'.Rooted idle v := by
    rintro t ps hv hps rfl
    refine h.rewired hv hps ((List.forall₂_map_right_iff.1 hvs).imp fun v p hv => ⟨hv.ty?, hv.sense, hv.rooted, ?_⟩)
      (fun d i op hd hop => ?_) fun x hx op hact hmem => hf.not_made ((h.expects hx hact).reads _ hmem)
    · obtain ⟨j, hj⟩ := hf.instance? hd hop
      rw [hj]
      rfl
    · rintro rfl
      exact hf.not_made hv.made
  unfold handOne
  split
  next v =>
    cases hd with
    | @parts old t s ps hold hps hs =>
      refine Ends.bind (P := (· = t)) (typeOf_ends (fun t' ht' => Option.some.inj (ht'.symm.trans hold)) nofun) ?_
      rintro _ rfl
      split
      next he =>
        -- parts are less deep
        obtain ⟨p, rfl, hp⟩ := List.map_eq_singleton_iff.1 (hs.symm.trans he)
        exact absurd (hp ▸ hps.depth_lt (List.mem_singleton_self p)) (Nat.lt_irrefl _)
      next => exact hrewire hold hps rfl
    | @whole old t s hold hs =>
      refine Ends.bind (P := (· = t)) (typeOf_ends (fun t' ht' => Option.some.inj (ht'.symm.trans hold)) nofun) ?_
      rintro _ rfl
      rw [if_pos hs]
      have hv := (List.forall₂_cons.1 hvs).1
      refine (replaceAllUses_any h.coherent.toExact).mono ?_
      rintro b' (rfl | ⟨hne, hold', hv', hrep⟩)
      · exact ⟨h, .refl _ _ _, .refl _, fun _ => id⟩
      have hty : b.ty? v = b.ty? old := hv.ty?.trans hold.symm
      obtain ⟨hi, hq⟩ := h.replaced hrep
        { ne := hne
          known := ⟨hold', hv'⟩
          literal := by
            rintro n ⟨x, i, op, hx, hop, hk⟩
            obtain ⟨j, hj⟩ := hf.instance? hx hop
            rw [hk] at hj
            cases hj
          owned := fun _ => ⟨hv.rooted.owned, hf.not_made, hty, congrArg _ hv.sense⟩
          straight := fun _ => ⟨hv.rooted.straight, congrArg _ hv.sense⟩ }
      exact ⟨hi, hq, hrep.outlives, fun u hu => hu.replaced hrep fun _ _ => hty⟩
  next hne =>
    cases hd with
    | parts hv hps => exact hrewire hv hps rfl
    | whole =>
      cases hvs with
      | cons _ hnil =>
        cases hnil
        exact absurd rfl (hne _)

/-- The readers of the former results read the new ones. -/
theorem Interpreted.handedOver (hd : List.Forall₂ (b.Apportioned S) splits xss) (h : b.Interpreted I idle Q S)
    (hvs : List.Forall₂ (b.Receives idle Q S) new xss.flatten) (hf : ∀ e ∈ splits, b.Former Q e.1) :
    Ends False (handOver splits new b) fun b' => b'.Interpreted I idle Q S ∧ Silent idle b S b' S ∧ Outlives b b' := by
  induction splits generalizing xss b new with
  | nil => exact .pure ⟨h, .refl _ _ _, .refl _⟩
  | cons e splits ih =>
    obtain ⟨xs, xss, he, hds, rfl⟩ := List.forall₂_cons_left_iff.1 hd
    rw [handOver_cons, he.types, List.length_map]
    rw [List.flatten_cons] at hvs
    refine (h.handedOne he (List.forall₂_take_append _ _ _ hvs) (hf e List.mem_cons_self)).bind
      fun b₁ ⟨h₁, hq₁, hout₁, hrooted⟩ => ?_
    refine (ih (hds.imp fun e _ h => h.congr (hout₁.ty? e.1) rfl) h₁ ((List.forall₂_drop_append _ _ _ hvs).imp fun v x hv => ?_)
      fun e' he' => (hf e' (List.mem_cons_of_mem _ he')).outlives hout₁).mono
      fun b₂ ⟨h₂, hq₂, hout₂⟩ => ⟨h₂, hq₁.trans hq₂, hout₁.trans hout₂⟩
    refine ⟨?_, (hout₁.ty? v).trans hv.ty?, hv.sense, hrooted v hv.rooted⟩
    rcases hv.made with hv | ⟨d, hd, i, hv⟩
    · exact .inl ((hout₁.origin? v).trans hv)
    · exact .inr ⟨d, hd, i, (hout₁.origin? v).trans hv⟩

end Body

/-! ## Instances -/

/-- An instance with ports of these types and senses. -/
theorem Draft.inst_makes {W : List OpId → Builder → Prop} [Site W] (d : Draft I idle W P) (i : Instance)
    (hlen : xs.length = i.ports.length) (hholds : ∀ x ∈ xs, x.1.Accepts x.2.bits) :
    Runs False (Build.inst i (xs.map (·.1))) d.builder fun x s' => ∃ d' : Draft I idle W P, d'.builder = s' ∧
      d.Next (xs.flatMap fun x => x.1.holding .instancePort x.2) d' ∧ ∃ op, d'.body.op? x = some op ∧
        List.Forall₂ (d'.body.Receives idle (P ++ d'.made) d'.senses) op.results xs := by
  refine (Build.create_any rfl _ _).mono ?_
  rintro x _ ⟨b', hc, rfl⟩
  obtain ⟨d', hd', hS, hnext, hhas⟩ := d.create hc rfl (τ := fun j => (xs[j]?.map (·.2)).getD ⟨fun _ => [], none⟩)
    { typed := ⟨[], .nil, trivial, rfl, fun _ => by rw [List.length_map, hlen]⟩
      meant := trivial
      reads := nofun
      proper := fun {j t} ht => by
        rw [List.getElem?_map] at ht
        obtain ⟨x, hx, rfl⟩ := Option.map_eq_some_iff.1 ht
        rw [hx]
        exact hholds x (List.mem_of_getElem? hx)
      sense := nofun
      placeless := nofun
      reaches := nofun
      short := nofun
      exact := nofun
      dest := nofun }
  have hself : d'.body.op? x = some _ := (congrArg (fun s => s.body.op? x) hd').trans hc.op?_self
  have hrec : List.Forall₂ (d'.body.Receives idle (P ++ d'.made) d'.senses)
      ((List.range (xs.map (·.1)).length).map fun j => (⟨d.body.values.size + j⟩ : ValueId)) xs := by
    refine List.forall₂_iff_get.2 ⟨by simp, fun j hj hj' => ?_⟩
    have hx : xs[j]? = some (xs.get ⟨j, hj'⟩) := List.getElem?_eq_getElem hj'
    have ht : (xs.map (·.1))[j]? = some (xs.get ⟨j, hj'⟩).1 := by rw [List.getElem?_map, hx]; rfl
    have hv := hhas ht
    rw [hx] at hv
    have horigin : d'.body.origin? ⟨d.body.values.size + j⟩ = some (.result x j) := by
      rw [Draft.body, hd']
      exact (hc.origin?_new j).trans (by rw [ht, Option.map_some])
    have hget : ((List.range (xs.map (·.1)).length).map fun j => (⟨d.body.values.size + j⟩ : ValueId)).get ⟨j, hj⟩ =
        ⟨d.body.values.size + j⟩ := by simp
    rw [hget]
    refine ⟨hv.made, hv.ty?, hv.sense, ?_, .inr ⟨x, j, _, horigin, ⟨hself, rfl, d.not_idle hc.fresh⟩, rfl⟩⟩
    rintro ⟨x', j', op, u, g, t, horigin', hact, hk, -⟩
    obtain ⟨rfl, rfl⟩ : x = x' ∧ j = j' := by simpa using horigin.symm.trans horigin'
    rw [Option.some.inj (hact.op?.symm.trans hself)] at hk
    cases hk
  refine ⟨d', hd', ?_, _, hself, hrec⟩
  have heffects : b'.effectsBy d'.senses x = xs.flatMap fun x => x.1.holding .instancePort x.2 := by
    rw [effectsBy_eq hc.op?_self]
    change List.flatMap (b'.holding d'.senses .instancePort) _ = _
    have hb' : b' = d'.body := by rw [Draft.body, hd']; rfl
    rw [hb']
    exact Receives.flatMap_holding hrec _
  exact heffects ▸ hnext

/-- An instance gives way to one with the ports that its ports were split into. -/
theorem Due.inst_runs (h : Due I idle P S o op k A B s) (cx : Context) {i : Instance} (hk : op.kind = .inst i) :
    Runs False (Lower.inst cx o i) ⟨s, y⟩ fun replaced t' => Rendered I idle P S o k A B s replaced t'.builder := by
  have hc : ∀ strict, op.kind ≠ .connect strict := by simp [hk]
  obtain ⟨ins, outs, hins, houts, -, hshaped⟩ := h.heeds.typed
  rw [hk] at hshaped
  obtain ⟨rfl, hlen⟩ := hshaped
  have hlen' : op.results.length = i.ports.length := houts.length_eq.trans (hlen trivial)
  unfold Lower.inst
  split
  next entry _ =>
    refine Body.bind_op h.active.op? ?_
    refine Runs.bind (Runs.mapM (fun (done : List (InstancePort × ValueId)) (splits : List (ValueId × SplitPort)) t' =>
      t' = (⟨s, y⟩ : LowerState) ∧ splits.map (·.1) = done.map (·.2) ∧
      (∀ e ∈ splits, e.2.types.length = e.2.ports.length) ∧ ∃ xss, List.Forall₂ (s.body.Apportioned S) splits xss) _
        ⟨rfl, rfl, nofun, [], .nil⟩ ?_) ?_
    · rintro done ⟨p, v⟩ rest splits _ - ⟨rfl, hfst, hports, xss, hxss⟩
      refine Runs.bind_body (P := fun ty => s.body.ty? v = some ty) (typeOf_ends (fun _ h => h) nofun)
        fun ty hty => Runs.bind_except (InstancePort.split_ends (nofun : False → _)) fun sp ⟨hs, _⟩ => .pure ?_
      have hdealt : ∃ xs, s.body.Apportioned S (v, sp) xs := by
        cases hs with
        | whole => exact ⟨_, .whole hty rfl⟩
        | parts hps => exact ⟨_, .parts hty hps rfl⟩
      obtain ⟨xs, hxs⟩ := hdealt
      exact ⟨rfl, by simp [hfst], List.forall_mem_append.2 ⟨hports, List.forall_mem_singleton.2 hs.length_eq⟩,
        xss ++ [xs], List.rel_append hxss (.cons hxs .nil)⟩
    rintro splits _ ⟨rfl, hfst, hports, xss, hxss⟩
    rw [List.map_snd_zip hlen'.le] at hfst
    split
    · exact .pure ⟨rfl, h.stays hc⟩
    have hmake : ∀ decl y, Runs False (do
        let new ← (Build.inst { i with decl, ports := splits.flatMap (·.2.ports) } (splits.flatMap (·.2.types)) :
          Lower OpId)
        let newResults := (← body (·.op new)).results
        change (Body.handOver splits newResults)
        return true) ⟨s, y⟩ fun replaced t' => Rendered I idle P S o k A B s replaced t'.builder := by
      intro decl y
      rw [Apportioned.flatMap_types hxss]
      refine Runs.bind_build ((h.draft hc).inst_makes _ ?_ fun x hx => ?_) ?_
      · have := congrArg List.length (Apportioned.flatMap_types hxss)
        rw [List.length_map] at this
        rw [← this, List.length_flatMap, List.length_flatMap, List.map_congr_left hports]
      · obtain ⟨xs, hxs, hx⟩ := List.mem_flatten.1 hx
        obtain ⟨e, -, he⟩ := exists_of_forall₂ hxss hxs
        exact he.holds h.interpreted.proper x hx
      rintro x _ ⟨d, rfl, hd, op', hop', hrec⟩
      refine Body.bind_op (t := ⟨d.builder, y⟩) hop' ?_
      have heffects : s.body.effectsBy S o = xss.flatten.flatMap fun x => x.1.holding .instancePort x.2 := by
        rw [Apportioned.flatMap_holding hxss, hfst, effectsBy_eq h.active.op?, hk]
        rfl
      rw [← heffects] at hd
      have hdealt : List.Forall₂ (d.body.Apportioned d.senses) splits xss :=
        hxss.imp fun e _ he => he.congr (hd.grows.ty? he.lt) (hd.senses _ he.lt)
      refine Runs.bind_change (d.interpreted.handedOver hdealt hrec fun e he => ?_) fun b ⟨hi, hq, hout⟩ =>
        .pure ⟨_, _, _, h.supplants hc hd hi hq hout⟩
      obtain ⟨j, hj⟩ := List.mem_iff_getElem?.1 (hfst ▸ List.mem_map_of_mem he : e.1 ∈ op.results)
      have horigin := hd.grows.origin?_some (h.interpreted.coherent.result h.active.op? hj)
      refine ⟨h.not_madeBy hc hd hj, fun {z l opz} hz hopz => ?_⟩
      obtain ⟨rfl, -⟩ : o = z ∧ j = l := by simpa using horigin.symm.trans hz
      obtain ⟨op₁, hop₁, hbare, -⟩ := hd.grows.op? h.active.op?
      rw [Option.some.inj (hop₁.symm.trans hopz), hk] at hbare
      cases hkz : opz.kind <;> rw [hkz] at hbare <;> first | exact ⟨_, rfl⟩ | cases hbare
    dsimp only
    split
    · exact .bind_mint (hmake _ _)
    · exact hmake _ _
  next => exact .throw id

end Scalarize
