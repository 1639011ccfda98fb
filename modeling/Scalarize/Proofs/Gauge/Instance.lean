import Scalarize.Proofs.Gauge.Split
import Scalarize.Proofs.Step.Instance

/-!
# Instances within a gauge

* `Gauge.Flat` : nothing stands behind the values of some types;
* `Gauged.handOver_ends` : the readers of former results read the new ones;
* `Site.inst_runs` : an instance gives way to one instance of lower rank, or it stays as it is.
-/

namespace Scalarize

open Body Lower

/-- Nothing stands behind the values, which have no more layers than the types. -/
def Gauge.Flat (G : Gauge) (vs : List ValueId) (tys : List Ty) : Prop :=
  List.Forall₂ (fun v t => G.extent v ≤ .flat t.depth) vs tys

/-- What a port is split into is within the limits of the port, and stays whole or is less deep. -/
theorem InstancePort.Splits.le {p : InstancePort} {ty : Ty} {keep : Bool} {s : SplitPort} (h : p.Splits ty keep s)
    {t : Ty} (ht : t ∈ s.types) : t.depth ≤ ty.depth ∧ t.breadth ≤ ty.breadth ∧
      (t.Stays keep ∨ t.depth < ty.depth ∧ ¬ty.Stays keep) := by
  cases h with
  | whole hstay =>
    obtain rfl := List.mem_singleton.1 ht
    exact ⟨Nat.le_refl _, Nat.le_refl _, .inl hstay⟩
  | parts hps hk =>
    obtain ⟨part, hpart, rfl⟩ := List.mem_map.1 ht
    have hlt := hps.depth_lt hpart
    refine ⟨Nat.le_of_lt hlt, Ty.breadth_le_of_child? (hps.child_index hpart), .inr ⟨hlt, ?_⟩⟩
    rintro (hground | hkeep)
    · rw [hps.aggregate] at hground
      cases hground
    · exact hk hkeep

namespace Body.Gauged

variable {cx : Context} {L : Limits} {G : Gauge}

theorem handOver_ends {splits : List (ValueId × SplitPort)} {new : List ValueId} : ∀ {b : Body}, b.Gauged cx L G →
    (∀ e ∈ splits, ∃ (p : InstancePort) (ty : Ty) (keep : Bool), b.ty? e.1 = some ty ∧
      p.Splits ty keep e.2) →
    G.Flat new (splits.flatMap (·.2.types)) →
    Ends False (handOver splits new b) fun b' => b'.Gauged cx L G ∧ Outlives b b' := by
  induction splits generalizing new with
  | nil => exact fun h _ _ => .pure ⟨h, .refl _⟩
  | cons e splits ih =>
    obtain ⟨old, s⟩ := e
    intro b h hsplits hnew
    obtain ⟨p, ty, keep, hty, hs⟩ := hsplits _ List.mem_cons_self
    have hold : ty.depth ≤ (G.extent old).depth := (h.value hty).type
    rw [List.flatMap_cons] at hnew
    have hmine : G.Flat (new.take s.types.length) s.types := by
      have := List.forall₂_take s.types.length hnew
      rwa [List.take_left] at this
    have hrest : G.Flat (new.drop s.types.length) (splits.flatMap (·.2.types)) := by
      have := List.forall₂_drop s.types.length hnew
      rwa [List.drop_left] at this
    have hnext {b' : Body} (h' : b'.Gauged cx L G ∧ Outlives b b') :
        Ends False (handOver splits (new.drop s.types.length) b') fun b'' => b''.Gauged cx L G ∧ Outlives b b'' := by
      refine (ih h'.1 (fun e he => ?_) hrest).mono fun b'' ⟨h'', hout⟩ => ⟨h'', h'.2.trans hout⟩
      obtain ⟨p, ty, keep, hty, hs⟩ := hsplits e (List.mem_cons_of_mem _ he)
      exact ⟨p, ty, keep, (h'.2.ty? _).trans hty, hs⟩
    have hrewire : (∀ v ∈ new.take s.types.length, G.extent v ≤ .flat ((G.extent old).depth - 1)) →
        Ends False (b.rewire old (new.take s.types.length) >>= handOver splits (new.drop s.types.length))
          fun b'' => b''.Gauged cx L G ∧ Outlives b b'' := fun hparts =>
      Ends.bind (h.rewire_ends (Nat.le_refl _) hparts) fun _ => hnext
    rw [handOver]
    dsimp only
    cases hs with
    | whole =>
      -- one new result, if any, which has the type of the former one
      split
      next v hv =>
        rw [hv] at hmine
        refine Ends.bind (P := (ty = ·)) (typeOf_ends (fun t ht => Option.some.inj (hty.symm.trans ht)) False.elim) ?_
        rintro _ rfl
        rw [if_pos rfl]
        cases hmine with
        | cons hle => exact Ends.bind (h.replaceAllUses_ends (Extent.le_trans hle (Extent.flat_le hold))) fun _ => hnext
      next hne =>
        generalize new.take _ = mine at hmine hne
        cases hmine with
        | cons _ hnil =>
          cases hnil
          exact absurd rfl (hne _)
    | parts hps =>
      have hparts : ∀ v ∈ new.take _, G.extent v ≤ .flat ((G.extent old).depth - 1) := fun v hv => by
        obtain ⟨t, ht, hle⟩ := exists_of_forall₂ (List.Forall₂.flip hmine) hv
        obtain ⟨part, hpart, rfl⟩ := List.mem_map.1 ht
        have := hps.depth_lt hpart
        exact Extent.le_trans hle (Extent.flat_le (by show part.ty.depth ≤ (G.extent old).depth - 1; omega))
      split
      next v hv =>
        refine Ends.bind (P := fun _ => True) (.intro (fun _ _ => trivial) False.elim) fun t _ => ?_
        split
        · have hle := hparts v (hv ▸ List.mem_singleton_self v)
          refine Ends.bind (h.replaceAllUses_ends (Extent.le_trans hle (Extent.flat_le ?_))) fun _ => hnext
          exact Nat.sub_le _ _
        · exact hrewire hparts
      next => exact hrewire hparts

end Body.Gauged

namespace Builder.Site

variable {cx : Context} {L : Limits} {n : Nat} {G : Gauge} {t : LowerState} {o : OpId} {op : Operation}

/-- An operation is made whose results have nothing behind them. -/
theorem createdFlat {s : Builder} (h : s.Site cx L n G) {kind : OpKind} {vs : List ValueId} {tys : List Ty} {x : OpId}
    {b : Body} (hc : Created s.body s.point kind vs tys x b) (hty : ∀ ty ∈ tys, L.Holds ty (.flat ty.depth))
    (hf : kind.InGauge cx L (vs.map G.extent) (tys.map fun ty => (.flat ty.depth, some ty)) n) :
    ∃ G', s.Lays cx L n 1 G G' (s.after b) ∧ ∀ opx, b.op? x = some opx → G'.Flat opx.results tys := by
  have hl := h.created hc (fun j => .flat ((tys[j]?.map Ty.depth).getD 0)) (fun j ty hj => ?_) ?_
  · refine ⟨_, hl, fun opx hopx => ?_⟩
    obtain rfl := Option.some.inj (hc.op?_self.symm.trans hopx)
    refine List.forall₂_iff_get.2 ⟨by simp, fun j h₁ h₂ => ?_⟩
    simp only [List.get_eq_getElem, List.getElem_map, List.getElem_range]
    rw [Gauge.extent_new, List.getElem?_eq_getElem h₂]
    exact Extent.le_refl _
  · rw [hj]
    exact hty ty (List.mem_of_getElem? hj)
  · rwa [show (tys.zipIdx.map fun e => (Extent.flat ((tys[e.2]?.map Ty.depth).getD 0), some e.1)) =
      tys.map fun ty => (.flat ty.depth, some ty) from ?_]
    refine List.ext_getElem? fun j => ?_
    rw [List.getElem?_map, List.getElem?_map, List.getElem?_zipIdx]
    cases hj : tys[j]? with
    | none => rfl
    | some ty =>
      show some (Extent.flat ((tys[0 + j]?.map Ty.depth).getD 0), some ty) = _
      rw [Nat.zero_add, hj]
      rfl

/-- Ports stay as they are, or they are split into ports that are less deep. -/
theorem inst_runs (h : ∀ m, n = m + 1 → t.builder.Site cx L m G)
    (hop : t.builder.body.op? o = some op) {i : Instance} (hk : op.kind = .inst i)
    (hfits : op.InGauge cx L G.extent t.builder.body.ty? n) :
    Runs False (Lower.inst cx o i) t fun replaced t' => replaced = false ∧ t' = t ∨ ∃ m G', n = m + 1 ∧
      t.builder.body.Laid cx L m 1 G G' t'.builder.body := by
  unfold Lower.inst
  split
  next entry hentry =>
    refine Body.bind_op hop ?_
    refine Runs.bind (Runs.mapM (fun _ splits t' => t' = t ∧ ∀ e ∈ splits, e.1 ∈ op.results ∧
      ∃ (p : InstancePort) (ty : Ty), t.builder.body.ty? e.1 = some ty ∧
        p.Splits ty (cx.options.portsMayPreserve entry) e.2) _ ⟨rfl, by simp⟩ ?_) ?_
    · rintro done ⟨p, v⟩ rest splits t hl ⟨rfl, hsplits⟩
      have hv : v ∈ op.results := (List.of_mem_zip (hl ▸ List.mem_append_right _ List.mem_cons_self)).2
      refine Runs.bind_body (P := fun ty => t.builder.body.ty? v = some ty) (typeOf_ends (fun _ h => h) nofun)
        fun ty hty => Runs.bind_except (InstancePort.split_ends (nofun : False → _)) fun s ⟨hs, _⟩ => .pure ⟨rfl, ?_⟩
      exact List.forall_mem_append.2 ⟨hsplits, List.forall_mem_singleton.2 ⟨hv, p, ty, hty, hs⟩⟩
    rintro splits t ⟨rfl, hsplits⟩
    split
    · exact .pure (.inl ⟨rfl, rfl⟩)
    next hany =>
      have hrank {v : ValueId} {ty : Ty} (hv : v ∈ op.results) (hty : t.builder.body.ty? v = some ty)
          (hs : ¬ty.Stays (cx.options.portsMayPreserve entry)) : ty.depth ≤ n := by
        unfold Operation.InGauge at hfits
        rw [hk] at hfits
        exact hfits entry hentry _ (List.mem_map_of_mem (f := fun r => (G.extent r, t.builder.body.ty? r)) hv) ty hty hs
      obtain ⟨m, rfl⟩ : ∃ m, n = m + 1 := by
        simp only [Bool.not_eq_true', Bool.not_eq_false, List.any_eq_true] at hany
        obtain ⟨e, he, hchanged⟩ := hany
        obtain ⟨hv, p, ty, hty, hs⟩ := hsplits e he
        obtain ⟨hagg, hkeep⟩ := hs.aggregate hchanged
        have := Ty.depth_pos hagg
        have := hrank hv hty fun hstay => hstay.elim (fun hg => by rw [hagg] at hg; cases hg) hkeep
        exact ⟨n - 1, by omega⟩
      have hs := h m rfl
      -- whatever the symbol is, the instance is made in the same way
      have hmake : ∀ decl y, Runs False (do
          let new ← (Build.inst { i with decl, ports := splits.flatMap (·.2.ports) } (splits.flatMap (·.2.types)) :
            Lower OpId)
          let newResults := (← Lower.body (·.op new)).results
          change (Body.handOver splits newResults)
          return true) ⟨t.builder, y⟩ fun replaced t' => replaced = false ∧ t' = t ∨ ∃ m' G', m + 1 = m' + 1 ∧
            t.builder.body.Laid cx L m' 1 G G' t'.builder.body := by
        intro decl y
        refine Runs.bind_build (Build.create_any rfl _ _) ?_
        rintro x s ⟨b, hc, rfl⟩
        have htype {ty : Ty} (hty : ty ∈ splits.flatMap (·.2.types)) : L.Holds ty (.flat ty.depth) ∧
            (ty.Stays (cx.options.portsMayPreserve entry) ∨ ty.depth ≤ m) := by
          obtain ⟨e, he, hte⟩ := List.mem_flatMap.1 hty
          obtain ⟨hv, p, tye, htye, hsplit⟩ := hsplits e he
          obtain ⟨hdepth, hbreadth, hcases⟩ := hsplit.le hte
          have hvalue := hs.gauged.value htye
          refine ⟨.flat (Nat.le_refl _) (Nat.le_trans hbreadth hvalue.breadth)
            (Nat.le_trans hdepth (Nat.le_trans hvalue.type hvalue.depth)), hcases.imp_right fun ⟨hlt, hstay⟩ => ?_⟩
          exact Nat.le_of_lt_succ (Nat.lt_of_lt_of_le hlt (hrank hv htye hstay))
        obtain ⟨G', hl, hflat⟩ := hs.createdFlat hc (fun ty hty => (htype hty).1) fun entry' hentry' r hr ty hty hstay => by
          obtain rfl := Option.some.inj (hentry.symm.trans hentry')
          obtain ⟨ty', hmem, rfl⟩ := List.mem_map.1 hr
          obtain rfl : ty' = ty := Option.some.inj hty
          exact (htype hmem).2.resolve_left hstay
        refine Runs.bind_body (P := fun opx => G'.Flat opx.results (splits.flatMap (·.2.types)))
          (op_ends (fun opx hopx => hflat opx hopx) nofun) fun opx hnew => ?_
        refine Runs.bind_change (hl.laid.gauged.handOver_ends (fun e he => ?_) hnew) fun b' ⟨hb', hout⟩ =>
          .pure (.inr ⟨m, _, rfl, hl.laid.trans (.of_outlives hb' hout)⟩)
        obtain ⟨-, p, ty, hty, hsplit⟩ := hsplits e he
        exact ⟨p, ty, _, hl.laid.ty? hty, hsplit⟩
      dsimp only
      split
      · exact .bind_mint (hmake _ _)
      · exact hmake _ _
  next => exact .throw id

end Builder.Site

end Scalarize
