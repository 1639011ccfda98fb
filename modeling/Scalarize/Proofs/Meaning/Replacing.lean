import Scalarize.Proofs.Meaning.Effects

/-!
# Values that give way

* `Body.Silent.extends` : growth changes no effect of what is there;
* `Body.Interpreted.replaced` : a value gives way to one with its bits;
* `Body.Interpreted.dropped`, `Body.Silent.dropped` : operations that nothing reads are erased;
* `Body.Interpreted.reidle` : other operations count.
-/

namespace Scalarize

open Body

/-- A ground connection depends on the place of its destination and the bits of its source. -/
theorem Ty.drives_ground (g : Ground) {d d' s s' : Sense} (hd : d'.place = d.place) (hs : s'.bits = s.bits) :
    (Ty.ground g).drives d' s' = (Ty.ground g).drives d s := by
  refine List.filterMap_congr fun l hl => ?_
  obtain rfl := List.mem_singleton.1 hl
  simp only [cond_false, hd, hs]

namespace Body

variable {I : Interpretation} {idle idle' : OpId → Prop} {b b' : Body} {S S' : ValueId → Sense} {o x : OpId}
  {op op' : Operation} {v w : ValueId} {P Q : List OpId} {t : Ty}

/-! ## Effects of one operation -/

theorem holding_congr (ht : b'.ty? v = b.ty? v) (hS : S' v = S v) (role : Role) :
    b'.holding S' role v = b.holding S role v := by
  unfold holding
  rw [tyOf_congr ht, hS]

/-- The effects of an operation that reads other values. -/
theorem effectsBy_congr (hop : b.op? x = some op) (hop' : b'.op? x = some op') (hk : op'.kind.bare = op.kind.bare)
    (hrs : op'.results = op.results) (hres : ∀ r ∈ op.results, b'.ty? r = b.ty? r ∧ S' r = S r)
    (hdrives : ∀ {strict d s}, op.kind = .connect strict → op.operands = [d, s] → ∃ d' s', op'.operands = [d', s'] ∧
      (b'.tyOf d').drives (S' d') (S' s') = (b.tyOf d).drives (S d) (S s))
    (hlen : op'.operands.length = op.operands.length) : b'.effectsBy S' x = b.effectsBy S x := by
  rw [effectsBy_eq hop, effectsBy_eq hop', hrs]
  have hheld : ∀ role, op.results.flatMap (b'.holding S' role) = op.results.flatMap (b.holding S role) := fun role =>
    List.flatMap_congr fun r hr => holding_congr (hres r hr).1 (hres r hr).2 role
  unfold effectsWith
  split
  next strict d' s' hk' hops' =>
    have hkind := (OpKind.eq_iff_of_bare_eq hk rfl).1 hk'
    obtain ⟨d, s, hds⟩ : ∃ d s, op.operands = [d, s] := by
      rw [hops'] at hlen
      rcases hl : op.operands with _ | ⟨d, _ | ⟨s, _ | ⟨y, l⟩⟩⟩ <;> rw [hl] at hlen <;> simp at hlen
      exact ⟨d, s, rfl⟩
    obtain ⟨d₁, s₁, hds', hdr⟩ := hdrives hkind hds
    obtain ⟨rfl, rfl⟩ : d₁ = d' ∧ s₁ = s' := by simpa [hds'] using hops'
    rw [hkind, hds]
    exact congrArg (List.map _) hdr
  next hne =>
    rw [OpKind.role?_eq_of_bare_eq hk]
    simp only [hheld]
    split
    next strict d s hkind hds =>
      obtain ⟨d', s', hds', -⟩ := hdrives hkind hds
      exact absurd hds' (hne _ _ _ ((OpKind.eq_iff_of_bare_eq hk rfl).2 hkind))
    next => rfl

theorem holds_eq (hop : b.op? x = some op) : b.holds S x = match op.kind, op.operands with
    | .when _ _, [cond] => decide (true ∈ (S cond).bits [])
    | _, _ => false := by
  obtain ⟨kind, operands, results, block, erased⟩ := op
  unfold holds
  rw [hop]
  dsimp only
  split
  next he =>
    simp only [Option.some.injEq, Operation.mk.injEq] at he
    obtain ⟨rfl, rfl, -⟩ := he
    rfl
  next hne =>
    split
    next => exact absurd rfl (hne _ _ _ _ _ _)
    next => rfl

/-- A guard depends on the bits of its condition. -/
theorem holds_congr (hop : b.op? x = some op) (hop' : b'.op? x = some op') (hk : op'.kind.bare = op.kind.bare)
    (ρ : ValueId → ValueId) (hops : op'.operands = op.operands.map ρ)
    (hbits : ∀ c ∈ op.operands, (S' (ρ c)).bits = (S c).bits) : b'.holds S' x = b.holds S x := by
  rw [holds_eq hop, holds_eq hop', hops]
  cases hkind : op.kind with
  | when t e =>
    rw [(OpKind.eq_iff_of_bare_eq hk rfl).2 hkind]
    rcases hl : op.operands with _ | ⟨c, _ | ⟨y, l⟩⟩
    · rfl
    · simp [hbits c (by simp [hl])]
    · rfl
  | _ =>
    have hne : ∀ t e, op'.kind ≠ .when t e := fun t e he => by
      rw [(OpKind.eq_iff_of_bare_eq hk rfl).1 he] at hkind
      cases hkind
    split
    next t e _ he _ => exact absurd he (hne t e)
    next => rfl

/-- Growth changes no effect of what is there. -/
theorem Silent.extends (hb : b.Coherent) (he : b.Extends b')
    (hS : ∀ v : ValueId, v.index < b.values.size → S' v = S v) : Silent idle b S b' S' where
  stay {x op} hx := by
    obtain ⟨op', hop', hk, hvs, hrs, -, her⟩ := he.op? hx.op?
    refine ⟨op', hop', .inl ⟨her.trans hx.erased, hk, ?_, ?_⟩⟩
    · refine effectsBy_congr hx.op? hop' hk hrs (fun r hr => ?_) (fun {strict d s} _ hds => ⟨d, s, hvs.trans hds, ?_⟩)
        (by rw [hvs])
      · obtain ⟨i, hi⟩ := List.mem_iff_getElem?.1 hr
        have hlt := isSome_value?.1 (isSome_of_origin? (hb.result hx.op? hi))
        exact ⟨he.ty? hlt, hS r hlt⟩
      · have hd := hb.operand hx.op? (v := d) (by simp [hds])
        have hs := hb.operand hx.op? (v := s) (by simp [hds])
        rw [tyOf_congr (he.ty? hd), hS d hd, hS s hs]
    · exact holds_congr hx.op? hop' hk id (by rw [hvs, List.map_id])
        fun c hc => congrArg _ (hS c (hb.operand hx.op? hc))
  gone hop her := by
    obtain ⟨op', hop', -, -, -, -, her'⟩ := he.op? hop
    exact ⟨op', hop', her'.trans her⟩

/-! ## One value for another -/

section Replaced

variable (hr : Replaced b v w b')

include hr in
theorem Replaced.active_iff : b'.Active idle x op' ↔ ∃ op, b.Active idle x op ∧
    op' = { op with operands := op.operands.map fun u => if u = v then w else u } := by
  constructor
  · intro hx
    have hop := hx.op?
    rw [hr.op?] at hop
    obtain ⟨op, hop₀, rfl⟩ := Option.map_eq_some_iff.1 hop
    exact ⟨op, ⟨hop₀, hx.erased, hx.busy⟩, rfl⟩
  · rintro ⟨op, hx, rfl⟩
    exact ⟨hr.op?_some hx.op?, hx.erased, hx.busy⟩

include hr in
theorem Owned.replaced {u : ValueId} (h : b.Owned idle u) : b'.Owned idle u := by
  rcases h with h | ⟨x, i, op, h, hx⟩
  · exact .inl ((hr.outlives.origin? u).trans h)
  · exact .inr ⟨x, i, _, (hr.outlives.origin? u).trans h, hr.active_iff.2 ⟨op, hx, rfl⟩⟩

include hr in
theorem GroundCast.of_replaced
    (hty : ∀ {x op}, b.Active idle x op → v ∈ op.operands → b.ty? w = b.ty? v) {u : ValueId}
    (h : b'.GroundCast idle u) : b.GroundCast idle u := by
  obtain ⟨x, i, op', a, g, t, horigin, hact', hk, hvs, hg, ha, ht⟩ := h
  obtain ⟨op, hact, rfl⟩ := hr.active_iff.1 hact'
  obtain ⟨a₀, hvs₀, rfl⟩ := List.map_eq_singleton_iff.1 hvs
  refine ⟨x, i, op, a₀, g, t, (hr.outlives.origin? u).symm.trans horigin, hact, hk, hvs₀,
    (hr.outlives.ty? u).symm.trans hg, ?_, ht⟩
  rw [hr.outlives.ty?] at ha
  split at ha
  next he => rwa [he, ← hty hact (by simp [hvs₀, he])]
  next => exact ha

include hr in
/-- The value is as new. -/
theorem Rooted.replaced (hty : ∀ {x op}, b.Active idle x op → v ∈ op.operands → b.ty? w = b.ty? v) {u : ValueId}
    (h : b.Rooted idle u) : b'.Rooted idle u := by
  refine ⟨fun hc => h.1 (hc.of_replaced hr hty), ?_⟩
  rcases h.2 with harg | ⟨x, i, op, horigin, hact, hacc⟩
  · exact .inl ((hr.outlives.origin? u).trans harg)
  · exact .inr ⟨x, i, _, (hr.outlives.origin? u).trans horigin, hr.active_iff.2 ⟨op, hact, rfl⟩, hacc⟩

/-- What is known of a value that gives way to another: no literal makes it. If it may be read, no pending operation
makes it, and the other has its type and its bits, and where it is reached without a computed position its place. -/
structure Cedes (idle : OpId → Prop) (b : Body) (P : List OpId) (S : ValueId → Sense) (v w : ValueId) : Prop where
  ne : v ≠ w
  known : (b.value? v).isSome ∧ (b.value? w).isSome
  literal : ∀ n, ¬b.Literal v n
  owned : b.Owned idle v → b.Owned idle w ∧ ¬b.MadeBy P v ∧ b.ty? w = b.ty? v ∧ (S w).bits = (S v).bits
  straight : b.Straight idle S v → b.Straight idle S w ∧ (S w).place = (S v).place

include hr in
theorem Straight.replaced (hy : b.Cedes idle P S v w)
    (hread : ∀ {x op}, b.Active idle x op → v ∈ op.operands → b.ty? w = b.ty? v ∧ (S w).bits = (S v).bits)
    {u : ValueId} (h : b.Straight idle S u) : b'.Straight idle S (if u = v then w else u) := by
  obtain ⟨F, hu, hF⟩ := h
  obtain ⟨G, hG, hGw⟩ : ∃ G, b.Direct idle S G ∧ (F v → G w ∧ (S w).place = (S v).place) := by
    by_cases hFv : F v
    · obtain ⟨⟨G, hGw, hG⟩, hplace⟩ := hy.straight ⟨F, hFv, hF⟩
      exact ⟨G, hG, fun _ => ⟨hGw, hplace⟩⟩
    · exact ⟨fun _ => False, ⟨False.elim, False.elim, False.elim⟩, fun h => absurd h hFv⟩
  -- the values on either way, but for the one that gives way
  have hplace : ∀ y, F y ∨ F v ∧ G y → (S (if y = v then w else y)).place = (S y).place := fun y hy => by
    split
    next he =>
      subst he
      rcases hy with hy | hy
      · exact (hGw hy).2
      · exact (hGw hy.1).2
    next => rfl
  refine ⟨fun y => (F y ∨ F v ∧ G y) ∧ y ≠ v, ?_, ?_⟩
  · split
    next he => exact ⟨.inr ⟨he ▸ hu, (hGw (he ▸ hu)).1⟩, Ne.symm hy.ne⟩
    next hne => exact ⟨.inl hu, hne⟩
  have hmem : ∀ y, F y ∨ F v ∧ G y → (F (if y = v then w else y) ∨ F v ∧ G (if y = v then w else y)) ∧
      (if y = v then w else y) ≠ v := fun y hy' => by
    split
    next he =>
      subst he
      have hFy : F y := hy'.elim id (·.1)
      exact ⟨.inr ⟨hFy, (hGw hFy).1⟩, Ne.symm hy.ne⟩
    next hne => exact ⟨hy', hne⟩
  refine ⟨fun {y x i op'} hy' horigin hx hacc => ?_, fun {y} hy' hcast => ?_, fun {y x i} hy' horigin => ?_⟩
  · obtain ⟨op, hact, rfl⟩ := hr.active_iff.1 hx
    rw [hr.outlives.origin?] at horigin
    obtain ⟨z, j, hz, hFz, hj, hpart, hlit⟩ : ∃ z j, op.operands[0]? = some z ∧ (F z ∨ F v ∧ G z) ∧
        op.kind.reach? (op.operands.map (b.reading S)) = some j ∧ (S y).place = ((S z).part j).place ∧
        (op.kind = .subaccess → ∃ a n, op.operands[1]? = some a ∧ b.Literal a n) := by
      rcases hy'.1 with hFy | ⟨hFv, hGy⟩
      · obtain ⟨z, j, hz, hFz, hrest⟩ := hF.access hFy horigin hact hacc
        exact ⟨z, j, hz, .inl hFz, hrest⟩
      · obtain ⟨z, j, hz, hGz, hrest⟩ := hG.access hGy horigin hact hacc
        exact ⟨z, j, hz, .inr ⟨hFv, hGz⟩, hrest⟩
    refine ⟨if z = v then w else z, j, by simp [hz], hmem z hFz, ?_, ?_, fun hsub => ?_⟩
    · rw [← hj, List.map_map]
      congr 1
      refine List.map_congr_left fun a ha => reading_congr ?_ ?_
      · dsimp only
        rw [hr.outlives.ty?]
        split
        next he => exact he ▸ (hread hact (he ▸ ha)).1
        next => rfl
      · dsimp only
        split
        next he => exact he ▸ (hread hact (he ▸ ha)).2
        next => rfl
    · rw [hpart]
      simp only [Sense.part, hplace z hFz]
    · obtain ⟨a, n, ha, d, i, opd, hda, hopd, hkd⟩ := hlit hsub
      have hne : a ≠ v := fun he => hy.literal n ⟨d, i, opd, he ▸ hda, hopd, hkd⟩
      exact ⟨a, n, by simp [ha, hne], d, i, _, (hr.outlives.origin? a).trans hda, hr.op?_some hopd, hkd⟩
  · have hcast' := hcast.of_replaced hr fun hx hmem => (hread hx hmem).1
    exact hy'.1.elim (fun h => hF.root h hcast') fun h => hG.root h.2 hcast'
  · rw [hr.outlives.origin?] at horigin
    obtain ⟨op, hx⟩ := hy'.1.elim (fun h => hF.active h horigin) fun h => hG.active h.2 horigin
    exact ⟨_, hr.active_iff.2 ⟨op, hx, rfl⟩⟩

include hr in
/-- A value gives way to one with its bits. -/
theorem Interpreted.replaced (h : b.Interpreted I idle P S) (hy : b.Cedes idle P S v w) :
    b'.Interpreted I idle P S ∧ Silent idle b S b' S := by
  have hb' := h.coherent.replaced hr hy.known.1 hy.known.2 hy.ne
  have howned : ∀ {x op}, b.Active idle x op → v ∈ op.operands →
      b.Owned idle w ∧ ¬b.MadeBy P v ∧ b.ty? w = b.ty? v ∧ (S w).bits = (S v).bits := fun hx hu => hy.owned (h.scope hx hu)
  have hsame : ∀ {x op}, b.Active idle x op → ∀ u ∈ op.operands, b'.ty? (if u = v then w else u) = b.ty? u ∧
      (S (if u = v then w else u)).bits = (S u).bits := fun {x op} hx u hu => by
    rw [hr.outlives.ty?]
    split
    next he =>
      subst he
      exact (howned hx hu).2.2
    next => exact ⟨rfl, rfl⟩
  have hmap : ∀ {l : List ValueId}, v ∉ l → l.map (fun u => if u = v then w else u) = l := fun {l} hl => by
    refine Eq.trans (List.map_congr_left fun u hu => if_neg ?_) (List.map_id l)
    rintro rfl
    exact hl hu
  have hunread : ∀ {x op}, x ∈ P → b.Active idle x op → v ∉ op.operands := fun hx hact hmem =>
    (howned hact hmem).2.1 ((h.expects hx hact).reads v hmem)
  refine ⟨{ coherent := hb', present := fun {x} hx => ?_, proper := fun {u t} hu => ?_, walked := fun {x op'} hx => ?_
            heeds := fun {x op'} hx => ?_, scope := fun {x op' u} hx hu => ?_, pending := fun {Q x L op'} hP hx => ?_
            landed := fun {x op'} hx hP => ?_ }, ⟨fun {x op} hx => ?_, fun {x op} hop he => ?_⟩⟩
  · rw [hr.op?, Option.isSome_map]
    exact h.present hx
  · rw [hr.outlives.ty?] at hu
    exact h.proper hu
  · obtain ⟨op, hact, -⟩ := hr.active_iff.1 hx
    exact hr.outlives.alike.symm.walked (fun x hs => by rwa [hr.stands]) (h.walked hact)
  · obtain ⟨op, hact, rfl⟩ := hr.active_iff.1 hx
    exact (h.heeds hact).transfer _ rfl rfl rfl (hsame hact) fun r _ => ⟨hr.outlives.ty? r, rfl⟩
  · obtain ⟨op, hact, rfl⟩ := hr.active_iff.1 hx
    obtain ⟨u₀, hu₀, rfl⟩ := List.mem_map.1 hu
    split
    next he => exact (howned hact (he ▸ hu₀)).1.replaced hr
    next => exact (h.scope hact hu₀).replaced hr
  · obtain ⟨op, hact, rfl⟩ := hr.active_iff.1 hx
    have hexp := h.pending hP hact
    have hops := hmap (hunread (hP ▸ List.mem_append_right _ List.mem_cons_self) hact)
    refine ⟨fun u hu => ?_, fun {r s} hr' hs => ?_, fun {strict u} hk hu hcast => ?_⟩
    · dsimp only at hu
      rw [hops] at hu
      rcases hexp.reads u hu with hu | ⟨d, hd, i, hu⟩
      · exact .inl ((hr.outlives.origin? u).trans hu)
      · exact .inr ⟨d, hd, i, (hr.outlives.origin? u).trans hu⟩
    · dsimp only at hs hr'
      rw [hops, tyOf_congr (hr.outlives.ty? r), sense_congr rfl fun u _ => ⟨hr.outlives.ty? u, rfl⟩] at hs
      exact hexp.sense hr' hs
    · dsimp only at hu hk
      rw [hops] at hu
      exact hexp.dest hk hu (hcast.of_replaced hr fun hx hmem => (howned hx hmem).2.2.1)
  · obtain ⟨op, hact, rfl⟩ := hr.active_iff.1 hx
    intro strict hk
    obtain ⟨d, s, g, hds, hd, hstraight⟩ := h.landed hact hP strict hk
    refine ⟨if d = v then w else d, if s = v then w else s, g, by simp [hds], ?_, ?_⟩
    · rw [(hsame hact d (by simp [hds])).1, hd]
    · exact hstraight.replaced hr hy fun hx hmem => (howned hx hmem).2.2
  · refine ⟨_, hr.op?_some hx.op?, .inl ⟨hx.erased, rfl, ?_, ?_⟩⟩
    · refine effectsBy_congr hx.op? (hr.op?_some hx.op?) rfl rfl (fun r _ => ⟨hr.outlives.ty? r, rfl⟩)
        (fun {strict d s} hk hds => ⟨if d = v then w else d, if s = v then w else s, by simp [hds], ?_⟩) (by simp)
      by_cases hmem : v ∈ op.operands
      · -- a connection that reads the value was reached, so that it is ground
        obtain ⟨d₁, s₁, g, hds₁, hd, hstraight⟩ := h.landed hx (fun hP => hunread hP hx hmem) strict hk
        obtain ⟨rfl, rfl⟩ : d = d₁ ∧ s = s₁ := by simpa [hds] using hds₁
        rw [tyOf_congr (hsame hx d (by simp [hds])).1, tyOf_eq hd]
        refine Ty.drives_ground g ?_ (hsame hx s (by simp [hds])).2
        split
        next he => rw [he]; exact (hy.straight (he ▸ hstraight)).2
        next => rfl
      · have hne : d ≠ v ∧ s ≠ v := ⟨fun he => hmem (by simp [hds, he]), fun he => hmem (by simp [hds, he])⟩
        rw [if_neg hne.1, if_neg hne.2, tyOf_congr (hr.outlives.ty? d)]
    · exact holds_congr hx.op? (hr.op?_some hx.op?) rfl _ rfl fun c hc => (hsame hx c hc).2
  · exact ⟨_, hr.op?_some hop, he⟩

end Replaced

/-! ## Operations that nothing reads -/

section Dropped

variable {f : Bool → Bool}

/-- The operation does not count, or it is erased and nothing reads it. -/
def Spare (idle : OpId → Prop) (b : Body) (f : Bool → Bool) (o : OpId) : Prop :=
  idle o ∨ f false = true ∧ ¬b.ResultRead o

variable (hf : f true = true) (hd : Dropped b o f b') (ho : b.Spare idle f o)

include hf hd ho in
/-- All other operations are as they were. -/
theorem Dropped.active_iff : b'.Active idle x op ↔ b.Active idle x op ∧ x ≠ o := by
  constructor
  · intro h
    have hop := h.op?
    rw [hd.op?] at hop
    obtain ⟨op₀, hop₀, he⟩ := Option.map_eq_some_iff.1 hop
    split at he
    next hxo =>
      subst hxo he
      have hids : f false = true := (ho.resolve_left h.busy).1
      have herased := h.erased
      dsimp only at herased
      cases he₀ : op₀.erased <;> simp [he₀, hf, hids] at herased
    next hne => exact ⟨⟨hop₀.trans (congrArg some he), h.erased, h.busy⟩, hne⟩
  · rintro ⟨h, hne⟩
    refine ⟨?_, h.erased, h.busy⟩
    rw [hd.op?, h.op?, Option.map_some, if_neg hne]

include ho in
/-- What an active operation reads is made by another. -/
theorem Spare.ne_of_mem (hb : b.Coherent) (hx : b.Active idle x op) (hv : v ∈ op.operands) {y : OpId} {i : Nat}
    {opy : Operation} (horigin : b.origin? v = some (.result y i)) (hy : b.Active idle y opy) : y ≠ o := by
  rintro rfl
  obtain ⟨op₁, hop₁, hres⟩ := hb.origin horigin
  exact (ho.resolve_left hy.busy).2 ⟨op₁, v, x, hop₁, List.mem_of_getElem? hres, op, hx.op?, hv⟩

include hf hd ho

theorem GroundCast.of_dropped (h : b'.GroundCast idle v) : b.GroundCast idle v := by
  have hout := hd.outlives hf
  obtain ⟨x, i, op, a, g, t, horigin, hact, hk, hvs, hg, ha, ht⟩ := h
  exact ⟨x, i, op, a, g, t, (hout.origin? v).symm.trans horigin, ((hd.active_iff hf ho).1 hact).1, hk, hvs,
    (hout.ty? v).symm.trans hg, (hout.ty? a).symm.trans ha, ht⟩

/-- The value is as new, if another operation makes it. -/
theorem Rooted.dropped (h : b.Rooted idle v) (hv : ∀ i, b.origin? v ≠ some (.result o i)) : b'.Rooted idle v := by
  refine ⟨fun hc => h.1 (hc.of_dropped hf hd ho), ?_⟩
  rcases h.2 with harg | ⟨x, i, op, horigin, hact, hacc⟩
  · exact .inl (((hd.outlives hf).origin? v).trans harg)
  · have hne : x ≠ o := by
      rintro rfl
      exact hv i horigin
    exact .inr ⟨x, i, op, ((hd.outlives hf).origin? v).trans horigin, (hd.active_iff hf ho).2 ⟨hact, hne⟩, hacc⟩

/-- Nothing on the way to a value that an active operation reads is lost. -/
theorem Straight.dropped (hb : b.Coherent) (hx : b.Active idle x op) (hv : v ∈ op.operands)
    (h : b.Straight idle S v) : b'.Straight idle S v := by
  have hout := hd.outlives hf
  obtain ⟨F, hF, hdirect⟩ := h
  have hne : ∀ {u x op}, b.Active idle x op → u ∈ op.operands → F u → ∀ y i, b.origin? u = some (.result y i) → y ≠ o :=
    fun hx hu hFu y i horigin =>
      let ⟨_, hy⟩ := hdirect.active hFu horigin
      ho.ne_of_mem hb hx hu horigin hy
  refine ⟨fun u => F u ∧ ∀ y i, b.origin? u = some (.result y i) → y ≠ o, ⟨hF, hne hx hv hF⟩,
    fun {u x i op} hu horigin hact hacc => ?_, fun {u} hu hcast => ?_, fun {u x i} hu horigin => ?_⟩
  · rw [hout.origin?] at horigin
    have hact := ((hd.active_iff hf ho).1 hact).1
    obtain ⟨w, j, hw, hFw, hj, hplace, hlit⟩ := hdirect.access hu.1 horigin hact hacc
    have hread : op.operands.map (b'.reading S) = op.operands.map (b.reading S) :=
      List.map_congr_left fun y _ => reading_congr (hout.ty? y) rfl
    refine ⟨w, j, hw, ⟨hFw, hne hact (List.mem_of_getElem? hw) hFw⟩, by rw [hread, hj], hplace, fun hsub => ?_⟩
    obtain ⟨y, n, hy, d, i, opd, hdy, hopd, hk⟩ := hlit hsub
    obtain ⟨opd', hopd', hk', -⟩ := hout.op?_some hopd
    exact ⟨y, n, hy, d, i, opd', (hout.origin? y).trans hdy, hopd', hk'.trans hk⟩
  · exact hdirect.root hu.1 (hcast.of_dropped hf hd ho)
  · rw [hout.origin?] at horigin
    obtain ⟨op, hact⟩ := hdirect.active hu.1 horigin
    exact ⟨op, (hd.active_iff hf ho).2 ⟨hact, hu.2 x i horigin⟩⟩

/-- An operation that guards nothing loses its operands. -/
theorem Interpreted.dropped (h : b.Interpreted I idle P S) (hk : ∀ op, b.op? o = some op → op.kind.blocks = []) :
    b'.Interpreted I idle P S := by
  have hout := hd.outlives hf
  have hactive : ∀ {x op}, b'.Active idle x op → b.Active idle x op := fun hx => ((hd.active_iff hf ho).1 hx).1
  have hsame : ∀ v, b'.ty? v = b.ty? v ∧ S v = S v := fun v => ⟨hout.ty? v, rfl⟩
  refine
    { coherent := h.coherent.dropped hf hd, present := fun {x} hx => ?_, proper := fun {u t} hu => ?_
      walked := fun {x op} hx => ?_, heeds := fun {x op} hx => ?_, scope := fun {x op v} hx hv => ?_
      pending := fun {Q x L op} hP hx => ?_, landed := fun {x op} hx hP => ?_ }
  · obtain ⟨op, hop⟩ := Option.isSome_iff_exists.1 (h.present hx)
    obtain ⟨op', hop', -⟩ := hout.op?_some hop
    rw [hop']
    rfl
  · rw [hout.ty?] at hu
    exact h.proper hu
  · refine (h.walked (hactive hx)).keeps hx.stands (fun hx => ?_) fun {g k} hg hkg => ?_
    · rwa [hout.slotsOf]
    · obtain ⟨opg, hopg⟩ : ∃ opg, b.op? g = some opg := by
        rw [stands_eq] at hg
        cases hopg : b.op? g with
        | none => simp [hopg] at hg
        | some opg => exact ⟨opg, rfl⟩
      rw [guardedBlocks_eq hopg] at hkg
      have hne : g ≠ o := by
        rintro rfl
        rw [hk opg hopg] at hkg
        cases hkg
      obtain ⟨opg', hopg', hk', -⟩ := hout.op?_some hopg
      rw [guardedBlocks_eq hopg', hk']
      exact ⟨hd.stands_ne (fun _ => hne) hg, hkg⟩
  · exact (h.heeds (hactive hx)).transfer id rfl rfl (by rw [List.map_id]) (fun v _ => ⟨hout.ty? v, rfl⟩)
      fun r _ => ⟨hout.ty? r, rfl⟩
  · have hact := hactive hx
    rcases h.scope hact hv with horigin | ⟨y, i, opy, horigin, hy⟩
    · exact .inl ((hout.origin? v).trans horigin)
    · exact .inr ⟨y, i, opy, (hout.origin? v).trans horigin,
        (hd.active_iff hf ho).2 ⟨hy, ho.ne_of_mem h.coherent hact hv horigin hy⟩⟩
  · have hexp := h.pending hP (hactive hx)
    refine ⟨fun v hv => ?_, fun {r s} hr hs => ?_, fun {strict v} hkind hv hcast => ?_⟩
    · rcases hexp.reads v hv with horigin | ⟨d, hd, i, horigin⟩
      · exact .inl ((hout.origin? v).trans horigin)
      · exact .inr ⟨d, hd, i, (hout.origin? v).trans horigin⟩
    · rw [tyOf_congr (hout.ty? r), sense_congr rfl fun v _ => hsame v] at hs
      exact hexp.sense hr hs
    · exact hexp.dest hkind hv (hcast.of_dropped hf hd ho)
  · intro strict hkind
    obtain ⟨d, s, g, hds, hty, hstraight⟩ := h.landed (hactive hx) hP strict hkind
    exact ⟨d, s, g, hds, (hout.ty? d).trans hty,
      hstraight.dropped hf hd ho h.coherent (hactive hx) (by simp [hds])⟩

/-- It had no effects, unless it does not count. -/
theorem Silent.dropped (hnone : ¬idle o → ∀ op, b.op? o = some op → op.kind.blocks = [] ∧ b.effectsBy S o = []) :
    Silent idle b S b' S where
  stay {x op} hx := by
    have hout := hd.outlives hf
    obtain ⟨op', hop', hk, hrs, -⟩ := hout.op?_some hx.op?
    refine ⟨op', hop', ?_⟩
    by_cases hxo : x = o
    · subst hxo
      refine .inr ⟨?_, hnone hx.busy op hx.op?⟩
      rw [hd.op?, hx.op?, Option.map_some, if_pos rfl, hx.erased, (ho.resolve_left hx.busy).1] at hop'
      rw [← Option.some.inj hop']
    · obtain rfl := Option.some.inj (hop'.symm.trans ((hd.active_iff hf ho).2 ⟨hx, hxo⟩).op?)
      refine .inl ⟨hx.erased, rfl, ?_, ?_⟩
      · exact effectsBy_congr hx.op? hop' rfl rfl (fun r _ => ⟨hout.ty? r, rfl⟩)
          (fun {strict d s} _ hds => ⟨d, s, hds, by rw [tyOf_congr (hout.ty? d)]⟩) rfl
      · exact holds_congr hx.op? hop' rfl id (by rw [List.map_id]) fun _ _ => rfl
  gone {x op} hop he := by
    refine ⟨_, by rw [hd.op?, hop, Option.map_some], ?_⟩
    split
    next => dsimp only; rw [he, hf]
    next => exact he

end Dropped

theorem GroundCast.mono (h : b.GroundCast idle' v) (hnew : ∀ {x op}, b.Active idle' x op → b.Active idle x op) :
    b.GroundCast idle v :=
  let ⟨x, i, op, u, g, t, horigin, hact, hrest⟩ := h
  ⟨x, i, op, u, g, t, horigin, hnew hact, hrest⟩

/-- Other operations count. Those that count no more made nothing. -/
theorem Interpreted.reidle (h : b.Interpreted I idle P S) (hnew : ∀ {x op}, b.Active idle' x op → b.Active idle x op)
    (hold : ∀ {x op}, b.Active idle x op → op.results ≠ [] → b.Active idle' x op)
    (hsome : ∀ x, idle' x → (b.op? x).isSome) : b.Interpreted I idle' P S where
  coherent := h.coherent
  present hx := hx.elim (fun hx => h.present (.inl hx)) (hsome _)
  proper := h.proper
  walked hx := h.walked (hnew hx)
  heeds hx := h.heeds (hnew hx)
  scope {x op v} hx hv := by
    rcases h.scope (hnew hx) hv with horigin | ⟨y, i, opy, horigin, hy⟩
    · exact .inl horigin
    · obtain ⟨op₁, hop₁, hres⟩ := h.coherent.origin horigin
      obtain rfl := Option.some.inj (hy.op?.symm.trans hop₁)
      exact .inr ⟨y, i, _, horigin, hold hy (List.ne_nil_of_mem (List.mem_of_getElem? hres))⟩
  pending hP hx :=
    let hexp := h.pending hP (hnew hx)
    ⟨hexp.reads, hexp.sense, fun hk hv hcast => hexp.dest hk hv (hcast.mono hnew)⟩
  landed hx hP strict hk := by
    obtain ⟨d, s, g, hds, hty, F, hF, hdirect⟩ := h.landed (hnew hx) hP strict hk
    refine ⟨d, s, g, hds, hty, F, hF, fun hu horigin hact hacc => hdirect.access hu horigin (hnew hact) hacc,
      fun hu hcast => hdirect.root hu (hcast.mono hnew),
      fun {u x i} hu horigin => ?_⟩
    obtain ⟨op, hact⟩ := hdirect.active hu horigin
    obtain ⟨op₁, hop₁, hres⟩ := h.coherent.origin horigin
    obtain rfl := Option.some.inj (hact.op?.symm.trans hop₁)
    exact ⟨_, hold hact (List.ne_nil_of_mem (List.mem_of_getElem? hres))⟩

end Body

end Scalarize
