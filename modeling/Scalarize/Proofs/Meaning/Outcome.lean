import Scalarize.Proofs.Meaning.Start

/-!
# Bodies with the same effects mean the same

* `Body.Outcome` : a lowered body, with senses in which it has the effects that a body had;
* `Outcome.bits_eq`, `Outcome.place` : its own meaning gives the same bits, and places that belong to the same variables;
* `Outcome.forall₂_drives`, `Outcome.drivers_eq` : every leaf is driven by the same bits.
-/

namespace Scalarize

open Body

/-- Outlines whose operations drive the like drive the like. -/
theorem List.map_eq_of_forall₂ {α β γ : Type} {R : α → β → Prop} {f : α → γ} {g : β → γ} {l : List α} {l' : List β}
    (h : List.Forall₂ R l l') (hR : ∀ a b, R a b → f a = g b) : l.map f = l'.map g := by
  induction h with
  | nil => rfl
  | cons hab _ ih => rw [List.map_cons, List.map_cons, hR _ _ hab, ih]

namespace Outline

variable {R : Place × List Bool → Place × List Bool → Prop} {own own' : OpId → List (Place × List Bool)}
  {runs runs' : OpId → Bool}

mutual

theorem forall₂_drives : ∀ t : Outline, (∀ o ∈ t.ops, List.Forall₂ R (own o) (own' o) ∧ runs o = runs' o) →
    List.Forall₂ R (t.drives own runs) (t.drives own' runs')
  | node o t e, h => by
    rw [ops] at h
    have ho := h o List.mem_cons_self
    have ht := forall₂_drivesOf t fun x hx => h x (List.mem_cons_of_mem _ (List.mem_append_left _ hx))
    have he := forall₂_drivesOf e fun x hx => h x (List.mem_cons_of_mem _ (List.mem_append_right _ hx))
    rw [drives, drives, ← ho.2]
    refine List.rel_append ho.1 ?_
    cases runs o
    · exact he
    · exact ht

theorem forall₂_drivesOf : ∀ ts : List Outline, (∀ o ∈ opsOf ts, List.Forall₂ R (own o) (own' o) ∧ runs o = runs' o) →
    List.Forall₂ R (drivesOf own runs ts) (drivesOf own' runs' ts)
  | [], _ => .nil
  | t :: ts, h => by
    rw [drivesOf, drivesOf]
    exact List.rel_append (forall₂_drives t fun x hx => h x (List.mem_append_left _ hx))
      (forall₂_drivesOf ts fun x hx => h x (List.mem_append_right _ hx))

end

end Outline

namespace Body

variable {I : Interpretation} {idle : OpId → Prop} {b b' : Body} {S S' : ValueId → Sense} {x : OpId} {op : Operation}
  {v : ValueId} {xs : Valuation} {i : Nat} {z z₀ : Variable}

/-! ## Variables -/

/-- A variable belongs to an argument, or to the result of an operation that holds variables. -/
theorem Coherent.holder (hb : b.Coherent) (hz : z ∈ b.vars) : (b.origin? z.value = some .argument ∧ z.role = .port) ∨
    ∃ x i op, b.origin? z.value = some (.result x i) ∧ b.op? x = some op ∧ op.kind.role? = some z.role := by
  rcases List.mem_append.1 hz with hz | hz
  · obtain ⟨v, hv, hz⟩ := List.mem_flatMap.1 hz
    obtain ⟨rfl, hrole, -⟩ := mem_leavesOf hz
    exact .inl ⟨hb.args _ hv, hrole⟩
  · obtain ⟨x, -, hz⟩ := List.mem_flatMap.1 hz
    obtain ⟨op, role, v, hop, hrole, hv, hz⟩ := mem_held hz
    obtain ⟨rfl, hr, -⟩ := mem_leavesOf hz
    obtain ⟨i, hi⟩ := List.mem_iff_getElem?.1 hv
    exact .inr ⟨x, i, op, hb.result hop hi, hop, by rw [hrole, hr]⟩

/-- Variables have the meaning that they were given. -/
theorem Coherent.meaning_eq_given (hb : b.Coherent) (hz : z ∈ b.vars) : b.meaning I xs z.value = b.given xs z.value := by
  refine hb.senses_init ?_
  rcases hb.holder hz with ⟨harg, -⟩ | ⟨x, i, op, horigin, hop, hrole⟩
  · exact .inl harg
  · exact .inr ⟨x, i, op, horigin, hop, by rw [hrole]; rfl⟩

theorem Coherent.meaning_var (hb : b.Coherent) (hz : b.vars[i]? = some z) :
    (b.meaning I xs z.value).bits z.path = z.ground.fit (xs i) := by
  rw [hb.meaning_eq_given (List.mem_of_getElem? hz), hb.given_var xs hz]

/-- Variables are driven where they are, unless nothing is known of them. -/
theorem Coherent.place_var (hb : b.Coherent) (hz : z ∈ b.vars) (hrole : z.role ≠ .invalid) :
    (b.meaning I xs z.value).place = some (z.value, []) := by
  rw [hb.meaning_eq_given hz]
  have hd : b.drivable z.value = true := by
    unfold drivable
    rcases hb.holder hz with ⟨harg, -⟩ | ⟨x, i, op, horigin, hop, hr⟩
    · rw [harg]
    · rw [horigin]
      dsimp only
      rw [kind?_eq, hop, Option.map_some, Option.bind_some, hr]
      simp [hrole]
  unfold given
  rw [hd]
  rfl

/-- Operations that hold no variables compute their results. -/
theorem exists_sense {kind : OpKind} {vs : List ValueId} {ins outs : List Ty} (hins : b.Types vs ins)
    (hfits : kind.Fits ins outs) (hshaped : kind.Shaped True ins outs) (hmeant : kind.Meant)
    (hreach : b.ReachesWithin S kind vs) (hrole : kind.role? = none) (hne : outs ≠ []) (out : Ty) :
    ∃ s, b.sense I S kind vs out = some s := by
  cases kind with
  | connect _ =>
    obtain ⟨-, -, -, rfl⟩ := hshaped
    exact absurd rfl hne
  | «when» _ _ =>
    obtain ⟨-, -, rfl⟩ := hshaped
    exact absurd rfl hne
  | mem _ | unrealizedCast => exact hmeant.elim
  | wire _ | reg _ | regReset _ | inst _ | invalid => cases hrole
  | subfield _ | subindex _ =>
    obtain ⟨t, c, rfl, _⟩ := hfits
    obtain ⟨v, _, rfl⟩ := hins.singleton
    exact ⟨_, rfl⟩
  | subaccess =>
    obtain ⟨v, y, -, -, j, rfl, -, hy, -⟩ := hreach rfl
    have hreach' : OpKind.subaccess.reach? ([v, y].map (b.reading S)) = some j := hy
    refine ⟨(S v).part j, ?_⟩
    unfold sense
    rw [hreach']
    rfl
  | node _ =>
    obtain ⟨t, rfl, _⟩ := hfits
    obtain ⟨v, _, rfl⟩ := hins.singleton
    exact ⟨_, rfl⟩
  | mux =>
    obtain ⟨c, t, rfl, _⟩ := hfits
    cases hins with
    | cons _ hins =>
      cases hins with
      | cons _ hins =>
        obtain ⟨v, _, rfl⟩ := Types.singleton hins
        exact ⟨_, rfl⟩
  | multiMux =>
    obtain ⟨c, rest, t, rfl, _⟩ := hfits
    cases hins with
    | cons _ hins => exact ⟨_, rfl⟩
  | bitcast =>
    obtain ⟨a, t, w, rfl, _⟩ := hfits
    obtain ⟨v, _, rfl⟩ := hins.singleton
    exact ⟨_, rfl⟩
  | constant _ | prim _ => exact ⟨_, rfl⟩

/-! ## Lowered bodies -/

/-- A body in which nothing is pending, with senses in which it has the effects that the body `b₀` has. -/
structure Outcome (I : Interpretation) (idle : OpId → Prop) (xs : Valuation) (b₀ b : Body) (S : ValueId → Sense) :
    Prop where
  former : b₀.Coherent
  interpreted : b.Interpreted I idle [] S
  busy : ∀ {x}, b.Walked x → ¬idle x
  scope : b.InScope
  effects : b.effects S = b₀.effects (b₀.meaning I xs)

namespace Outcome

variable {b₀ : Body} (h : Outcome I idle xs b₀ b S)

include h

theorem coherent : b.Coherent := h.interpreted.coherent

theorem active (hx : b.Walked x) (hop : b.op? x = some op) : b.Active idle x op :=
  ⟨hop, erased_of_stands hop hx.stands, h.busy hx⟩

theorem vars_seen : b.vars.map (Variable.seen S) = b₀.vars.map (Variable.seen (b₀.meaning I xs)) := by
  rw [← effects_holds, ← effects_holds, h.effects]

theorem drives_eq : b.drives S = b₀.drives (b₀.meaning I xs) := by
  rw [← effects_drives, ← effects_drives, h.effects]

/-- A variable and the one that it was. -/
theorem former_var (hz : b.vars[i]? = some z) : ∃ z₀, b₀.vars[i]? = some z₀ ∧
    Variable.seen S z = Variable.seen (b₀.meaning I xs) z₀ := by
  have := congrArg (·[i]?) h.vars_seen
  simp only [List.getElem?_map, hz, Option.map_some] at this
  obtain ⟨z₀, hz₀, he⟩ := Option.map_eq_some_iff.1 this.symm
  exact ⟨z₀, hz₀, he.symm⟩

/-- Values that hold variables have the bits that they mean. -/
theorem bits_holder (hv : v ∈ b.args ∨ ∃ x op, b.Walked x ∧ b.op? x = some op ∧ v ∈ op.results ∧ op.kind.role?.isSome) :
    (S v).bits = (b.meaning I xs v).bits := by
  have hb := h.coherent
  have hinit : b.meaning I xs v = b.given xs v := by
    refine hb.senses_init ?_
    rcases hv with hv | ⟨x, op, -, hop, hv, hrole⟩
    · exact .inl (hb.args v hv)
    · obtain ⟨i, hi⟩ := List.mem_iff_getElem?.1 hv
      exact .inr ⟨x, i, op, hb.result hop hi, hop, hrole⟩
  obtain ⟨t, ht⟩ : ∃ t, b.ty? v = some t := by
    refine Option.isSome_iff_exists.1 (isSome_ty?.2 ?_)
    rcases hv with hv | ⟨x, op, -, hop, hv, -⟩
    · exact hb.lt_of_arg hv
    · obtain ⟨i, hi⟩ := List.mem_iff_getElem?.1 hv
      exact isSome_value?.1 (isSome_of_origin? (hb.result hop hi))
  have hexact := given_exact b xs v
  rw [← hinit] at hexact
  rw [tyOf_eq ht] at hexact
  -- at a leaf that is a variable
  have hvar : ∀ {role path g}, (⟨v, path, role, g⟩ : Variable) ∈ b.vars →
      (S v).bits path = (b.meaning I xs v).bits path := fun {role path g} hz => by
    obtain ⟨i, hi⟩ := List.mem_iff_getElem?.1 hz
    obtain ⟨z₀, hz₀, hseen⟩ := h.former_var hi
    have hbits : (S v).bits path = (b₀.meaning I xs z₀.value).bits z₀.path := congrArg (·.2.2.2) hseen
    have hground : g = z₀.ground := congrArg (·.2.1) hseen
    rw [hbits, h.former.meaning_var hz₀, ← hground, hb.meaning_var hi]
  funext path
  by_cases hleaf : ∃ g, t.sub? path = some (.ground g)
  · obtain ⟨g, hg⟩ := hleaf
    obtain ⟨l, hl, rfl, rfl⟩ : ∃ l ∈ t.leaves, l.path = path ∧ l.ground = g :=
      ⟨⟨path, t.turned path, g⟩, Ty.mem_leaves.2 ⟨hg, rfl⟩, rfl, rfl⟩
    have hmem : ∀ role, (⟨v, l.path, role, l.ground⟩ : Variable).void = false →
        (⟨v, l.path, role, l.ground⟩ : Variable) ∈ b.leavesOf role v := fun role hvoid =>
      List.mem_filter.2 ⟨List.mem_map.2 ⟨l, by rwa [tyOf_eq ht], rfl⟩, by simp [hvoid]⟩
    rcases hv with hv | ⟨x, op, hx, hop, hv, hrole⟩
    · exact hvar (List.mem_append_left _ (List.mem_flatMap.2 ⟨v, hv, hmem .port (by simp [Variable.void])⟩))
    · obtain ⟨role, hrole⟩ := Option.isSome_iff_exists.1 hrole
      cases hvoid : (⟨v, l.path, role, l.ground⟩ : Variable).void with
      | false =>
        have hz : (⟨v, l.path, role, l.ground⟩ : Variable) ∈ b.held x := by
          unfold held
          rw [hop]
          dsimp only
          rw [hrole]
          exact List.mem_flatMap.2 ⟨v, hv, hmem role hvoid⟩
        exact hvar (List.mem_append_right _ (List.mem_flatMap.2 ⟨x, hb.mem_walk_iff.2 hx, hz⟩))
      | true =>
        obtain ⟨rfl, hwidth⟩ : role = .invalid ∧ l.ground.width = some 0 := by simpa [Variable.void] using hvoid
        have hinv : op.kind = .invalid := by
          cases hk : op.kind <;> rw [hk] at hrole <;> first | rfl | cases hrole
        have h₁ := ((h.interpreted.heeds (h.active hx hop)).exact hinv hv ht).length hg hwidth
        have h₂ := hexact.length hg hwidth
        rw [List.length_eq_zero_iff.1 h₁, List.length_eq_zero_iff.1 h₂]
  · have hoff : ∀ g, t.sub? path ≠ some (.ground g) := fun g hg => hleaf ⟨g, hg⟩
    rw [(h.interpreted.proper ht).off path hoff, hexact.off path hoff]

/-- What holds of what operations in front make, and of arguments, holds of the operands of an operation. -/
theorem operand_induction {K : ValueId → Prop} (harg : ∀ v ∈ b.args, K v)
    (hstep : ∀ {x op}, b.Walked x → b.op? x = some op → (∀ v ∈ op.operands, K v) → ∀ v ∈ op.results, K v)
    (hx : b.Walked x) (hop : b.op? x = some op) : (∀ v ∈ op.operands, K v) ∧ ∀ v ∈ op.results, K v := by
  have hb := h.coherent
  have hoperands : ∀ {A B x op}, b.walk = A ++ x :: B → (∀ y ∈ A, ∀ opy, b.op? y = some opy → ∀ v ∈ opy.results, K v) →
      b.op? x = some op → ∀ v ∈ op.operands, K v := fun {A B x op} hw hA hop v hv => by
    rcases h.scope x op v (hb.mem_walk_iff.1 (by simp [hw])) hop hv with hv | ⟨d, j, hd, hst, hprec⟩
    · exact harg v hv
    · have hnd := hb.nodup_walk
      have hfront := hprec.sublist_walk hb hst (hb.mem_walk_iff.1 (by simp [hw]))
      rw [hw] at hnd hfront
      obtain ⟨opd, hopd, hres⟩ := hb.origin hd
      exact hA d (mem_of_pair_sublist hfront hnd) opd hopd v (List.mem_of_getElem? hres)
  have hall : ∀ A B, b.walk = A ++ B → ∀ y ∈ A, ∀ opy, b.op? y = some opy → ∀ v ∈ opy.results, K v := by
    intro A
    induction A using List.reverseRecOn with
    | nil => exact fun _ _ y hy => by cases hy
    | append_singleton A x ih =>
      intro B hw y hy opy hopy
      rw [List.append_assoc] at hw
      rcases List.mem_append.1 hy with hy | hy
      · exact ih _ hw y hy opy hopy
      · obtain rfl := List.mem_singleton.1 hy
        exact hstep (hb.mem_walk_iff.1 (by simp [hw])) hopy (hoperands hw (ih _ hw) hopy)
  obtain ⟨A, B, hw, -, -⟩ := hb.walk_split hx
  refine ⟨hoperands hw (hall A _ hw) hop, ?_⟩
  exact hstep hx hop (hoperands hw (hall A _ hw) hop)

/-- Values have the bits that they mean. -/
theorem bits_eq (hx : b.Walked x) (hop : b.op? x = some op) :
    (∀ v ∈ op.operands, (S v).bits = (b.meaning I xs v).bits) ∧ ∀ v ∈ op.results, (S v).bits = (b.meaning I xs v).bits := by
  have hb := h.coherent
  refine h.operand_induction (fun v hv => h.bits_holder (.inl hv)) (fun {x op} hx hop hops v hv => ?_) hx hop
  cases hrole : op.kind.role? with
  | some role => exact h.bits_holder (.inr ⟨x, op, hx, hop, hv, by rw [hrole]; rfl⟩)
  | none =>
    have hheeds := h.interpreted.heeds (h.active hx hop)
    obtain ⟨ins, outs, hins, houts, hfits, hshaped⟩ := hheeds.typed
    obtain ⟨i, hi⟩ := List.mem_iff_getElem?.1 hv
    obtain ⟨t, ht, hvt⟩ := houts.getElem? hi
    obtain ⟨s, hs⟩ := exists_sense (I := I) hins hfits hshaped hheeds.meant hheeds.reaches hrole
      (List.ne_nil_of_mem (List.mem_of_getElem? ht)) (b.tyOf v)
    obtain ⟨u, rfl⟩ := single_of_sense hshaped hs
    obtain rfl : i = 0 := by
      obtain ⟨hlt, -⟩ := List.getElem?_eq_some_iff.1 ht
      simpa using hlt
    have hread : op.operands.map (b.reading (b.meaning I xs)) = op.operands.map (b.reading S) :=
      List.map_congr_left fun w hw => reading_congr rfl (hops w hw).symm
    have hbits : (b.sense I (b.meaning I xs) op.kind op.operands (b.tyOf v)).map (·.bits) =
        (b.sense I S op.kind op.operands (b.tyOf v)).map (·.bits) := map_bits_sense rfl hread _
    rw [hs, Option.map_some] at hbits
    obtain ⟨s', hs', he⟩ := Option.map_eq_some_iff.1 hbits
    rw [hheeds.bits hi hs, ← he, ← senses_result hb h.scope hx hop hi hs']
    rfl

/-- Results that are no parts and hold no variables have no place. -/
theorem placeless (hop : b.op? x = some op) (hacc : op.kind.isAccessor = false) (hplace : op.kind.holdsPlaces = false)
    (hv : v ∈ op.results) : (b.meaning I xs v).place = none := by
  have hb := h.coherent
  obtain ⟨i, hi⟩ := List.mem_iff_getElem?.1 hv
  exact hb.place_meaning (hb.result hop hi) hop hacc hplace

/-! ## Places -/

omit h in
/-- Both senses place a value below the same path of a value that no accessor makes. -/
def Traces (b : Body) (S S' : ValueId → Sense) (v : ValueId) : Prop :=
  ∃ w path t, b.ty? w = some t ∧ b.ty? v = t.sub? path ∧
    (S v).place = (S w).place.map (fun p => (p.1, p.2 ++ path)) ∧
    (S' v).place = (S' w).place.map (fun p => (p.1, p.2 ++ path)) ∧
    (w ∈ b.args ∨ ∃ x op, b.Walked x ∧ b.op? x = some op ∧ w ∈ op.results ∧ op.kind.isAccessor = false)

omit h in
theorem traces_self (hv : (b.ty? v).isSome) (hw : v ∈ b.args ∨ ∃ x op, b.Walked x ∧ b.op? x = some op ∧ v ∈ op.results ∧
    op.kind.isAccessor = false) : Traces b S S' v := by
  obtain ⟨t, ht⟩ := Option.isSome_iff_exists.1 hv
  refine ⟨v, [], t, ht, ht, ?_, ?_, hw⟩
  · cases (S v).place <;> simp
  · cases (S' v).place <;> simp

/-- Values on a way without computed positions are placed alike. -/
theorem traces {F : ValueId → Prop} (hF : b.Direct idle S F) (hx : b.Walked x) (hop : b.op? x = some op) :
    ∀ v ∈ op.operands, F v → Traces b S (b.meaning I xs) v := by
  have hb := h.coherent
  refine (h.operand_induction (K := fun v => F v → Traces b S (b.meaning I xs) v) (fun v hv _ => ?_)
    (fun {x op} hx hop hops v hv hFv => ?_) hx hop).1
  · exact traces_self (isSome_ty?.2 (hb.lt_of_arg hv)) (.inl hv)
  · obtain ⟨i, hi⟩ := List.mem_iff_getElem?.1 hv
    have horigin := hb.result hop hi
    cases hacc : op.kind.isAccessor with
    | false =>
      exact traces_self (isSome_ty?.2 (isSome_value?.1 (isSome_of_origin? horigin))) (.inr ⟨x, op, hx, hop, hv, hacc⟩)
    | true =>
      have hact := h.active hx hop
      have hheeds := h.interpreted.heeds hact
      obtain ⟨u, j, hu, hFu, hj, hplace, -⟩ := hF.access hFv horigin hact hacc
      have humem := List.mem_of_getElem? hu
      obtain ⟨w, path, t, hw, hty, hS, hS', hroot⟩ := hops u humem hFu
      obtain ⟨a, c, j', rest, hins, houts, hchild, hj'⟩ := hheeds.part hacc
      obtain rfl : j = j' := Option.some.inj (hj.symm.trans hj')
      have ha : b.ty? u = some a := hins.getElem?_eq hu rfl
      have hread : op.operands.map (b.reading (b.meaning I xs)) = op.operands.map (b.reading S) :=
        List.map_congr_left fun y hy => reading_congr rfl ((h.bits_eq hx hop).1 y hy).symm
      have hhead : op.operands.head? = some u := by
        rw [List.head?_eq_getElem?]
        exact hu
      have hs : b.sense I (b.meaning I xs) op.kind op.operands (b.tyOf v) = some ((b.meaning I xs u).part j) := by
        unfold sense
        rw [hread, hj, hhead]
        rfl
      obtain ⟨c', hc', hvc⟩ := houts.getElem? hi
      obtain rfl : i = 0 := by
        obtain ⟨hlt, -⟩ := List.getElem?_eq_some_iff.1 hc'
        simpa using hlt
      obtain rfl : c = c' := by simpa using hc'
      have hmeaning : b.meaning I xs v = (b.meaning I xs u).part j := senses_result hb h.scope hx hop hi hs
      refine ⟨w, path ++ [j], t, hw, ?_, ?_, ?_, hroot⟩
      · rw [hvc, Ty.sub?_append, ← hty, ha, Option.bind_some]
        simp [Ty.sub?, hchild]
      · rw [hplace, Sense.part, hS, Option.map_map]
        simp [Function.comp_def]
      · rw [hmeaning, Sense.part, hS', Option.map_map]
        simp [Function.comp_def]

/-- A ground value that is reached without a computed position has no place, or that of a variable. -/
theorem place {g : Scalarize.Ground} (hx : b.Walked x) (hop : b.op? x = some op) (hv : v ∈ op.operands)
    (hg : b.ty? v = some (.ground g)) (hs : b.Straight idle S v) :
    ((S v).place = none ∧ (b.meaning I xs v).place = none) ∨ ∃ (i : Nat) (z₀ z : Variable), b₀.vars[i]? = some z₀ ∧ b.vars[i]? = some z ∧
      (S v).place = some (key z₀) ∧ (b.meaning I xs v).place = some (key z) := by
  have hb := h.coherent
  obtain ⟨F, hFv, hF⟩ := hs
  obtain ⟨w, path, t, hw, hty, hS, hS', hroot⟩ := h.traces hF hx hop v hv hFv
  rw [hg] at hty
  -- a variable that is driven
  have hvar : ∀ {role}, role ≠ .invalid → (⟨w, path, role, g⟩ : Variable) ∈ b.vars → ∃ (i : Nat) (z₀ z : Variable), b₀.vars[i]? = some z₀ ∧
      b.vars[i]? = some z ∧ (S v).place = some (key z₀) ∧ (b.meaning I xs v).place = some (key z) := by
    intro role hrole hz
    obtain ⟨i, hi⟩ := List.mem_iff_getElem?.1 hz
    obtain ⟨z₀, hz₀, hseen⟩ := h.former_var hi
    have hrole₀ : role = z₀.role := congrArg (·.1) hseen
    have hplace₀ : (S w).place.map (fun p => (p.1, p.2 ++ path)) =
        (b₀.meaning I xs z₀.value).place.map fun p => (p.1, p.2 ++ z₀.path) := congrArg (·.2.2.1) hseen
    refine ⟨i, z₀, _, hz₀, hi, ?_, ?_⟩
    · rw [hS, hplace₀, h.former.place_var (List.mem_of_getElem? hz₀) (hrole₀ ▸ hrole)]
      rfl
    · rw [hS', hb.place_var hz hrole]
      rfl
  have hleaf : ∀ role, role ≠ .invalid → (⟨w, path, role, g⟩ : Variable) ∈ b.leavesOf role w := fun role hrole => by
    refine List.mem_filter.2 ⟨List.mem_map.2 ⟨⟨path, t.turned path, g⟩, ?_, rfl⟩, ?_⟩
    · rw [tyOf_eq hw]
      exact Ty.mem_leaves.2 ⟨hty.symm, rfl⟩
    · simp [Variable.void, hrole]
  rcases hroot with harg | ⟨y, opy, hy, hopy, hres, hacc⟩
  · exact .inr (hvar (by decide) (List.mem_append_left _ (List.mem_flatMap.2 ⟨w, harg, hleaf .port (by decide)⟩)))
  · cases hplace : opy.kind.holdsPlaces with
    | true =>
      obtain ⟨role, hrole, hne⟩ : ∃ role, opy.kind.role? = some role ∧ role ≠ .invalid := by
        unfold OpKind.holdsPlaces at hplace
        simpa using (Option.any_eq_true _ _).1 hplace
      refine .inr (hvar hne (List.mem_append_right _ (List.mem_flatMap.2 ⟨y, hb.mem_walk_iff.2 hy, ?_⟩)))
      unfold held
      rw [hopy]
      dsimp only
      rw [hrole]
      exact List.mem_flatMap.2 ⟨w, hres, hleaf role hne⟩
    | false =>
      refine .inl ⟨?_, ?_⟩
      · rw [hS, (h.interpreted.heeds (h.active hy hopy)).placeless hacc hplace w hres]
        rfl
      · rw [hS', h.placeless hopy hacc hplace hres]
        rfl

/-! ## Connections -/

omit h in
/-- The same bits, at the same variable. -/
def Matched (b₀ b : Body) (e₀ e : Place × List Bool) : Prop :=
  ∃ (i : Nat) (z₀ z : Variable), b₀.vars[i]? = some z₀ ∧ b.vars[i]? = some z ∧ e₀.1 = key z₀ ∧ e.1 = key z ∧ e₀.2 = e.2

/-- An operation drives the variables that it drove. -/
theorem forall₂_drivesBy (hx : b.Walked x) :
    List.Forall₂ (Matched b₀ b) (b.drivesBy S x) (b.drivesBy (b.meaning I xs) x) := by
  cases hop : b.op? x with
  | none =>
    unfold drivesBy
    rw [hop]
    exact .nil
  | some op =>
    by_cases hc : ∃ strict, op.kind = .connect strict
    · obtain ⟨strict, hk⟩ := hc
      have hact := h.active hx hop
      obtain ⟨d, s, g, hds, hd, hstraight⟩ := h.interpreted.landed hact List.not_mem_nil strict hk
      have hdrives : ∀ S, b.drivesBy S x = (Ty.ground g).drives (S d) (S s) := fun S => by
        unfold drivesBy
        obtain ⟨kind, operands, results, block, erased⟩ := op
        dsimp only at hk hds
        subst hk hds
        rw [hop]
        dsimp only
        rw [tyOf_eq hd]
      have hbits := (h.bits_eq hx hop).1 s (by simp [hds])
      rw [hdrives, hdrives]
      rcases h.place hx hop (by simp [hds]) hd hstraight with ⟨hnone, hnone'⟩ | ⟨i, z₀, z, hz₀, hz, hp₀, hp⟩
      · simp [Ty.drives, Ty.leaves, hnone, hnone']
      · simp only [Ty.drives, Ty.leaves, List.filterMap_cons, List.filterMap_nil, cond_false, hp₀, hp, Option.map_some,
          List.append_nil]
        exact .cons ⟨i, z₀, z, hz₀, hz, rfl, rfl, by rw [hbits]⟩ .nil
    · have hnil : ∀ S, b.drivesBy S x = [] := fun S => by
        unfold drivesBy
        split
        next strict _ _ _ _ _ hop' => exact absurd ⟨strict, by rw [Option.some.inj (hop.symm.trans hop')]⟩ hc
        next => rfl
      rw [hnil, hnil]
      exact .nil

/-- Connections drive the variables that they drove, in the same order. -/
theorem forall₂_drives :
    List.Forall₂ (Matched b₀ b) (b₀.drives (b₀.meaning I xs)) (b.drives (b.meaning I xs)) := by
  rw [← h.drives_eq]
  refine Outline.forall₂_drivesOf _ fun x hmem => ?_
  have hx : b.Walked x := h.coherent.mem_walk_iff.1 (by rwa [Outline.opsOf_eq] at hmem)
  refine ⟨h.forall₂_drivesBy hx, ?_⟩
  obtain ⟨op, hop⟩ : ∃ op, b.op? x = some op := by
    have := hx.stands
    rw [stands_eq] at this
    cases hop : b.op? x with
    | none => rw [hop] at this; cases this
    | some op => exact ⟨op, rfl⟩
  exact (holds_congr hop hop rfl id (by rw [List.map_id]) fun c hc => ((h.bits_eq hx hop).1 c hc).symm).symm

omit h in
/-- What drives a variable last. -/
theorem find?_eq {l l' : List (Place × List Bool)} {p q : Place × List Bool → Bool} (hl : List.Forall₂ (Matched b₀ b) l l')
    (hpq : ∀ e₀ e, Matched b₀ b e₀ e → p e₀ = q e) : (l.find? p).map (·.2) = (l'.find? q).map (·.2) := by
  induction hl with
  | nil => rfl
  | @cons e₀ e l l' he _ ih =>
    rw [List.find?_cons, List.find?_cons, hpq e₀ e he]
    obtain ⟨-, -, -, -, -, -, -, hbits⟩ := he
    cases q e
    · exact ih
    · simp [hbits]

/-- Every leaf is driven by what it was driven by. -/
theorem drivers_eq : b.sinks.map (fun z => (z.role, z.ground)) = b₀.sinks.map (fun z => (z.role, z.ground)) ∧
    b.drivers I xs = b₀.drivers I xs := by
  have hlen : b₀.vars.length = b.vars.length := by
    have := congrArg List.length h.vars_seen
    simpa using this.symm
  have hvars : List.Forall₂ (fun z₀ z => z₀.role = z.role ∧ z₀.ground = z.ground ∧
      ((b₀.drives (b₀.meaning I xs)).reverse.find? (·.1 = (z₀.value, z₀.path))).map (·.2) =
        ((b.drives (b.meaning I xs)).reverse.find? (·.1 = (z.value, z.path))).map (·.2)) b₀.vars b.vars := by
    refine List.forall₂_iff_get.2 ⟨hlen, fun i hi hi' => ?_⟩
    have hz : b.vars[i]? = some (b.vars.get ⟨i, hi'⟩) := List.getElem?_eq_getElem hi'
    obtain ⟨z₀, hz₀, hseen⟩ := h.former_var hz
    obtain rfl : b₀.vars.get ⟨i, hi⟩ = z₀ := Option.some.inj ((List.getElem?_eq_getElem hi).symm.trans hz₀)
    refine ⟨(congrArg (·.1) hseen).symm, (congrArg (·.2.1) hseen).symm, ?_⟩
    refine find?_eq (List.forall₂_reverse_iff.2 h.forall₂_drives) fun e₀ e he => ?_
    obtain ⟨j, y₀, y, hy₀, hy, hk₀, hk, -⟩ := he
    rw [hk₀, hk]
    refine decide_eq_decide.2 ⟨fun he => ?_, fun he => ?_⟩
    · obtain rfl := h.former.key_inj hy₀ hz₀ he
      rw [Option.some.inj (hy.symm.trans hz)]
      rfl
    · obtain rfl := h.coherent.key_inj hy hz he
      rw [Option.some.inj (hy₀.symm.trans hz₀)]
      rfl
  have hsinks : List.Forall₂ _ b₀.sinks b.sinks := List.rel_filter (fun {z₀ z} hz => by
    simp [hz.1]) hvars
  exact ⟨(List.map_eq_of_forall₂ hsinks fun z₀ z hz => by rw [hz.1, hz.2.1]).symm,
    (List.map_eq_of_forall₂ hsinks fun z₀ z hz => hz.2.2).symm⟩

end Outcome

end Body

end Scalarize
