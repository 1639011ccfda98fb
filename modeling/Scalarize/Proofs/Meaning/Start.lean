import Scalarize.Proofs.Body.Order
import Scalarize.Proofs.Meaning.Steps

/-!
# What bodies mean, solved

The senses of all values are found in the order of a walk. They solve the equations that the operations ask for.

* `Precedes.sublist`, `Precedes.sublist_walk` : what stands in front comes first;
* `Body.senses_operand`, `Body.senses_result`, `Body.senses_init` : the senses that are found solve the equations;
* `Body.nodup_keys`, `Body.given_var` : every variable is listed once, and has its value;
* `Body.Sensible` : bodies whose meaning is known; `Sensible.interpreted` : their operations agree with it.
-/

namespace Scalarize

open Body

namespace Body

variable {I : Interpretation} {b : Body} {S init : ValueId → Sense} {x y d : OpId} {op : Operation} {v r : ValueId}
  {A B L os : List OpId} {xs : Valuation}

/-! ## Order -/

namespace Unfolds

theorem sublist_self (h : Unfolds b os L) : os.Sublist L := by
  induction h with
  | nil => exact .slnil
  | cons _ _ _ ih => exact (ih.trans (List.sublist_append_right _ _)).cons_cons _

/-- What an operation guards comes behind what is in front of the operation. -/
theorem behind (h : Unfolds b os L) (hy : [d, y].Sublist L) (hx : x ∈ b.inner y) : [d, x].Sublist L := by
  induction h with
  | nil => cases hy
  | cons below rest ih₁ ih₂ =>
    rw [pair_sublist_cons, pair_sublist_append] at hy ⊢
    rcases hy with ⟨rfl, hy⟩ | hy | ⟨hd, hy⟩ | hy
    · refine .inl ⟨rfl, List.mem_append.2 ((List.mem_append.1 hy).imp ?_ ?_)⟩
      · exact fun hy => below.inner_subset hy hx
      · exact fun hy => rest.inner_subset hy hx
    · exact .inr (.inl (ih₁ hy))
    · exact .inr (.inr (.inl ⟨hd, rest.inner_subset hy hx⟩))
    · exact .inr (.inr (.inr (ih₂ hy)))

theorem inner_sublist (h : Unfolds b os L) (hy : y ∈ L) : (b.inner y).Sublist L := by
  induction h with
  | nil => cases hy
  | cons below rest ih₁ ih₂ =>
    rcases List.mem_cons.1 hy with rfl | hy
    · exact (below.sublist_self.trans (List.sublist_append_left _ _)).cons _
    · rcases List.mem_append.1 hy with hy | hy
      · exact ((ih₁ hy).trans (List.sublist_append_left _ _)).cons _
      · exact ((ih₂ hy).trans (List.sublist_append_right _ _)).cons _

end Unfolds

/-- What stands in front is unfolded first. -/
theorem Precedes.sublist (h : b.Precedes d x) (hb : b.Coherent) (hL : Unfolds b (b.slotsOf Body.entry) L)
    (hx : b.Walked x) : [d, x].Sublist L := by
  induction h with
  | @here k x h =>
    rcases hx.exposed hb (mem_of_precedes_here h).2 with rfl | ⟨g, hg, hk⟩
    · exact h.trans hL.sublist_self
    · have hin : (b.slotsOf k).Sublist (b.inner g) := by
        rw [inner_eq_guardedBlocks]
        exact sublist_flatMap_of_mem (List.mem_reverse.2 hk) _
      exact h.trans (hin.trans (hL.inner_sublist (hg.mem_of_unfolds hL)))
  | @around k g x _ hk hin ih => exact hL.behind (ih ((hx.exposed hb hin).guard hb hk)) (mem_inner_iff.2 ⟨k, hk, hin⟩)

/-- What stands in front is walked first. -/
theorem Precedes.sublist_walk (h : b.Precedes d x) (hb : b.Coherent) (hd : b.stands d) (hx : b.Walked x) :
    [d, x].Sublist b.walk := by
  have haround : ∃ k y, [d, y].Sublist (b.slotsOf k) ∧ b.Around y x := by
    clear hx
    induction h with
    | here h => exact ⟨_, _, h, .inl rfl⟩
    | around _ hk hin ih =>
      obtain ⟨k, y, hy, rfl | henc⟩ := ih
      · exact ⟨k, _, hy, .inr (.inside hk (hb.liesIn hin))⟩
      · exact ⟨k, y, hy, .inr (henc.deeper hk (hb.liesIn hin))⟩
  obtain ⟨k, y, hy, hyx⟩ := haround
  exact hb.sublist_of_comesBefore (h.walked hb hx hd) hx (.slots hy (.inl rfl) hyx)

/-! ## Senses in the order of a walk -/

/-- Only the first result of an operation gets a sense, and only if the operands give it one. -/
theorem settle_eq (h : ∀ op, b.op? x = some op → op.results[0]? = some v →
    b.sense I S op.kind op.operands (b.tyOf v) = none) : b.settle I S x v = S v := by
  unfold settle
  cases hop : b.op? x with
  | none => rfl
  | some op =>
    dsimp only
    cases hres : op.results with
    | nil => rfl
    | cons r rs =>
      dsimp only
      by_cases hv : v = r
      · subst hv
        rw [h op hop (by rw [hres]; rfl)]
        rfl
      · cases b.sense I S op.kind op.operands (b.tyOf r) with
        | none => rfl
        | some s => exact Function.update_of_ne hv _ _

theorem settle_result {s : Sense} (hop : b.op? x = some op) (hr : op.results[0]? = some r)
    (hs : b.sense I S op.kind op.operands (b.tyOf r) = some s) : b.settle I S x r = s := by
  unfold settle
  rw [hop]
  dsimp only
  cases hres : op.results with
  | nil => rw [hres] at hr; cases hr
  | cons r' rs =>
    rw [hres] at hr
    obtain rfl : r' = r := by simpa using hr
    dsimp only
    rw [hs]
    exact Function.update_self _ _ _

theorem foldl_settle_eq (h : ∀ x ∈ A, ∀ op S, b.op? x = some op → op.results[0]? = some v →
    b.sense I S op.kind op.operands (b.tyOf v) = none) : A.foldl (b.settle I) S v = S v := by
  induction A generalizing S with
  | nil => rfl
  | cons x A ih =>
    rw [List.foldl_cons, ih fun y hy => h y (List.mem_cons_of_mem _ hy)]
    exact settle_eq fun op => h x List.mem_cons_self op S

/-- Other operations do not change the sense of a value. -/
theorem Coherent.foldl_settle_eq (hb : b.Coherent) (h : ∀ x ∈ A, b.origin? v ≠ some (.result x 0)) :
    A.foldl (b.settle I) S v = S v :=
  Body.foldl_settle_eq fun x hx _ _ hop hr => absurd (hb.result hop hr) (h x hx)

/-- What is in front of an operation that is walked, and what is behind it. -/
theorem Coherent.walk_split (hb : b.Coherent) (hx : b.Walked x) : ∃ A B, b.walk = A ++ x :: B ∧ x ∉ A ∧ x ∉ B := by
  obtain ⟨A, B, hw⟩ := List.append_of_mem (hb.mem_walk_iff.2 hx)
  have hnd := hb.nodup_walk
  rw [hw, List.nodup_append, List.nodup_cons] at hnd
  exact ⟨A, B, hw, fun hA => hnd.2.2 x hA x List.mem_cons_self rfl, hnd.2.1.1⟩

/-- What an operation reads has its sense when the operation is reached. -/
theorem senses_operand (hb : b.Coherent) (hs : b.InScope) (hw : b.walk = A ++ x :: B) (hop : b.op? x = some op)
    (hv : v ∈ op.operands) : b.senses I init v = A.foldl (b.settle I) init v := by
  have hx : b.Walked x := hb.mem_walk_iff.1 (by simp [hw])
  unfold senses
  rw [hw, List.foldl_append]
  refine hb.foldl_settle_eq fun y hy horigin => ?_
  rcases hs x op v hx hop hv with harg | ⟨d, i, hd, hst, hprec⟩
  · rw [hb.args v harg] at horigin
    cases horigin
  · obtain ⟨rfl, -⟩ : d = y ∧ i = 0 := by simpa using hd.symm.trans horigin
    have hnd := hb.nodup_walk
    have hfront := hprec.sublist_walk hb hst hx
    rw [hw] at hnd hfront
    have hmem := mem_of_pair_sublist hfront hnd
    rw [List.nodup_append] at hnd
    exact hnd.2.2 d hmem d hy rfl

/-- Results have the senses that the operands give them. -/
theorem senses_result {s : Sense} (hb : b.Coherent) (hs : b.InScope) (hx : b.Walked x) (hop : b.op? x = some op)
    (hr : op.results[0]? = some r)
    (hsense : b.sense I (b.senses I init) op.kind op.operands (b.tyOf r) = some s) : b.senses I init r = s := by
  obtain ⟨A, B, hw, -, hB⟩ := hb.walk_split hx
  rw [sense_congr rfl fun v hv => ⟨rfl, senses_operand hb hs hw hop hv⟩] at hsense
  unfold senses
  rw [hw, List.foldl_append, List.foldl_cons, hb.foldl_settle_eq fun y hy horigin => ?_]
  · exact settle_result hop hr hsense
  · obtain ⟨rfl, -⟩ : x = y ∧ True := by simpa using (hb.result hop hr).symm.trans horigin
    exact hB hy

/-- Nothing is computed of variables. -/
theorem sense_of_role? {kind : OpKind} (h : kind.role?.isSome) (vs : List ValueId) (out : Ty) :
    b.sense I S kind vs out = none := by
  cases kind <;> first | rfl | cases h

/-- Variables keep their senses. -/
theorem Coherent.senses_init (hb : b.Coherent) (h : b.origin? v = some .argument ∨
    ∃ x i op, b.origin? v = some (.result x i) ∧ b.op? x = some op ∧ op.kind.role?.isSome) : b.senses I init v = init v := by
  refine Body.foldl_settle_eq fun y _ opy S hopy hr => ?_
  have hres := hb.result hopy hr
  rcases h with harg | ⟨x, i, op, horigin, hop, hrole⟩
  · rw [harg] at hres
    cases hres
  · obtain ⟨rfl, -⟩ : x = y ∧ i = 0 := by simpa using horigin.symm.trans hres
    rw [Option.some.inj (hopy.symm.trans hop)]
    exact sense_of_role? hrole _ _

/-! ## Variables -/

theorem mem_leavesOf {role : Role} {z : Variable} (h : z ∈ b.leavesOf role v) :
    z.value = v ∧ z.role = role ∧ (b.tyOf v).sub? z.path = some (.ground z.ground) := by
  obtain ⟨l, hl, rfl⟩ := List.mem_map.1 (List.mem_filter.1 h).1
  exact ⟨rfl, rfl, (Ty.mem_leaves.1 hl).1⟩

theorem mem_held {z : Variable} (h : z ∈ b.held x) : ∃ op role v, b.op? x = some op ∧ op.kind.role? = some role ∧
    v ∈ op.results ∧ z ∈ b.leavesOf role v := by
  unfold held at h
  split at h
  next op hop =>
    cases hrole : op.kind.role? with
    | none => rw [hrole] at h; cases h
    | some role =>
      rw [hrole] at h
      obtain ⟨v, hv, hz⟩ := List.mem_flatMap.1 h
      exact ⟨op, role, v, hop, hrole, hv, hz⟩
  next => cases h

theorem mem_vars {z : Variable} (h : z ∈ b.vars) : (b.tyOf z.value).sub? z.path = some (.ground z.ground) := by
  rcases List.mem_append.1 h with h | h
  · obtain ⟨v, -, hz⟩ := List.mem_flatMap.1 h
    obtain ⟨rfl, -, hsub⟩ := mem_leavesOf hz
    exact hsub
  · obtain ⟨x, -, hz⟩ := List.mem_flatMap.1 h
    obtain ⟨op, role, v, -, -, -, hz⟩ := mem_held hz
    obtain ⟨rfl, -, hsub⟩ := mem_leavesOf hz
    exact hsub

/-- Where a variable is. -/
def key (z : Variable) : Place := (z.value, z.path)

theorem pairwise_leavesOf (role : Role) (v : ValueId) : (b.leavesOf role v).Pairwise fun z z' => key z ≠ key z' := by
  refine List.Pairwise.filter _ (List.pairwise_map.2 ?_)
  refine (List.pairwise_map.1 (Ty.pairwise_leaves (b.tyOf v))).imp fun {l l'} hlt he => ?_
  have hpath : l.path = l'.path := congrArg Prod.snd he
  rw [hpath] at hlt
  exact List.lt_irrefl _ hlt

/-- Variables of different values are apart. -/
theorem pairwise_flatMap_leavesOf {vs : List ValueId} (h : vs.Nodup) (role : Role) :
    (vs.flatMap (b.leavesOf role)).Pairwise fun z z' => key z ≠ key z' := by
  refine List.pairwise_flatMap.2 ⟨fun v _ => pairwise_leavesOf role v, h.imp fun {v w} hne z hz z' hz' he => hne ?_⟩
  obtain ⟨rfl, -⟩ := mem_leavesOf hz
  obtain ⟨rfl, -⟩ := mem_leavesOf hz'
  exact congrArg Prod.fst he

theorem Coherent.nodup_results (hb : b.Coherent) (hop : b.op? x = some op) : op.results.Nodup := by
  refine List.nodup_iff_getElem?_ne_getElem?.2 fun i j hij hj he => ?_
  have hi := hb.result hop (List.getElem?_eq_getElem (Nat.lt_trans hij hj))
  have hj' := hb.result hop (he ▸ List.getElem?_eq_getElem (Nat.lt_trans hij hj))
  have : i = j := by simpa using hi.symm.trans hj'
  omega

/-- Every variable is listed once. -/
theorem Coherent.pairwise_vars (hb : b.Coherent) : b.vars.Pairwise fun z z' => key z ≠ key z' := by
  have hheld : ∀ {x z}, z ∈ b.held x → ∃ i, b.origin? z.value = some (.result x i) := fun hz => by
    obtain ⟨op, role, v, hop, -, hv, hz⟩ := mem_held hz
    obtain ⟨rfl, -⟩ := mem_leavesOf hz
    obtain ⟨i, hi⟩ := List.mem_iff_getElem?.1 hv
    exact ⟨i, hb.result hop hi⟩
  have hown : ∀ x, (b.held x).Pairwise fun z z' => key z ≠ key z' := fun x => by
    unfold held
    cases hop : b.op? x with
    | none => exact .nil
    | some op =>
      dsimp only
      cases op.kind.role? with
      | none => exact .nil
      | some role => exact pairwise_flatMap_leavesOf (hb.nodup_results hop) role
  have hops : (b.walk.flatMap b.held).Pairwise fun z z' => key z ≠ key z' := by
    refine List.pairwise_flatMap.2 ⟨fun x _ => hown x, hb.nodup_walk.imp fun {x y} hne z hz z' hz' he => hne ?_⟩
    obtain ⟨i, hi⟩ := hheld hz
    obtain ⟨j, hj⟩ := hheld hz'
    rw [show z'.value = z.value from (congrArg Prod.fst he).symm] at hj
    have : x = y ∧ i = j := by simpa using hi.symm.trans hj
    exact this.1
  refine List.pairwise_append.2 ⟨pairwise_flatMap_leavesOf hb.nodup_args .port, hops, fun z hz z' hz' he => ?_⟩
  obtain ⟨v, hv, hz⟩ := List.mem_flatMap.1 hz
  obtain ⟨x, -, hz'⟩ := List.mem_flatMap.1 hz'
  obtain ⟨rfl, -⟩ := mem_leavesOf hz
  obtain ⟨i, hi⟩ := hheld hz'
  rw [show z'.value = z.value from (congrArg Prod.fst he).symm, hb.args _ hv] at hi
  cases hi

theorem Coherent.key_inj (hb : b.Coherent) {i j : Nat} {z z' : Variable} (hz : b.vars[i]? = some z)
    (hz' : b.vars[j]? = some z') (h : key z = key z') : i = j := by
  obtain ⟨hi, rfl⟩ := List.getElem?_eq_some_iff.1 hz
  obtain ⟨hj, rfl⟩ := List.getElem?_eq_some_iff.1 hz'
  have hpw := List.pairwise_iff_getElem.1 hb.pairwise_vars
  rcases Nat.lt_trichotomy i j with hlt | rfl | hlt
  · exact absurd h (hpw i j hi hj hlt)
  · rfl
  · exact absurd h.symm (hpw j i hj hi hlt)

/-- A variable has its value. -/
theorem Coherent.given_var (hb : b.Coherent) (xs : Valuation) {i : Nat} {z : Variable} (hz : b.vars[i]? = some z) :
    (b.given xs z.value).bits z.path = z.ground.fit (xs i) := by
  have hmem : (z, i) ∈ b.vars.zipIdx := List.mem_zipIdx_iff_getElem?.2 hz
  cases hf : b.vars.zipIdx.find? fun e => e.1.value = z.value ∧ e.1.path = z.path with
  | none => exact absurd (List.find?_eq_none.1 hf _ hmem) (by simp)
  | some e =>
    have hkey : e.1.value = z.value ∧ e.1.path = z.path := by simpa using List.find?_some hf
    have he := List.mem_zipIdx_iff_getElem?.1 (List.mem_of_find?_eq_some hf)
    have hi := hb.key_inj he hz (Prod.ext hkey.1 hkey.2)
    rw [hi] at he
    unfold given
    dsimp only
    rw [hf, Option.map_some, Option.getD_some, hi, Option.some.inj (he.symm.trans hz)]

theorem given_exact (b : Body) (xs : Valuation) (v : ValueId) : (b.tyOf v).Exact (b.given xs v).bits := by
  have hunpack := Ty.exact_unpack (b.tyOf v) []
  have hfound : ∀ {path e}, b.vars.zipIdx.find? (fun e => e.1.value = v ∧ e.1.path = path) = some e →
      (b.tyOf v).sub? path = some (.ground e.1.ground) := fun {path e} hf => by
    obtain ⟨rfl, rfl⟩ : e.1.value = v ∧ e.1.path = path := by simpa using List.find?_some hf
    exact mem_vars (List.mem_of_getElem? (List.mem_zipIdx_iff_getElem?.1 (List.mem_of_find?_eq_some hf)))
  constructor
  · intro path hoff
    unfold given
    dsimp only
    cases hf : b.vars.zipIdx.find? fun e => e.1.value = v ∧ e.1.path = path with
    | none => exact hunpack.off path hoff
    | some e => exact absurd (hfound hf) (hoff _)
  · intro path g n hg hn
    unfold given
    dsimp only
    cases hf : b.vars.zipIdx.find? fun e => e.1.value = v ∧ e.1.path = path with
    | none => exact hunpack.length hg hn
    | some e =>
      obtain rfl : e.1.ground = g := by simpa using (hfound hf).symm.trans hg
      exact Ground.length_fit hn _

/-! ## Senses fit types -/

/-- What an operation makes of its operands fits the type of its result. -/
theorem sense_accepts {kind : OpKind} {vs : List ValueId} {ins : List Ty} {t : Ty} {s : Sense} (hins : b.Types vs ins)
    (hfits : kind.Fits ins [t]) (hshaped : kind.Shaped True ins [t])
    (hproper : ∀ v ∈ vs, ∀ u, b.ty? v = some u → u.Accepts (S v).bits) (hreach : b.ReachesWithin S kind vs)
    (hs : b.sense I S kind vs t = some s) : t.Accepts s.bits := by
  have hpart : ∀ {v u i}, v ∈ vs → b.ty? v = some u → u.child? i = some t → t.Accepts ((S v).part i).bits :=
    fun hv hu hc => ((hproper _ hv _ hu).child hc).accepts
  have haccess : ∀ {u i}, ins = [u] → u.child? i = some t → (vs.head?.map fun v => (S v).part i) = some s →
      t.Accepts s.bits := by
    rintro u i rfl hc hs
    obtain ⟨v, hv, rfl⟩ := hins.singleton
    obtain rfl := Option.some.inj hs
    exact hpart (List.mem_singleton_self v) hv hc
  cases kind with
  | subfield i | subindex i =>
    obtain ⟨u, c, rfl, hc, houts⟩ := hfits
    obtain rfl : t = c := by simpa using houts
    exact haccess rfl hc hs
  | subaccess =>
    obtain ⟨v, x, e, n, i, rfl, hv, hx, hi⟩ := hreach rfl
    obtain ⟨e', n', u, rfl, houts⟩ := hfits
    obtain rfl : t = e' := by simpa using houts
    obtain ⟨rfl, rfl⟩ : e = t ∧ n = n' := by
      have := hins.getElem?_eq (i := 0) rfl rfl
      simpa [hv] using this
    have hreach' : OpKind.subaccess.reach? ([v, x].map (b.reading S)) = some i := hx
    unfold sense at hs
    rw [hreach'] at hs
    obtain rfl := Option.some.inj hs
    exact hpart (by simp) hv (by simp [Ty.child?, hi])
  | node d =>
    obtain ⟨u, rfl, houts⟩ := hfits
    obtain rfl : t = u := by simpa using houts
    obtain ⟨v, hv, rfl⟩ := hins.singleton
    obtain rfl := Option.some.inj hs
    exact hproper v (List.mem_singleton_self v) t hv
  | mux =>
    obtain ⟨c, u, rfl, houts⟩ := hfits
    obtain rfl : t = u := by simpa using houts
    cases hins with
    | @cons v _ vs _ hv hins =>
      cases hins with
      | @cons h _ vs _ hh hins =>
        obtain ⟨l, hl, rfl⟩ := Types.singleton hins
        obtain rfl := Option.some.inj hs
        dsimp only
        split
        · exact hproper h (by simp) t hh
        · exact hproper l (by simp) t hl
  | multiMux =>
    obtain ⟨u, rest, w, rfl, hrest, houts⟩ := hfits
    obtain rfl : t = w := by simpa using houts
    cases hins with
    | @cons v _ vs _ hv hins =>
      have hs' : (OpKind.multiMux.value? I t ((v :: vs).map (b.reading S))).map (fun f => (⟨f, none⟩ : Sense)) = some s :=
        hs
      rw [List.map_cons, Draft.value?_multiMux] at hs'
      obtain rfl := Option.some.inj hs'
      refine Draft.accepts_choice fun f hf => ?_
      obtain ⟨r, hr, rfl⟩ := List.mem_map.1 hf
      obtain ⟨z, hz, rfl⟩ := List.mem_map.1 hr
      obtain ⟨j, hj⟩ := List.mem_iff_getElem?.1 hz
      obtain ⟨z', hz', hty⟩ := Types.getElem? hins hj
      rw [hrest z' (List.mem_of_getElem? hz')] at hty
      exact hproper z (List.mem_cons_of_mem _ hz) t hty
  | bitcast =>
    obtain ⟨u, c, w, rfl, -⟩ := hfits
    obtain ⟨v, hv, rfl⟩ := hins.singleton
    obtain rfl := Option.some.inj hs
    exact (Ty.exact_unpack t _).accepts
  | constant n =>
    obtain ⟨-, u, houts, hground⟩ := hshaped
    obtain rfl : t = u := by simpa using houts
    obtain rfl := Option.some.inj hs
    cases t with
    | ground g => exact Ty.holds_ground_iff.2 fun path hp => by cases path <;> first | rfl | cases hp rfl
    | _ => cases hground trivial
  | prim p =>
    obtain rfl := Option.some.inj hs
    exact (Ty.exact_unpack t _).accepts
  | _ => cases hs

/-- What an operation computes is its only result. -/
theorem single_of_sense {kind : OpKind} {vs : List ValueId} {ins outs : List Ty} {out : Ty} {s : Sense}
    (hshaped : kind.Shaped True ins outs) (hs : b.sense I S kind vs out = some s) : ∃ t, outs = [t] := by
  cases kind with
  | node d =>
    obtain ⟨-, t, -, rfl, -⟩ := hshaped
    exact ⟨t, rfl⟩
  | constant n =>
    obtain ⟨-, t, rfl, -⟩ := hshaped
    exact ⟨t, rfl⟩
  | prim p =>
    obtain ⟨t, rfl, -⟩ := hshaped
    exact ⟨t, rfl⟩
  | subfield i =>
    obtain ⟨-, f, -, -, rfl⟩ := hshaped
    exact ⟨f.ty, rfl⟩
  | subindex i =>
    obtain ⟨e, -, -, -, rfl⟩ := hshaped
    exact ⟨e, rfl⟩
  | subaccess =>
    obtain ⟨e, -, -, -, rfl⟩ := hshaped
    exact ⟨e, rfl⟩
  | mux =>
    obtain ⟨-, -, -, t, -, rfl, -⟩ := hshaped
    exact ⟨t, rfl⟩
  | multiMux =>
    obtain ⟨-, -, -, t, -, rfl, -⟩ := hshaped
    exact ⟨t, rfl⟩
  | bitcast =>
    obtain ⟨-, t, -, rfl⟩ := hshaped
    exact ⟨t, rfl⟩
  | _ => cases hs

/-- What is no part of another value has no place, if it had none. -/
theorem place_settle (h : ∀ op, b.op? x = some op → op.results[0]? = some v → op.kind.isAccessor = false)
    (hS : (S v).place = none) : (b.settle I S x v).place = none := by
  by_cases hs : ∃ op s, b.op? x = some op ∧ op.results[0]? = some v ∧ b.sense I S op.kind op.operands (b.tyOf v) = some s
  · obtain ⟨op, s, hop, hr, hs⟩ := hs
    rw [settle_result hop hr hs]
    unfold sense at hs
    split at hs
    next i hi =>
      have := h op hop hr
      rw [OpKind.isAccessor_of_reach? hi] at this
      cases this
    next =>
      obtain ⟨f, -, rfl⟩ := Option.map_eq_some_iff.1 hs
      rfl
  · rw [settle_eq fun op hop hr => ?_]
    · exact hS
    · by_contra hne
      obtain ⟨s, hs'⟩ := Option.ne_none_iff_exists'.1 hne
      exact hs ⟨op, s, hop, hr, hs'⟩

theorem place_senses (h : ∀ x op, b.op? x = some op → op.results[0]? = some v → op.kind.isAccessor = false)
    (hinit : (init v).place = none) : (b.senses I init v).place = none := by
  unfold senses
  generalize b.walk = A
  induction A generalizing init with
  | nil => exact hinit
  | cons x A ih => exact ih (place_settle (h x) hinit)

/-! ## Bodies whose meaning is known -/

/-- Results that are no parts and hold no variables have no place. -/
theorem Coherent.place_meaning {i : Nat} (hb : b.Coherent) (horigin : b.origin? v = some (.result x i))
    (hop : b.op? x = some op) (hacc : op.kind.isAccessor = false) (hplace : op.kind.holdsPlaces = false) :
    (b.meaning I xs v).place = none := by
  have hgiven : (b.given xs v).place = none := by
    have hd : b.drivable v = false := by
      unfold drivable
      rw [horigin]
      dsimp only
      rw [kind?_eq, hop]
      exact hplace
    unfold given
    rw [hd]
    rfl
  refine place_senses (fun y opy hopy hy => ?_) hgiven
  obtain ⟨rfl, -⟩ : x = y ∧ i = 0 := by simpa using horigin.symm.trans (hb.result hopy hy)
  rwa [Option.some.inj (hopy.symm.trans hop)]

/-- The types of a body go together, its operations read what is in scope, and their meaning is known. No connection
drives a ground value that is cast from an aggregate. -/
structure Sensible (b : Body) : Prop where
  fits : b.WellTyped
  shaped : b.Typed (OpKind.Shaped True)
  scope : b.InScope
  meant : ∀ {x op}, b.Walked x → b.op? x = some op → op.kind.Meant
  short : ∀ {x op v e n}, b.Walked x → b.op? x = some op → op.kind = .subaccess → v ∈ op.operands →
    b.ty? v = some (.vector e n) → n < UInt64.size
  dest : ∀ {x op strict v}, b.Walked x → b.op? x = some op → op.kind = .connect strict → op.operands[0]? = some v →
    ¬b.GroundCast b.Unwalked v

namespace Sensible

variable (hm : b.Sensible) (hb : b.Coherent)

include hm in
theorem typed (hx : b.Walked x) (hop : b.op? x = some op) : ∃ ins outs, b.Types op.operands ins ∧
    b.Types op.results outs ∧ op.kind.Fits ins outs ∧ op.kind.Shaped True ins outs := by
  obtain ⟨ins, outs, hins, houts, hfits⟩ := hm.fits hop (erased_of_stands hop hx.stands)
  obtain ⟨ins', outs', hins', houts', hshaped⟩ := hm.shaped hop (erased_of_stands hop hx.stands)
  obtain rfl := hins.unique hins'
  obtain rfl := houts.unique houts'
  exact ⟨ins, outs, hins, houts, hfits, hshaped⟩

include hm hb in
/-- All senses fit the types of the values. -/
theorem accepts (hr : b.Ranged I xs) {v : ValueId} {t : Ty} (hv : b.ty? v = some t) :
    t.Accepts (b.meaning I xs v).bits := by
  suffices ∀ A B, b.walk = A ++ B → ∀ v t, b.ty? v = some t → t.Accepts (A.foldl (b.settle I) (b.given xs) v).bits from
    this b.walk [] (by simp) v t hv
  intro A
  induction A using List.reverseRecOn with
  | nil =>
    intro B _ v t hv
    exact (tyOf_eq hv ▸ given_exact b xs v).accepts
  | append_singleton A x ih =>
    intro B hw v t hv
    rw [List.append_assoc] at hw
    have hbefore := ih _ hw
    rw [List.foldl_append, List.foldl_cons, List.foldl_nil]
    have hx : b.Walked x := hb.mem_walk_iff.1 (by simp [hw])
    by_cases hres : ∃ op s, b.op? x = some op ∧ op.results[0]? = some v ∧
        b.sense I (A.foldl (b.settle I) (b.given xs)) op.kind op.operands (b.tyOf v) = some s
    · obtain ⟨op, s, hop, hr', hs⟩ := hres
      rw [settle_result hop hr' hs]
      obtain ⟨ins, outs, hins, houts, hfits, hshaped⟩ := hm.typed hx hop
      obtain ⟨u, hu, hvu⟩ := houts.getElem? hr'
      obtain rfl := Option.some.inj (hv.symm.trans hvu)
      rw [tyOf_eq hv] at hs
      obtain ⟨u, rfl⟩ := single_of_sense hshaped hs
      obtain rfl : t = u := by simpa using hu.symm
      refine sense_accepts hins hfits hshaped (fun w _ u hu => hbefore w u hu) (fun hsub => ?_) hs
      obtain ⟨w, z, e, n, i, hops, hw', hz, hi⟩ := hr x (hb.mem_walk_iff.2 hx) op hop hsub
      refine ⟨w, z, e, n, i, hops, hw', ?_, hi⟩
      rw [← hz]
      exact congrArg _ (reading_congr rfl (congrArg _ (senses_operand hb hm.scope hw hop (by simp [hops])).symm))
    · rw [settle_eq fun op hop hr' => ?_]
      · exact hbefore v t hv
      · by_contra hne
        obtain ⟨s, hs⟩ := Option.ne_none_iff_exists'.1 hne
        exact hres ⟨op, s, hop, hr', hs⟩

include hm hb in
/-- The operations agree with the meaning of the body. -/
theorem interpreted (hr : b.Ranged I xs) (hL : Unfolds b (b.slotsOf Body.entry) L) :
    b.Interpreted I b.Unwalked L (b.meaning I xs) := by
  have hwalked : ∀ {x op}, b.Active b.Unwalked x op → b.Walked x := fun hx =>
    not_not.1 fun hn => hx.busy ⟨by rw [hx.op?]; rfl, hn⟩
  have hactive : ∀ {x op}, b.Walked x → b.op? x = some op → b.Active b.Unwalked x op := fun hx hop =>
    ⟨hop, erased_of_stands hop hx.stands, fun hn => hn.2 hx⟩
  refine
    { coherent := hb, present := fun {x} hx => ?_, proper := hm.accepts hb hr, walked := hwalked
      heeds := fun {x op} hact => ?_, scope := fun {x op v} hact hv => ?_, pending := fun {Q x L' op} hL' hact => ?_
      landed := fun {x op} hact hnot => absurd ((hwalked hact).mem_of_unfolds hL) hnot }
  · exact hx.elim (hb.isSome_of_unfolds hL x) fun hx => hx.1
  · have hx := hwalked hact
    refine
      { typed := hm.typed hx hact.op?, meant := hm.meant hx hact.op?
        bits := fun hr' hs => congrArg _ (senses_result hb hm.scope hx hact.op? hr' hs)
        placeless := fun hacc hplace r hr' => ?_, reaches := hr x (hb.mem_walk_iff.2 hx) op hact.op?
        short := fun hsub => hm.short hx hact.op? hsub, exact := fun hinv {r t} hr' hty => ?_ }
    · obtain ⟨i, hi⟩ := List.mem_iff_getElem?.1 hr'
      exact hb.place_meaning (hb.result hact.op? hi) hact.op? hacc hplace
    · have := given_exact b xs r
      rw [tyOf_eq hty] at this
      have hi : b.meaning I xs r = b.given xs r := by
        obtain ⟨i, hi⟩ := List.mem_iff_getElem?.1 hr'
        exact hb.senses_init (.inr ⟨x, i, op, hb.result hact.op? hi, hact.op?, by rw [hinv]; rfl⟩)
      rwa [hi]
  · rcases hm.scope x op v (hwalked hact) hact.op? hv with harg | ⟨d, i, hd, hst, hprec⟩
    · exact .inl (hb.args v harg)
    · obtain ⟨opd, hopd, -⟩ := hb.origin hd
      exact .inr ⟨d, i, opd, hd, hactive (hprec.walked hb (hwalked hact) hst) hopd⟩
  · have hx := hwalked hact
    refine ⟨fun v hv => ?_, fun hr' hs => senses_result hb hm.scope hx hact.op? hr' hs,
      fun hk hv => hm.dest hx hact.op? hk hv⟩
    rcases hm.scope x op v hx hact.op? hv with harg | ⟨d, i, hd, hst, hprec⟩
    · exact .inl (hb.args v harg)
    · have hnd := hb.nodup_of_unfolds_entry hL
      have hfront := hprec.sublist hb hL hx
      rw [hL'] at hnd hfront
      exact .inr ⟨d, mem_of_pair_sublist hfront hnd, i, hd⟩

end Sensible

end Body

end Scalarize
