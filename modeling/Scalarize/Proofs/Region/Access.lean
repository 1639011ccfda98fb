import Scalarize.Proofs.Leaves
import Scalarize.Proofs.Region
import Scalarize.Proofs.Step.Write

/-!
# Ways to a value

* `Body.At` : a value is reached from another by fixed accessors along a path;
* `Body.Static` : no accessor on the way to a value is a computed one;
  `Static.writePath_ends` : a write to such a value needs no guards.
-/

namespace Scalarize.Body

variable {must : Prop} {b b' : Body} {o x : OpId} {u v w : ValueId} {i : Nat} {p q : List Nat} {C : ValueId → Prop}

/-! ## Fixed ways -/

/-- The value is reached from `v` by fixed accessors along a path. -/
inductive At (b : Body) (v : ValueId) : List Nat → ValueId → Prop
  | self : At b v [] v
  | part {p : List Nat} {u w : ValueId} {i : Nat} (h : At b v p u) (hw : b.PartOf u i w) : At b v (p ++ [i]) w

namespace At

theorem mono (h : b.At v p u) (hb : Extends b b') : b'.At v p u := by
  induction h with
  | self => exact .self
  | part _ hw ih => exact .part ih (hw.mono hb)

/-- The value has the type that the path leads to. -/
theorem ty? (h : b.At v p u) {t : Ty} (ht : b.ty? v = some t) : ∃ c, t.sub? p = some c ∧ b.ty? u = some c := by
  induction h with
  | self => exact ⟨t, rfl, ht⟩
  | part _ hw ih =>
    obtain ⟨c, hc, hu⟩ := ih
    obtain ⟨-, c', d, hc', hd, hw⟩ := hw
    obtain rfl := Option.some.inj (hu.symm.trans hc')
    exact ⟨d, Ty.sub?_concat hc hd, hw⟩

theorem trans (h : b.At v p u) (h' : b.At u q w) : b.At v (p ++ q) w := by
  induction h' with
  | self => rwa [List.append_nil]
  | part _ hw ih =>
    rw [← List.append_assoc]
    exact .part ih hw

/-- An operation is erased that is on no way. -/
theorem erased (h : b.At v p u) (he : Erased b o b') (ho : ∀ op, b.op? o = some op → op.kind.isAccessor = false) :
    b'.At v p u := by
  induction h with
  | self => exact .self
  | part _ hw ih =>
    refine .part ih ⟨?_, ?_⟩
    · obtain ⟨x, kind, hfix, op, hop, hbare, hrest⟩ := hw.made
      have hx : x ≠ o := by
        rintro rfl
        have hacc := ho op hop
        rw [← OpKind.fixedIndex?_eq_of_bare_eq hbare] at hfix
        cases hk : op.kind <;> simp_all [OpKind.isAccessor, OpKind.fixedIndex?]
      exact ⟨x, kind, hfix, op, by rw [he.op?, hop, Option.map_some, if_neg hx], hbare, hrest⟩
    · obtain ⟨t, c, ht, hc, hw⟩ := hw.types
      exact ⟨t, c, by rwa [he.outlives.ty?], hc, by rwa [he.outlives.ty?]⟩

end At

/-! ## Static ways -/

/-- No accessor on the way to the value is a computed one. -/
inductive Static (b : Body) : ValueId → Prop
  | argument {v : ValueId} (hv : b.origin? v = some .argument) : Static b v
  | result {v : ValueId} {x : OpId} {i : Nat} {op : Operation} (hv : b.origin? v = some (.result x i))
      (hop : b.op? x = some op) (hk : op.kind.isAccessor = false) : Static b v
  | accessor {v u : ValueId} {x : OpId} {i : Nat} {op : Operation} (hv : b.origin? v = some (.result x i))
      (hop : b.op? x = some op) (hk : op.kind.isAccessor = true) (hu : op.operands[0]? = some u)
      (hx : b.isDynamic x = .ok false) (h : Static b u) : Static b v

/-- The accessor has a fixed position, or one that a literal gives, in a vector with elements. -/
def Placable (b : Body) (op : Operation) : Prop :=
  op.kind = .subaccess → ∃ w y t n, op.operands[0]? = some w ∧ op.operands[1]? = some y ∧ b.ty? w = some t ∧
    (∀ e, t ≠ .vector e 0) ∧ b.Literal y n

theorem placable_of_isDynamic (hb : b.Coherent) {op : Operation} (hop : b.op? x = some op)
    (h : b.isDynamic x = .ok false) : b.Placable op := by
  intro hk
  have hoperand : ∀ i, Ends False (b.operand x i) fun v => op.operands[i]? = some v := fun i =>
    operand_ends (fun op' v hop' hv => by rwa [Option.some.inj (hop.symm.trans hop')]) nofun
  have hends : Ends False (b.isDynamic x) fun r => r = false → ∃ w y t n, op.operands[0]? = some w ∧
      op.operands[1]? = some y ∧ b.ty? w = some t ∧ (∀ e, t ≠ .vector e 0) ∧ b.Literal y n := by
    refine Ends.bind (P := fun k => op.kind = k) (kindOf_ends (fun op' hop' => ?_) nofun) ?_
    · rw [Option.some.inj (hop.symm.trans hop')]
    rintro _ rfl
    rw [hk]
    refine (hoperand 1).bind fun y hy => (constant?_ends hb nofun).bind fun l? hl => (hoperand 0).bind fun w hw => ?_
    refine (typeOf_ends (Q := fun t => b.ty? w = some t) (fun _ h => h) nofun).bind fun t ht => ?_
    split
    next => exact .pure nofun
    next hne =>
      refine .pure fun hnone => ?_
      obtain ⟨n, rfl⟩ := Option.isSome_iff_exists.1 (by simpa using hnone)
      exact ⟨w, y, t, n, hw, hy, ht, hne, (hl n).2 rfl⟩
  exact hends.of_ok h rfl

theorem isDynamic_of_placable (hb : b.Coherent) {op : Operation} (hop : b.op? x = some op) (h : b.Placable op) :
    b.isDynamic x = .ok false := by
  unfold isDynamic
  rw [kindOf_eq_ok hop]
  dsimp only [bind, Except.bind]
  split
  next hk =>
    obtain ⟨w, y, t, n, hw, hy, ht, hne, hlit⟩ := h hk
    have hconstant : b.constant? y = .ok (some n) := by
      have hends : Ends True (b.constant? y) fun l? => ∀ n, b.Literal y n ↔ l? = some n :=
        constant?_ends hb fun _ => isSome_value?.2 (hb.operand hop (List.mem_of_getElem? hy))
      obtain ⟨r, hr, hiff⟩ := hends.exists_ok trivial
      rw [hr, (hiff n).1 hlit]
    rw [operand_eq_ok hop hy]
    dsimp only
    rw [hconstant]
    dsimp only
    rw [operand_eq_ok hop hw]
    dsimp only
    rw [typeOf_eq_ok ht]
    dsimp only
    split
    next => exact absurd rfl (hne _)
    next => rfl
  next => rfl

/-- A way stays static where bodies agree on it. -/
theorem Static.agrees (h : b.Static v) (hb : b.Coherent) (hb' : b'.Coherent) (ha : Agrees b C b') (hv : C v) :
    b'.Static v := by
  induction h with
  | argument hr => exact .argument (by rw [ha.origin? hv, hr])
  | result hr hop hk =>
    obtain ⟨hr', op', hop', hbare, -⟩ := ha.op? hv hr hop
    exact .result hr' hop' (by rw [OpKind.isAccessor_eq_of_bare_eq hbare, hk])
  | accessor hr hop hk hu hx _ ih =>
    obtain ⟨hr', op', hop', hbare, hops, hC⟩ := ha.op? hv hr hop
    refine .accessor hr' hop' (by rw [OpKind.isAccessor_eq_of_bare_eq hbare, hk]) (by rw [hops, hu]) ?_
      (ih (hC _ (List.mem_of_getElem? hu)))
    refine isDynamic_of_placable hb' hop' fun hk' => ?_
    obtain ⟨w, y, t, n, hw, hy, ht, hne, hlit⟩ := placable_of_isDynamic hb hop hx
      ((OpKind.eq_of_bare_eq hbare (by rw [hk']; rfl)).symm.trans hk')
    exact ⟨w, y, t, n, by rw [hops, hw], by rw [hops, hy], by rw [ha.ty? (hC _ (List.mem_of_getElem? hw)), ht], hne,
      (ha.literal (hC _ (List.mem_of_getElem? hy))).2 hlit⟩

/-- What a fixed accessor reaches is as static as what it reads. -/
theorem Static.part (h : b.Static u) (hb : b.Coherent) (hw : b.PartOf u i w) : b.Static w := by
  obtain ⟨x, kind, hfix, hmk⟩ := hw.made
  have hr := hmk.origin? hb (i := 0) rfl
  obtain ⟨op, hop, hbare, hops, -⟩ := hmk
  rw [← OpKind.fixedIndex?_eq_of_bare_eq hbare] at hfix
  refine .accessor hr hop ?_ (by rw [hops]; rfl) (isDynamic_of_placable hb hop fun hk => ?_) h
  · cases hk : op.kind <;> simp_all [OpKind.isAccessor, OpKind.fixedIndex?]
  · rw [hk] at hfix
    cases hfix

theorem Static.at (h : b.Static v) (hb : b.Coherent) (hp : b.At v p u) : b.Static u := by
  induction hp with
  | self => exact h
  | part _ hw ih => exact ih.part hb hw

theorem Static.isSome (h : b.Static v) : (b.value? v).isSome := by
  cases h with
  | argument hv => exact isSome_of_origin? hv
  | result hv => exact isSome_of_origin? hv
  | accessor hv => exact isSome_of_origin? hv

/-- The accessors on a static way are listed, and none of them is a computed one. -/
theorem Static.accessChain_eq (h : b.Static v) (fuel : Nat) :
    ∃ path, b.accessChain fuel v = .ok path ∧ ∀ x ∈ path, b.isDynamic x = .ok false := by
  induction fuel generalizing v with
  | zero => exact ⟨[], rfl, by simp⟩
  | succ fuel ih =>
    rw [accessChain]
    cases h with
    | argument hv =>
      rw [definer_of_argument hv]
      exact ⟨[], rfl, by simp⟩
    | @result _ x _ op hv hop hk =>
      rw [definer_of_result hv]
      change ∃ path, (b.kindOf x >>= fun kind => if kind.isAccessor then _ else _) = _ ∧ _
      rw [kindOf_eq_ok hop]
      change ∃ path, (if op.kind.isAccessor then _ else _) = _ ∧ _
      rw [if_neg (by simp [hk])]
      exact ⟨[], rfl, by simp⟩
    | @accessor _ u x _ op hv hop hk hu hx h =>
      obtain ⟨path, hp, hpath⟩ := ih h
      rw [definer_of_result hv]
      change ∃ path, (b.kindOf x >>= fun kind => if kind.isAccessor then _ else _) = _ ∧ _
      rw [kindOf_eq_ok hop]
      change ∃ path, (if op.kind.isAccessor then (do return x :: (← b.accessChain fuel (← b.operand x 0))) else _) = _ ∧ _
      rw [if_pos hk, operand_eq_ok hop hu]
      change ∃ path', (do return x :: (← b.accessChain fuel u)) = _ ∧ _
      rw [hp]
      exact ⟨x :: path, rfl, List.forall_mem_cons.2 ⟨hx, hpath⟩⟩

/-- A write to a value that is reached by static accessors needs no guards. -/
theorem Static.writePath_eq {op : Operation} (h : b.Static v) (hop : b.op? x = some op)
    (hv : op.operands[0]? = some v) : b.writePath x = .ok [] := by
  obtain ⟨path, hp, hpath⟩ := h.accessChain_eq b.ops.size
  unfold writePath
  rw [operand_eq_ok hop hv]
  change (b.accessChain b.ops.size v >>= b.trimStatic) = _
  rw [hp]
  exact trimStatic_eq hpath

end Scalarize.Body
