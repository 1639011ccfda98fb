import Scalarize.Proofs.Edits.Ports

/-!
# What stands, and the symbols that it carries

* `Body.standing?` : the kind of an operation that stands, and what each edit does to it;
* `Symbols.Labels` : a symbol is made, or none; `Decl.labels_forPart` and the like : what new
  declarations carry.
-/

namespace Scalarize

open Body

/-! ## Standing operations -/

namespace Body

variable {b b' : Body} {x x' : OpId} {k : OpKind}

/-- Kind of an operation, if it stands. -/
def standing? (b : Body) (x : OpId) : Option OpKind :=
  (b.op? x).bind fun op => if op.erased then none else some op.kind

theorem standing?_eq_some_iff : b.standing? x = some k ↔
    ∃ op, b.op? x = some op ∧ op.erased = false ∧ op.kind = k := by
  unfold standing?
  cases b.op? x with
  | none => simp
  | some op => cases he : op.erased <;> simp [he]

/-- What stands is read off the kind that the table holds. -/
theorem standing?_eq (h : b.stands x) : b.standing? x = b.kind? x := by
  change b.standing? x = (b.op? x).map (·.kind)
  rw [stands_eq] at h
  unfold standing?
  cases hop : b.op? x with
  | none => rfl
  | some op =>
    rw [hop, Option.any_some] at h
    simp [show op.erased = false by simpa using h]

theorem Walked.standing? (h : b.Walked x) : b.standing? x = b.kind? x := standing?_eq h.stands

theorem standing?_of_op? {op : Operation} (h : b.op? x = some op) (he : op.erased = false) :
    b.standing? x = some op.kind := standing?_eq_some_iff.2 ⟨op, h, he, rfl⟩

@[simp] theorem standing?_compact (b : Body) (x : OpId) : b.compact.standing? x = b.standing? x := rfl

theorem Created.standing? {p : Point} {kind : OpKind} {vs : List ValueId} {tys : List Ty}
    (h : Created b p kind vs tys x b') (x' : OpId) :
    b'.standing? x' = if x' = x then some kind else b.standing? x' := by
  unfold Body.standing?
  rw [h.op?]
  split <;> rfl

theorem standing?_modifyDecl (b : Body) (x : OpId) (f : Decl → Decl) (x' : OpId) :
    (b.modifyDecl x f).standing? x' =
      if x' = x then (b.standing? x').map (·.mapDecl f) else b.standing? x' := by
  unfold standing?
  rw [op?_modifyDecl]
  cases b.op? x' with
  | none => simp
  | some op => split <;> cases he : op.erased <;> simp [he]

theorem Replaced.standing? {v w : ValueId} (h : Replaced b v w b') (x' : OpId) :
    b'.standing? x' = b.standing? x' := by
  unfold Body.standing?
  rw [h.op?]
  cases b.op? x' <;> rfl

theorem Dropped.standing?_some {f : Bool → Bool} (hf : f true = true) (h : Dropped b x f b')
    (hk : b'.standing? x' = some k) : b.standing? x' = some k := by
  obtain ⟨op', hop', he, rfl⟩ := standing?_eq_some_iff.1 hk
  rw [h.op?] at hop'
  obtain ⟨op, hop, rfl⟩ := Option.map_eq_some_iff.1 hop'
  have he' : op.erased = false := by
    cases he' : op.erased with
    | false => rfl
    | true =>
      by_cases hx : x' = x
      · rw [if_pos hx] at he
        simp [he', hf] at he
      · rw [if_neg hx, he'] at he
        exact he
  refine (standing?_of_op? hop he').trans ?_
  split <;> rfl

theorem Rearranged.standing?_some (h : Rearranged b b') (hk : b'.standing? x' = some k) :
    b.standing? x' = some k := by
  obtain ⟨op', hop', he, rfl⟩ := standing?_eq_some_iff.1 hk
  obtain ⟨op, hop⟩ := Option.isSome_iff_exists.1 (h.old hop')
  obtain ⟨op'', hop'', hkind, -, -, herased, -⟩ := h.op? hop
  obtain rfl := Option.some.inj (hop'.symm.trans hop'')
  rw [hkind]
  refine standing?_of_op? hop ?_
  cases he' : op.erased with
  | false => rfl
  | true => rw [herased he'] at he; cases he

end Body

/-- An operation of the body at first counts if it was walked, and every new one does. -/
def Body.Counts (b₀ : Body) (x : OpId) : Prop := (b₀.op? x).isSome → b₀.Walked x

theorem Body.Edited.counts {b₀ b : Body} {x : OpId} (h : b₀.Edited b) (hb : b₀.Coherent) (hx : b.Walked x) :
    b₀.Counts x := h.walked hb hx

/-- What was replaced stands no more. -/
theorem Replacement.standing? {cx : Context} {b₀ b : Body} {o : OpId} {op : Operation} {ps : List Part}
    (h : Replacement cx b₀ o op ps b) : b.standing? o = none := by
  unfold Body.standing?
  cases hop : b.op? o with
  | none => rfl
  | some op' => simp [h.erased hop]

/-! ## New symbols -/

/-- A symbol is made, unless none is needed; it was not taken, and now it is. -/
inductive Symbols.Labels (y : Symbols) : Option String → Symbols → Prop
  | none : Labels y none y
  | some {s : String} {y' : Symbols} (taken : y'.names.taken = s :: y.names.taken)
      (new : s ∉ y.names.taken) : Labels y (some s) y'

namespace Symbols

theorem labels_fresh (y : Symbols) (text : String) :
    y.Labels (some (y.fresh text).1) (y.fresh text).2 :=
  .some (y.names.taken_fresh text) (y.names.fresh_not_mem text)

theorem labels_derive (y : Symbols) (base suffix : String) (ground : Bool) (kind : TargetKind) :
    y.Labels (some (y.derive base suffix ground kind).1) (y.derive base suffix ground kind).2 := by
  have h := y.labels_fresh (base ++ suffix)
  unfold derive
  dsimp only
  split
  all_goals
    cases h with
    | some taken new => exact .some taken new

theorem labels_detached (y : Symbols) (name : Option String) (suffix : String) :
    y.Labels (some (y.detached name suffix).1) (y.detached name suffix).2 := by
  unfold detached
  cases name.filter (· ≠ "") with
  | some name =>
    cases y.labels_fresh (name ++ suffix) with
    | some taken new => exact .some taken new
  | none =>
    cases ({ y with generated := y.generated + 1 } : Symbols).labels_fresh
      (generatedName y.generated ++ suffix) with
    | some taken new => exact .some taken new

end Symbols

theorem Decl.labels_forPart (d : Decl) (part : Part) (r : Restricted) (y : Symbols) (x : OpId) :
    y.Labels (d.forPart part r y x).1.sym (d.forPart part r y x).2 := by
  unfold forPart
  dsimp only
  split
  · exact y.labels_derive _ _ _ _
  · split
    · exact y.labels_detached _ _
    · exact .none

theorem Port.labels_narrow {p n : Port} {part : Part} {y y' : Symbols}
    (h : p.narrow part y = .ok (n, y')) : y.Labels n.sym y' := by
  have hends : Ends False (p.narrow part y) fun r => y.Labels r.1.sym r.2 := by
    refine Ends.bind (P := fun _ => True) (.intro (fun _ _ => trivial) nofun) fun r _ => ?_
    cases p.sym with
    | some base => exact .pure (y.labels_derive _ _ _ _)
    | none =>
      dsimp only
      split
      · exact .pure (y.labels_detached _ _)
      · exact .pure .none
  exact hends.of_ok h

end Scalarize
