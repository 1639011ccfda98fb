import Scalarize.Lower.Symbols
import Scalarize.Proofs.InFront

/-!
# Targets of split symbols

* `Symbols.Targets` : a property of all targets; `Symbols.Targets.derive` and the like : what each way to
  a new symbol does to it;
* `Body.Tracked` : every target is a declaration of the body.
-/

namespace Scalarize

theorem Assoc.mem_put {κ ν : Type} [DecidableEq κ] {l : Assoc κ ν} {k : κ} {v : ν} {e : κ × ν}
    (h : e ∈ l.put k v) : e ∈ l ∨ e.2 = v := by
  induction l with
  | nil =>
    rw [List.mem_singleton.1 h]
    exact .inr rfl
  | cons f l ih =>
    obtain ⟨j, w⟩ := f
    rw [put] at h
    split at h
    · rcases List.mem_cons.1 h with rfl | h
      · exact .inr rfl
      · exact .inl (List.mem_cons_of_mem _ h)
    · rcases List.mem_cons.1 h with rfl | h
      · exact .inl List.mem_cons_self
      · exact (ih h).imp_left (List.mem_cons_of_mem _)

theorem Assoc.mem_of_get? {κ ν : Type} [DecidableEq κ] {l : Assoc κ ν} {k : κ} {v : ν}
    (h : l.get? k = some v) : (k, v) ∈ l := by
  induction l with
  | nil => cases h
  | cons f l ih =>
    obtain ⟨j, w⟩ := f
    rw [get?] at h
    split at h
    next hj =>
      rw [Option.some.inj h, hj]
      exact List.mem_cons_self
    next => exact List.mem_cons_of_mem _ (ih h)

namespace Symbols

variable {y : Symbols} {C C' : Target → Prop}

/-- All targets have the property. -/
def Targets (y : Symbols) (C : Target → Prop) : Prop := ∀ e ∈ y.targets, ∀ t ∈ e.2, C t

namespace Targets

theorem mono (h : y.Targets C) (hC : ∀ t, C t → C' t) : y.Targets C' :=
  fun e he t ht => hC t (h e he t ht)

theorem fresh (h : y.Targets C) (text : String) : (y.fresh text).2.Targets C := h

theorem detached (h : y.Targets C) (name : Option String) (suffix : String) :
    (y.detached name suffix).2.Targets C := by
  have ht : (y.detached name suffix).2.targets = y.targets := by
    unfold Symbols.detached
    cases name.filter (· ≠ "") <;> rfl
  unfold Targets
  rw [ht]
  exact h

/-- Only the new symbol may become a target, and only for a ground part. -/
theorem derive (h : y.Targets C) {base suffix : String} {ground : Bool} {kind : TargetKind}
    (hC : ground = true → C ⟨(y.derive base suffix ground kind).1, kind⟩) :
    (y.derive base suffix ground kind).2.Targets C := by
  have ht : (y.derive base suffix ground kind).2.targets = y.targets ∨
      ground = true ∧ ∃ root, (y.derive base suffix ground kind).2.targets = y.targets.adjust root []
        (· ++ [⟨(y.derive base suffix ground kind).1, kind⟩]) := by
    unfold Symbols.derive
    dsimp only
    split
    next hg => exact .inr ⟨(by simpa using (Bool.and_eq_true_iff.1 hg).1), _, rfl⟩
    next => exact .inl rfl
  intro e he t hmem
  rcases ht with ht | ⟨hg, root, ht⟩
  · rw [ht] at he
    exact h e he t hmem
  · rw [ht] at he
    rcases Assoc.mem_put he with he | he
    · exact h e he t hmem
    · rw [he] at hmem
      rcases List.mem_append.1 hmem with hmem | hmem
      · cases hget : y.targets.get? root with
        | none =>
          rw [hget] at hmem
          cases hmem
        | some ts =>
          rw [hget] at hmem
          exact h _ (Assoc.mem_of_get? hget) t hmem
      · rw [List.mem_singleton.1 hmem]
        exact hC hg

end Targets

theorem targets_ofModule (m : Module) (generated : Nat) : (ofModule m generated).Targets C := by
  intro e he
  cases he

end Symbols

namespace Body

variable {b b' : Body} {y : Symbols}

/-- The operation carries a declaration. -/
def Declared (b : Body) (o : OpId) : Prop := ∃ op, b.op? o = some op ∧ op.kind.decl?.isSome

/-- Every target is a declaration of the body. -/
def Tracked (b : Body) (y : Symbols) : Prop :=
  y.Targets fun t => ∃ o, t.kind = .operation o ∧ b.Declared o

theorem isSome_decl?_of_bare_eq {k k' : OpKind} (h : k.bare = k'.bare) :
    k.decl?.isSome = k'.decl?.isSome := by
  have hb : ∀ k : OpKind, k.bare.decl?.isSome = k.decl?.isSome := fun k => by cases k <;> rfl
  rw [← hb k, h, hb]

theorem Declared.persists {o : OpId} (h : b.Declared o) (hb : Persists b b') : b'.Declared o := by
  obtain ⟨op, hop, hd⟩ := h
  obtain ⟨op', hop', hbare, -⟩ := hb.op? hop
  exact ⟨op', hop', by rw [isSome_decl?_of_bare_eq hbare, hd]⟩

theorem Declared.outlives {o : OpId} (h : b.Declared o) (hb : Outlives b b') : b'.Declared o := by
  obtain ⟨op, hop, hd⟩ := h
  obtain ⟨op', hop', hk, -⟩ := hb.op?_some hop
  exact ⟨op', hop', by rw [hk, hd]⟩

theorem Tracked.persists (h : b.Tracked y) (hb : Persists b b') : b'.Tracked y :=
  h.mono fun _ ⟨o, ho, hd⟩ => ⟨o, ho, hd.persists hb⟩

theorem Tracked.outlives (h : b.Tracked y) (hb : Outlives b b') : b'.Tracked y :=
  h.mono fun _ ⟨o, ho, hd⟩ => ⟨o, ho, hd.outlives hb⟩

end Body

end Scalarize
