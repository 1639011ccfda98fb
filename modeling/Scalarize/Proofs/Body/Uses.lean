import Scalarize.Proofs.Completeness
import Scalarize.Proofs.Reachable

/-!
# Use lists

* `Body.Formed` : what any number of edits makes of the empty body, guards over any blocks included;
* `Edit.exact`, `Formed.exact` : every edit keeps the use lists exact;
* `Body.Accounted` : use lists count every read once, and the readers of a value are known;
* `Formed.accounted` : they do in every body that is formed.
-/

namespace Scalarize.Body

variable {b b' : Body} {o : OpId} {v : ValueId}

/-! ## Edits -/

/-- Edits lead from the empty body to this one. An operation made from its parts may guard any blocks. -/
inductive Formed : Body → Prop
  | empty : Formed {}
  | edit {b b' : Body} (h : Formed b) (he : b.Edit b') : Formed b'
  | create {s s' : Builder} {kind : OpKind} {vs : List ValueId} {tys : List Ty} {o : OpId} (h : Formed s.body)
      (he : (Build.create kind vs tys).run s = .ok (o, s')) : Formed s'.body
  | block {b : Body} (h : Formed b) (parent : OpId) : Formed (b.createBlock parent).2

theorem Reachable.formed (h : b.Reachable) : b.Formed := by
  induction h with
  | empty => exact .empty
  | edit _ he ih => exact ih.edit he

/-- Operations are erased one after the other, whatever reads them. -/
theorem Exact.discardEach (h : b.Exact) (os : List OpId) : Ends False (os.foldlM discard b) Exact :=
  Ends.foldlM (fun _ b => b.Exact) os h fun _ _ _ _ _ hb =>
    (discard_ends nofun).mono fun _ hd => hb.dropped rfl hd

theorem Exact.eraseOp (h : b.Exact) : Ends False (b.eraseOp o) Exact := by
  unfold Body.eraseOp
  refine Ends.bind (P := fun _ => True) (.intro (fun _ _ => trivial) nofun) fun read _ => ?_
  split
  · exact .throw id
  · exact h.discardEach _

/-- Every edit keeps the use lists exact. -/
theorem Edit.exact (he : b.Edit b') (h : b.Exact) : b'.Exact := by
  cases he with
  | insertArgument he => exact ((insertArgument_ends (nofun : False → _)).of_ok he).1.exact h
  | removeArgument he => exact ((removeArgument_ends (nofun : False → _)).of_ok he).1.exact h
  | create hk he =>
    obtain ⟨b, hc, hs⟩ := (Build.create_any hk _ _).of_ok he
    obtain rfl := congrArg Builder.body hs
    exact h.joined hc.toJoined
  | call c he =>
    rcases (Build.Call.run_ends c).of_ok he with ⟨_, _, _, _, _, hc, -⟩ | hs
    · exact h.joined hc.toJoined
    · exact (show _ = _ from hs) ▸ h
  | declare => exact h.modifyDecl _ _
  | dropOperands he => exact h.dropped rfl ((dropOperands_ends (nofun : False → _)).of_ok he)
  | replaceAllUses he =>
    rcases (replaceAllUses_any h).of_ok he with rfl | ⟨hne, hv, hw, hr⟩
    · exact h
    · exact h.replaced hr hv hw hne
  | eraseOp he => exact h.eraseOp.of_ok he
  | compact => exact h.blocks _

/-- The use lists of every body that edits lead to are exact. -/
theorem Formed.exact (h : b.Formed) : b.Exact := by
  induction h with
  | empty => exact Sound.empty.coherent.toExact
  | edit _ he ih => exact he.exact ih
  | @create s _ kind vs tys _ _ he ih =>
    -- the blocks of the new operation do not matter
    have hends : Runs False (Build.create kind vs tys) s fun _ s' => s'.body.Exact :=
      Ends.bind (insertOp_ends (nofun : False → _)) fun r hr => .pure (ih.joined hr.toJoined)
    exact hends.of_ok he
  | block _ _ ih => exact ih.blocks _

/-! ## Reads -/

/-- Use lists count every read of a value once and nothing else, and what is asked of them agrees with the operands
that operations have. -/
structure Accounted (b : Body) : Prop where
  count : ∀ {v x}, b.value? v = some x → ∀ o i,
    x.uses.count ⟨o, i⟩ = if (b.op? o).bind (·.operands[i]?) = some v then 1 else 0
  inTable : ∀ {o op v}, b.op? o = some op → v ∈ op.operands → (b.value? v).isSome
  users : ∀ {v}, (b.value? v).isSome → ∃ us, b.users v = .ok us ∧ us.Nodup ∧ ∀ o, o ∈ us ↔ b.Reads o v
  hasUses : ∀ {v}, (b.value? v).isSome → ∃ r, b.hasUses v = .ok r ∧ (r = true ↔ ∃ o, b.Reads o v)
  opHasUses : ∀ {o}, (b.op? o).isSome → ∃ r, b.opHasUses o = .ok r ∧ (r = true ↔ b.ResultRead o)
  erased : ∀ {o op}, b.op? o = some op → op.erased → ∀ {v x}, b.value? v = some x → ∀ i, ⟨o, i⟩ ∉ x.uses

/-- Use lists account for all reads, whatever edits led to the body. -/
theorem Formed.accounted (h : b.Formed) : b.Accounted where
  count {v x} hv o i := by
    have hexact := h.exact
    have hmem : ⟨o, i⟩ ∈ x.uses ↔ (b.op? o).bind (·.operands[i]?) = some v := by
      rw [hexact.mem_uses hv, Option.bind_eq_some_iff]
    split
    next hread => exact List.count_eq_one_of_mem (hexact.nodup_uses hv) (hmem.2 hread)
    next hread => exact List.count_eq_zero.2 fun hu => hread (hmem.1 hu)
  inTable hop hv := isSome_value?.2 (h.exact.operand hop hv)
  users hv := (h.exact.users_ends fun _ => hv).exists_ok trivial
  hasUses hv := (h.exact.hasUses_ends fun _ => hv).exists_ok trivial
  opHasUses ho := (h.exact.opHasUses_ends fun _ => ho).exists_ok trivial
  erased hop he v x hv i hu := by
    obtain ⟨op, hop', hread⟩ := (h.exact.mem_uses hv).1 hu
    obtain rfl := Option.some.inj (hop.symm.trans hop')
    rw [h.exact.erased hop he] at hread
    cases hread

theorem Formed.accounted_node : nodeBody.Formed ∧ nodeBody.Accounted := by
  have hformed : nodeBody.Formed := (nodeCircuit_built.reachable _ List.mem_cons_self rfl).formed
  exact ⟨hformed, hformed.accounted⟩

end Scalarize.Body
