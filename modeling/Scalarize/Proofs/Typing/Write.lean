import Scalarize.Proofs.Step.Write
import Scalarize.Proofs.Typing.Step

/-!
# Connections of well-typed bodies

* `Body.reaccess_gives`, `Body.retrace_gives` : the same access, and the same path, from another value;
* `Body.Meets.guardedWrite_refits`, `Meets.writePath_refits`, `Meets.connect_refits` : a connection gives way to
  guarded writes, or to one connection for each part;
* `Body.Meets.step_refits` : an operation of any kind is lowered by one layer.
-/

namespace Scalarize

open Body Lower

namespace Body

variable {b : Body} {v u w : ValueId} {x : OpId} {path : List OpId} {op : Operation} {i : Nat} {ty tu tv : Ty}

/-- The same access on another value of the type. -/
theorem reaccess_gives {t : LowerState} (hb : b.Coherent) (hw : b.WellTyped) (h : b.Refits t.builder.body)
    (hv : b.origin? v = some (.result x i)) (hop : b.op? x = some op) (hacc : op.kind.isAccessor = true)
    (hu : op.operands[0]? = some u) {leaf : ValueId} (hleaf : t.builder.body.ty? leaf = b.ty? u) :
    Runs False (reaccess x leaf) t fun w t' => t.builder.body.Refits t'.builder.body ∧
      t'.builder.body.ty? w = b.ty? v := by
  obtain ⟨op₁, hop₁, hv₁⟩ := hb.origin hv
  obtain rfl := Option.some.inj (hop.symm.trans hop₁)
  obtain ⟨ins, outs, hins, houts, hfits⟩ := hw hop (not_erased_of_reads hb hop (List.mem_of_getElem? hu))
  obtain ⟨tv, htv, hv₂⟩ := houts.getElem? hv₁
  have hone : ∀ {c}, outs = [c] → c = tv := fun ho => by
    rw [ho] at htv
    exact List.mem_singleton.1 (List.mem_of_getElem? htv) |>.symm
  rw [hv₂]
  obtain ⟨op', hop', hbare, -⟩ := h.op? hop
  refine Runs.bind_body (P := (op.kind = ·)) (kindOf_ends (fun op₁ hop₁ => ?_) nofun) ?_
  · rw [Option.some.inj (hop₁.symm.trans hop')]
    refine OpKind.eq_of_bare_eq hbare.symm ?_
    cases hk : op.kind <;> rw [hk] at hacc <;> first | rfl | cases hacc
  rintro _ rfl
  cases hk : op.kind with
  | subfield j =>
    rw [hk] at hfits
    obtain ⟨t, c, rfl, hc, ho⟩ := hfits
    rw [hins.getElem?_eq hu rfl] at hleaf
    exact Runs.build ((Build.subfield_gives h.coherent hleaf j).mono fun _ _ ⟨c', hc', hg⟩ =>
      ⟨hg.refits, by rw [hg.ty?, ← hc', hc, hone ho]⟩)
  | subindex j =>
    rw [hk] at hfits
    obtain ⟨t, c, rfl, hc, ho⟩ := hfits
    rw [hins.getElem?_eq hu rfl] at hleaf
    exact Runs.build ((Build.subindex_gives h.coherent hleaf j).mono fun _ _ ⟨c', hc', hg⟩ =>
      ⟨hg.refits, by rw [hg.ty?, ← hc', hc, hone ho]⟩)
  | subaccess =>
    rw [hk] at hfits
    obtain ⟨e, n, a, rfl, ho⟩ := hfits
    rw [hins.getElem?_eq hu rfl] at hleaf
    refine Runs.bind_body (P := fun index => (t.builder.body.ty? index).isSome)
      (operand_ends (fun op₁ index hop₁ hindex => ?_) nofun) fun index hindex => ?_
    · exact isSome_ty?.2 (h.coherent.operand hop₁ (List.mem_of_getElem? hindex))
    · exact Runs.build ((Build.subaccess_gives h.coherent hleaf hindex).mono fun _ _ hg =>
        ⟨hg.refits, hone ho ▸ hg.ty?⟩)
  | _ =>
    rw [hk] at hacc
    cases hacc

/-- A path is made again, from another value of the type. -/
theorem retrace_gives (hb : b.Coherent) (hw : b.WellTyped) (hl : b.Leads v path u) :
    ∀ {t : LowerState} {leaf : ValueId}, b.Refits t.builder.body → t.builder.body.ty? leaf = b.ty? u →
    Runs False (path.reverse.foldlM (fun leaf x => reaccess x leaf) leaf) t fun w t' =>
      t.builder.body.Refits t'.builder.body ∧ t'.builder.body.ty? w = b.ty? v := by
  induction hl with
  | nil => exact fun h hleaf => .pure ⟨.refl h.coherent _, hleaf⟩
  | @cons v u w x i op path hv hop hacc hu _ ih =>
    intro t leaf h hleaf
    rw [List.reverse_cons, List.foldlM_append]
    refine (ih h hleaf).bind fun w t' ⟨h', hw'⟩ => ?_
    rw [List.foldlM_cons]
    refine (reaccess_gives hb hw (h.trans h') hv hop hacc hu hw').bind fun w' t'' ⟨h'', hw''⟩ => ?_
    exact .pure ⟨h'.trans h'', hw''⟩

end Body

namespace Body.Meets

variable {cx : Context} {t : LowerState} {o : OpId} {op : Operation}

/-- A write to one element. -/
theorem guardedWrite_refits {b : Body} (hb : b.Coherent) (hw : b.WellTyped) (h : b.Refits t.builder.body)
    (strict : Bool) {dest vector index src u : ValueId} {e : Ty} {n : Nat} {inner : List OpId}
    (hl : b.Leads dest inner u) (hu : b.ty? u = some e) (hvector : b.ty? vector = some (.vector e n))
    {ty : Ty} (hdest : b.ty? dest = some ty) (hsrc : b.ty? src = some ty) (width element : Nat) :
    Runs False (guardedWrite strict vector index src width inner element) t fun _ t' => b.Refits t'.builder.body := by
  refine Runs.bind_build (Build.createValue_gives h.coherent rfl fun _ => trivial) fun position s₁ h₁ => ?_
  refine Runs.bind_build (Build.prim_gives h₁.refits.coherent _ _ _) fun cond s₂ h₂ => ?_
  refine Runs.bind_build (when_runs s₂ cond false nofun) ?_
  rintro ⟨g, k, else?⟩ s₃ ⟨hc, -, -⟩
  have h₃ : s₂.body.Refits s₃.body := .created h₂.refits.coherent hc (fun _ => trivial) _
  have hguard := ((h.trans h₁.refits).trans h₂.refits).trans h₃
  refine Runs.bind_point (Runs.bind_moveTo ?_)
  refine Runs.bind_build (Build.element_gives (s := ⟨s₃.body, ⟨k, 0⟩⟩) hguard.coherent (hguard.ty? hvector)
    element) fun leaf s₄ h₄ => ?_
  have hleaf := hguard.trans h₄.refits
  refine (retrace_gives hb hw hl (t := ⟨s₄, t.symbols⟩) hleaf (h₄.ty?.trans hu.symm)).bind fun w t₅ ⟨h₅, hw₅⟩ => ?_
  have hlast := hleaf.trans h₅
  refine Runs.bind_build (Build.connect_gives hlast.coherent strict (hw₅.trans hdest) (hlast.ty? hsrc)) fun _ s₆ h₆ => ?_
  exact Runs.build (.moveTo (hlast.trans h₆))

/-- A write through a computed access gives way to one guarded write for each element; its operation, which
loses its operands, is to be erased. -/
theorem writePath_refits (h : t.builder.body.Meets o op) {strict : Bool} (hk : op.kind = .connect strict) :
    Runs False (Lower.writePath o strict) t fun written t' =>
      if written then t.builder.body.RefitsBut (· = o) t'.builder.body else t' = t := by
  obtain ⟨ins, outs, hins, houts, hfits⟩ := h.fitted
  rw [hk] at hfits
  obtain ⟨ty, rfl⟩ := hfits
  refine Runs.bind_body (writePath_leads h.op?) fun path ⟨dest, rest, root, hdest, hl, hdyn⟩ => ?_
  split
  next access hlast =>
    obtain ⟨inner, rfl⟩ : ∃ inner, path = inner ++ [access] := List.getLast?_eq_some_iff.1 hlast
    rw [List.append_assoc] at hl
    obtain ⟨v, hinner, hrest⟩ := hl.split
    cases hrest with
    | @cons _ vector _ _ i opa _ hv hopa hacc hvector _ =>
    -- the outermost access reads a vector, and makes an element of it
    obtain ⟨opa', hopa', hv'⟩ := h.coherent.origin hv
    obtain rfl := Option.some.inj (hopa.symm.trans hopa')
    obtain ⟨insa, outsa, hinsa, houtsa, hfitsa⟩ :=
      h.wellTyped hopa (not_erased_of_reads h.coherent hopa (List.mem_of_getElem? hvector))
    rw [kind_of_isDynamic hopa (hdyn access hlast)] at hfitsa
    obtain ⟨e, n, x, rfl, rfl⟩ := hfitsa
    obtain ⟨e', he', hv''⟩ := houtsa.getElem? hv'
    obtain rfl := List.mem_singleton.1 (List.mem_of_getElem? he')
    have hvector' := hinsa.getElem?_eq hvector rfl
    refine Runs.bind_body (P := (vector = ·)) (Body.operand_ends (fun op' v hop' hv => ?_) nofun) ?_
    · obtain rfl := Option.some.inj (hopa.symm.trans hop')
      exact Option.some.inj (hvector.symm.trans hv)
    rintro _ rfl
    refine Runs.bind_any fun index _ => Runs.bind_body (h.operand_ends 1) fun src hsrc => Runs.bind_any fun en _ => ?_
    rw [List.dropLast_concat]
    refine Runs.bind (Runs.forM (fun _ t' => t.builder.body.Refits t'.builder.body) _ (.refl h.coherent _)
      fun _ element _ t' _ h' => guardedWrite_refits h.coherent h.wellTyped h' strict hinner hv'' hvector'
        (hins.getElem?_eq hdest rfl) (hins.getElem?_eq hsrc rfl) _ element) fun _ t₁ h₁ => ?_
    refine Runs.bind_change (dropOperands_refits (o := o) h₁.coherent) fun b₂ h₂ => ?_
    have h₁₂ := (h₁.mono fun _ => False.elim).trans h₂
    refine Runs.bind_change (eraseUnread_refits h₂.coherent fun y hy => ?_) fun b₃ h₃ =>
      .pure (h₁₂.trans (h₃.mono fun _ => False.elim))
    obtain ⟨op', hop', hacc'⟩ := hl.exists_accessor (List.append_assoc inner _ _ ▸ List.mem_append_left rest hy)
    obtain ⟨op₂, hop₂, hbare, -⟩ := h₁₂.op? hop'
    exact ⟨op₂, hop₂, (OpKind.blocks_eq_of_bare_eq hbare).trans (OpKind.blocks_of_isAccessor hacc')⟩
  next => exact .pure rfl

/-- One part of a connection. -/
theorem connectPart_refits {s : Builder} (hb : s.body.Coherent) (strict : Bool) {dest src : ValueId} {ty : Ty}
    (hd : s.body.ty? dest = some ty) (hs : s.body.ty? src = some ty) {part : Part}
    (hc : ty.child? part.index = some part.ty) :
    Runs False (connectPart strict dest src part) s fun _ s' => s.body.Refits s'.body := by
  refine (Build.part_gives hb hs hc).bind fun v s₁ h₁ => ?_
  refine (Build.part_gives h₁.refits.coherent (h₁.refits.ty? hd) hc).bind fun w s₂ h₂ => ?_
  have hboth := h₁.refits.trans h₂.refits
  split
  · exact (Build.connect_gives hboth.coherent strict (h₂.refits.ty? h₁.ty?) h₂.ty?).bind
      fun _ _ h₃ => .pure (hboth.trans h₃)
  · exact (Build.connect_gives hboth.coherent strict h₂.ty? (h₂.refits.ty? h₁.ty?)).bind
      fun _ _ h₃ => .pure (hboth.trans h₃)

/-- A step over an operation keeps the rule, but for the operation itself if it was replaced. -/
def Steps (b : Body) (o : OpId) (replaced : Bool) (t : LowerState) : Prop :=
  if replaced then b.RefitsBut (· = o) t.builder.body else b.Refits t.builder.body

theorem Steps.of_refits {b : Body} (h : b.Refits t.builder.body) (replaced : Bool) : Steps b o replaced t := by
  unfold Steps
  split
  · exact h.mono fun _ => False.elim
  · exact h

theorem connect_refits (h : t.builder.body.Meets o op) {strict : Bool} (hk : op.kind = .connect strict) :
    Runs False (connect o strict) t (Steps t.builder.body o) := by
  refine (h.writePath_refits hk).bind fun written t₁ h₁ => ?_
  cases written with
  | true => exact .pure h₁
  | false =>
    obtain rfl : t₁ = t := h₁
    obtain ⟨ins, outs, hins, houts, hfits⟩ := h.fitted
    rw [hk] at hfits
    obtain ⟨ty, rfl⟩ := hfits
    refine Runs.bind_body (h.operand_ends 0) fun dest hdest => Runs.bind_body (h.operand_ends 1) fun src hsrc => ?_
    have hd := hins.getElem?_eq hdest rfl
    have hs := hins.getElem?_eq hsrc rfl
    refine Runs.bind_body (P := (ty = ·)) (typeOf_ends (fun ty' hty' => ?_) nofun) ?_
    · exact Option.some.inj (hd.symm.trans hty')
    rintro _ rfl
    refine Runs.bind_except (Ty.peel_ends (nofun : False → _)) fun ps? hps => ?_
    split
    next parts =>
      have hps : ty.PartsOf parts := hps.1
      refine Runs.bind (Runs.forM (fun _ t' => t₁.builder.body.Refits t'.builder.body) parts (.refl h.coherent _)
        fun _ part _ t' hl h' => Runs.build ((connectPart_refits h'.coherent strict (h'.ty? hd) (h'.ty? hs)
          (hps.child_index (hl ▸ List.mem_append_right _ List.mem_cons_self))).mono fun _ _ => h'.trans))
        fun _ t' h' => .pure (.of_refits h' _)
    next => exact .pure (.of_refits (.refl h.coherent _) _)

/-- An operation of any kind is lowered by one layer. -/
theorem step_refits (h : t.builder.body.Meets o op) :
    Runs False (Lower.step cx o op.kind) t (Steps t.builder.body o) := by
  have hother : ∀ {f : Lower Bool}, Runs False f t (fun _ t' => t.builder.body.Refits t'.builder.body) →
      Runs False f t (Steps t.builder.body o) := fun hf => hf.mono fun _ _ h => .of_refits h _
  have hproducer := hother (h.producer_refits cx.options.preserveAggregate)
  cases hk : op.kind with
  | bitcast => exact hother (h.bitcast_refits hk)
  | subaccess => exact hother (h.subaccess_refits hk)
  | connect strict => exact h.connect_refits hk
  | mem m => exact hother (h.memory_refits hk)
  | inst i => exact hother (h.inst_refits i)
  | _ =>
    rw [hk] at hproducer
    exact hproducer

/-- The operation is erased in the end, if it was replaced. -/
theorem erase_refits {b : Body} {replaced : Bool} (h : b.Meets o op) (hk : op.kind.blocks = [])
    (ht : Steps b o replaced t) :
    Ends False (if replaced then t.builder.body.eraseOp o else .ok t.builder.body) b.Refits := by
  unfold Steps at ht
  cases replaced with
  | false => exact .ok ht
  | true =>
    rw [if_pos rfl] at ht ⊢
    obtain ⟨op', hop', hbare, -⟩ := ht.op? h.op?
    refine (eraseOp_refits ht.coherent hop' ((OpKind.blocks_eq_of_bare_eq hbare).trans hk)).mono ?_
    rintro b' ⟨h', he⟩
    refine (ht.trans (h'.mono fun _ => False.elim)).settle ?_
    rintro _ _ rfl hop
    exact he hop

end Body.Meets

end Scalarize
