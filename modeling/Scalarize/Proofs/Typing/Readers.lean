import Scalarize.Proofs.Ty
import Scalarize.Proofs.Typing.Rules

/-!
# Readers of values that give way

* `Body.replaceAllUses_refits` : a value gives way to one of its type;
* `Body.rewire_refits` : a value of a known type gives way to its parts, of the types of its children;
* `Body.handOver_refits` : the results of an instance give way to those of another.
-/

namespace Scalarize.Body

variable {b b' : Body} {o : OpId} {v w : ValueId} {t : Ty}

theorem replaceAllUses_refits (hb : b.Coherent) (hv : b.ty? v = some t) (hw : b.ty? w = some t) :
    Ends False (b.replaceAllUses v w) b.Refits := by
  refine (replaceAllUses_any hb.toExact).mono ?_
  rintro b' (rfl | ⟨hne, -, -, hr⟩)
  · exact .refl hb _
  · exact .replaced hb hr hne hv hw _

theorem eraseOp_refits (hb : b.Coherent) {op : Operation} (hop : b.op? o = some op) (hk : op.kind.blocks = []) :
    Ends False (b.eraseOp o) fun b' => b.Refits b' ∧ ∀ {op'}, b'.op? o = some op' → op'.erased := by
  refine (eraseOp_ends hb (fun op₁ hop₁ => Option.some.inj (hop.symm.trans hop₁) ▸ hk) nofun).mono fun b' h =>
    ⟨.dropped hb rfl h.dropped fun _ => rfl, fun {op'} hop' => ?_⟩
  rw [h.op?, hop, Option.map_some, if_pos rfl] at hop'
  rw [← Option.some.inj hop']

theorem dropOperands_refits (hb : b.Coherent) :
    Ends False (b.dropOperands o) (b.RefitsBut (· = o)) :=
  (dropOperands_ends nofun).mono fun _ hd => .dropped hb rfl hd fun h => absurd rfl h

/-- Accessors that nothing reads any more are erased. -/
theorem eraseUnread_refits {path : List OpId} : ∀ {b : Body}, b.Coherent →
    (∀ x ∈ path, ∃ op, b.op? x = some op ∧ op.kind.blocks = []) →
    Ends False (b.eraseUnread path) b.Refits := by
  induction path with
  | nil => exact fun hb _ => .pure (.refl hb _)
  | cons x path ih =>
    intro b hb hpath
    rw [eraseUnread]
    refine Ends.bind (P := fun _ => True) (.intro (fun _ _ => trivial) False.elim) fun r _ => ?_
    split
    · exact .pure (.refl hb _)
    obtain ⟨op, hop, hk⟩ := hpath x List.mem_cons_self
    refine Ends.bind (eraseOp_refits hb hop hk) ?_
    rintro b₁ ⟨h₁, -⟩
    refine (ih h₁.coherent fun x' hx' => ?_).mono fun _ => h₁.trans
    obtain ⟨op', hop', hk'⟩ := hpath x' (List.mem_cons_of_mem _ hx')
    obtain ⟨op₁, hop₁, hbare, -⟩ := h₁.op? hop'
    exact ⟨op₁, hop₁, (OpKind.blocks_eq_of_bare_eq hbare).trans hk'⟩

/-- Readers of a value of type `t` are accessors; each gives way to the part that it reaches. -/
theorem rewire_refits (hb : b.Coherent) (hw : b.WellTyped) (hv : b.ty? v = some t) {parts : List ValueId}
    (hparts : b.Types parts t.children) : Ends False (b.rewire v parts) b.Refits := by
  refine Ends.bind (hb.users_ends (nofun : False → _)) fun us ⟨_, hus⟩ => ?_
  refine Ends.foldlM (fun _ b' => b.Refits b') us (.refl hb _) fun done u rest b' hl hb' => ?_
  obtain ⟨op, hop, hmem⟩ := (hus u).1 (hl ▸ List.mem_append_right _ List.mem_cons_self)
  obtain ⟨op', hop', hk, hres, -⟩ := hb'.op? hop
  refine Ends.bind (P := (· = op'.kind)) (kindOf_ends (fun op₁ hop₁ => ?_) nofun) ?_
  · rw [Option.some.inj (hop₁.symm.trans hop')]
  rintro _ rfl
  split
  next => exact Ends.bind (P := fun _ => True) (.intro (fun _ _ => trivial) nofun) fun _ _ => .throw id
  next i hi =>
    split
    next => exact .throw id
    next part hpart =>
      refine Ends.bind (P := fun r => op.results[0]? = some r) (result_ends (fun op₁ r hop₁ hr => ?_) nofun)
        fun r hr => ?_
      · rwa [← hres, ← Option.some.inj (hop₁.symm.trans hop')]
      -- the part has the type of the result, which is that of the child
      have hr' : b.ty? r = t.child? i :=
        Fitted.ty?_part (hw hop (not_erased_of_reads hb hop hmem)) (OpKind.fixedIndex?_eq_of_bare_eq hk ▸ hi)
          hmem hv hr
      obtain ⟨c, hc, hpart'⟩ := hparts.getElem? hpart
      rw [Ty.getElem?_children] at hc
      have hplain : op'.kind.blocks = [] := OpKind.blocks_of_isAccessor (OpKind.isAccessor_of_fixedIndex? hi)
      refine Ends.bind (replaceAllUses_refits hb'.coherent (hb'.ty? (hr'.trans hc)) (hb'.ty? hpart'))
        fun b₁ h₁ => ?_
      obtain ⟨op₁, hop₁, hk₁, -⟩ := h₁.op? hop'
      exact (eraseOp_refits h₁.coherent hop₁ ((OpKind.blocks_eq_of_bare_eq hk₁).trans hplain)).mono
        fun _ h₂ => hb'.trans (h₁.trans h₂.1)

/-- Results give way to results of their types, or of the types of their children. -/
theorem handOver_refits {splits : List (ValueId × SplitPort)} : ∀ {b : Body} {new : List ValueId},
    b.Coherent → b.WellTyped →
    (∀ e ∈ splits, ∃ t, b.ty? e.1 = some t ∧ (e.2.types = t.children ∨ e.2.types = [t])) →
    b.Types new (splits.flatMap (·.2.types)) → Ends False (handOver splits new b) b.Refits := by
  induction splits with
  | nil => exact fun hb _ _ _ => .pure (.refl hb _)
  | cons e splits ih =>
    intro b new hb hw hsplits hnew
    obtain ⟨old, s⟩ := e
    obtain ⟨t, hold, hs⟩ := hsplits _ List.mem_cons_self
    have hmine : b.Types (new.take s.types.length) s.types := List.forall₂_take_append _ _ _ hnew
    have hrest : b.Types (new.drop s.types.length) (splits.flatMap (·.2.types)) :=
      List.forall₂_drop_append _ _ _ hnew
    have hnext : ∀ b', b.Refits b' → Ends False (handOver splits (new.drop s.types.length) b') b.Refits :=
      fun b' hb' => (ih hb'.coherent (hb'.wellTyped hw)
        (fun e he => let ⟨t, ht, h⟩ := hsplits e (List.mem_cons_of_mem _ he); ⟨t, hb'.ty? ht, h⟩)
        (hb'.types hrest)).mono fun _ => hb'.trans
    have hrewire (h : s.types = t.children) :
        Ends False (b.rewire old (new.take s.types.length)) b.Refits :=
      rewire_refits hb hw hold (h ▸ hmine)
    rw [handOver]
    dsimp only
    split
    next v hv =>
      rw [hv] at hmine
      obtain ⟨u, htypes⟩ : ∃ u, s.types = [u] := List.length_eq_one_iff.1 hmine.length_eq.symm
      rw [htypes] at hmine
      obtain ⟨w, hu, hl⟩ := hmine.singleton
      obtain rfl := (List.cons.inj hl).1
      refine Ends.bind (P := (· = t)) (typeOf_ends (fun t' ht' => ?_) nofun) ?_
      · exact Option.some.inj (ht'.symm.trans hold)
      rintro _ rfl
      split
      next he =>
        obtain rfl := (List.cons.inj (he.symm.trans htypes)).1
        exact (replaceAllUses_refits hb hold hu).bind hnext
      next hne => exact (hrewire (hs.resolve_right hne)).bind hnext
    next hne =>
      refine (hrewire (hs.resolve_right fun he => ?_)).bind hnext
      rw [he] at hmine
      obtain ⟨v, -, hv⟩ := hmine.singleton
      exact hne v (he ▸ hv)

end Scalarize.Body
