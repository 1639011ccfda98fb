import Mathlib.Logic.Function.Basic
import Scalarize.Proofs.Body.Unfolds
import Scalarize.Proofs.Readiness

/-!
# Bodies under way

* `Body.MadeBy`, `Body.Closed` : operations that read only what the operations in front of them make;
* `Lowering` : what holds of a body between any two edits, given the operations that are pending, those
  that are under way, and those that are done;
* `Lowering.created`, `Lowering.declared`, `Lowering.replaced`, `Lowering.dropped` : every edit keeps it;
* `Lowering.begin`, `Lowering.finish`, `Lowering.stay` : an operation is taken up, and is done.
-/

namespace Scalarize

namespace Body

variable {b b' : Body} {o x : OpId} {v w old new : ValueId} {Q Q' : List OpId}

/-! ## Operations that read only what is in front of them -/

/-- The value is an argument or is made by one of the operations. -/
def MadeBy (b : Body) (Q : List OpId) (v : ValueId) : Prop :=
  b.origin? v = some .argument ∨ ∃ d ∈ Q, ∃ i, b.origin? v = some (.result d i)

theorem MadeBy.mono (h : MadeBy b Q v) (hQ : Q ⊆ Q') : MadeBy b Q' v := by
  rcases h with h | ⟨d, hd, i, h⟩
  · exact .inl h
  · exact .inr ⟨d, hQ hd, i, h⟩

theorem MadeBy.lt (h : MadeBy b Q v) : v.index < b.values.size := by
  rcases h with h | ⟨d, hd, i, h⟩ <;>
  · obtain ⟨y, hy, -⟩ := origin?_eq_some_iff.1 h
    exact lt_of_value? hy

/-- Every operation reads only what the operations in front of it make. -/
def Closed (b : Body) (Q : List OpId) : Prop :=
  ∀ {Q₁ x Q₂ op v}, Q = Q₁ ++ x :: Q₂ → b.op? x = some op → v ∈ op.operands → b.MadeBy Q₁ v

namespace Closed

theorem madeBy (h : b.Closed Q) {op : Operation} (hx : x ∈ Q) (hop : b.op? x = some op)
    (hv : v ∈ op.operands) : b.MadeBy Q v := by
  obtain ⟨Q₁, Q₂, rfl⟩ := List.append_of_mem hx
  exact (h rfl hop hv).mono (List.subset_append_left _ _)

theorem of_append (h : b.Closed (Q ++ Q')) : b.Closed Q := by
  intro Q₁ x Q₂ op v he hop hv
  subst he
  exact h (by rw [List.append_assoc, List.cons_append]) hop hv

theorem append_singleton (h : b.Closed Q)
    (hx : ∀ {op v}, b.op? x = some op → v ∈ op.operands → b.MadeBy Q v) : b.Closed (Q ++ [x]) := by
  intro Q₁ y Q₂ op v he hop hv
  rcases List.eq_nil_or_concat Q₂ with rfl | ⟨Q₃, z, rfl⟩
  · obtain ⟨rfl, he⟩ := List.append_inj' he rfl
    obtain rfl : x = y := by simpa using he
    exact hx hop hv
  · rw [List.concat_eq_append, ← List.cons_append, ← List.append_assoc] at he
    obtain ⟨rfl, -⟩ := List.append_inj' he rfl
    exact h rfl hop hv

/-- Operands may be taken away. -/
theorem mono (h : b.Closed Q) (hops : ∀ {x op'}, x ∈ Q → b'.op? x = some op' →
    ∃ op, b.op? x = some op ∧ op'.operands ⊆ op.operands)
    (horigin : ∀ {v : ValueId}, v.index < b.values.size → b'.origin? v = b.origin? v) :
    b'.Closed Q := by
  intro Q₁ x Q₂ op' v he hop' hv
  obtain ⟨op, hop, hsub⟩ := hops (he ▸ List.mem_append_right _ List.mem_cons_self) hop'
  have hmade := h he hop (hsub hv)
  unfold MadeBy
  rw [horigin hmade.lt]
  exact hmade

end Closed

theorem Extends.agrees (h : Extends b b') (hb : b.Coherent) :
    Agrees b (fun v => v.index < b.values.size) b' where
  ty? hv := h.ty? hv
  origin? hv := h.origin? hv
  made {v d i} hv hr := by
    obtain ⟨op, hop, -⟩ := hb.origin hr
    obtain ⟨op', hop', hbare, hops, -⟩ := h.op? hop
    exact ⟨op, op', hop, hop', hbare, hops, fun w hw => hb.operand hop hw⟩

/-- What operations make that do not read the replaced value is as before. -/
theorem Replaced.agrees (h : Replaced b old new b') (hb : b.Coherent) (hQ : b.Closed Q)
    (hold : ∀ x ∈ Q, ¬b.Reads x old) : Agrees b (b.MadeBy Q) b' where
  ty? _ := h.outlives.ty? _
  origin? _ := h.outlives.origin? _
  made {v d i} hv hr := by
    obtain ⟨op, hop, hres⟩ := hb.origin hr
    obtain ⟨op', hop', hk, -⟩ := h.outlives.op?_some hop
    have hd : d ∈ Q := by
      rcases hv with hv | ⟨d', hd', j, hv⟩
      · rw [hr] at hv
        cases hv
      · rw [hr] at hv
        obtain ⟨rfl, rfl⟩ : d = d' ∧ i = j := by simpa using hv
        exact hd'
    refine ⟨op, op', hop, hop', by rw [hk], ?_, fun w hw => hQ.madeBy hd hop hw⟩
    rw [h.op?, hop] at hop'
    rw [← Option.some.inj hop']
    refine (List.map_congr_left fun w hw => if_neg ?_).trans (List.map_id _)
    rintro rfl
    exact hold d hd ⟨op, hop, hw⟩

/-- What an operation that loses its operands did not make is as before, if nothing reads its
results. -/
theorem Dropped.agrees {f : Bool → Bool} (hf : f true = true) (h : Dropped b o f b') (hb : b.Coherent)
    (hread : ¬b.ResultRead o) : Agrees b (fun v => ∀ i, b.origin? v ≠ some (.result o i)) b' where
  ty? _ := (h.outlives hf).ty? _
  origin? _ := (h.outlives hf).origin? _
  made {v d i} hv hr := by
    obtain ⟨op, hop, hres⟩ := hb.origin hr
    have hd : d ≠ o := by
      rintro rfl
      exact hv i hr
    refine ⟨op, op, hop, by rw [h.op?, hop, Option.map_some, if_neg hd], rfl, rfl, ?_⟩
    intro w hw j hj
    obtain ⟨opo, hopo, hresj⟩ := hb.origin hj
    exact hread ⟨opo, w, d, hopo, List.mem_of_getElem? hresj, op, hop, hw⟩

end Body

open Body

/-- `b` is being lowered: `Q` is pending, `Z` is under way, `D` is done. -/
structure Lowering (q : Setting) (b : Body) (R : OpId → Nat) (Q Z D : List OpId) : Prop where
  coherent : b.Coherent
  known : ∀ {x}, x ∈ Q ++ Z ++ D → (b.op? x).isSome
  tracked : ∀ {x op}, b.op? x = some op → op.erased = false → x ∈ Q ++ Z ++ D
  nodup : (Q ++ Z ++ D).Nodup
  typed : ∀ {x op}, x ∉ Z → b.op? x = some op → op.erased = false →
    ∃ ins outs, b.Types op.operands ins ∧ b.Types op.results outs ∧ op.kind.Shaped q.strict ins outs
  plain : ∀ {x op}, b.op? x = some op → op.erased → op.kind.blocks = []
  /-- Nothing reads what erased operations made. -/
  spent : ∀ {x op v r}, b.op? x = some op → op.erased → v ∈ op.results → ¬b.Reads r v
  settled : ∀ {x op ins outs}, x ∈ D → b.op? x = some op → op.erased = false →
    b.Types op.operands ins → b.Types op.results outs → op.kind.Settled q.cx ins outs
  closed : q.ordered → b.Closed Q
  sized : q.must → ∀ {v t}, b.ty? v = some t → t.lastId?.isSome ∧ t.depth ≤ q.depth
  ready : q.must → ∀ {x op outs}, x ∈ Q → b.op? x = some op → op.erased = false →
    b.Types op.results outs →
    b.Ready q op.kind op.operands outs ∧ b.Suffices q op.kind op.operands outs (R x)
  /-- What is done reads aggregates by fixed accessors. -/
  quiet : q.must → ∀ {x op v t}, x ∈ D → b.op? x = some op → v ∈ op.operands →
    b.ty? v = some t → t.isGround = false → op.kind.fixedIndex?.isSome
  nested : q.must → ∀ {x x'}, x ∈ Q → x' ∈ b.inner x → R x' < R x

namespace Lowering

variable {q : Setting} {b b' : Body} {R : OpId → Nat} {Q Z D : List OpId} {o x : OpId}
  {v old new : ValueId}

theorem isSome (h : Lowering q b R Q Z D) (hx : x ∈ Q ++ Z ++ D) : (b.op? x).isSome := h.known hx

theorem not_mem_of_done (h : Lowering q b R Q Z D) (hx : x ∈ D) : x ∉ Z := fun hz => by
  have := h.nodup
  rw [List.nodup_append] at this
  exact this.2.2 x (List.mem_append_right _ hz) x hx rfl

theorem not_read_of_erased (h : Lowering q b R Q Z D) {op : Operation} {i : Nat} {r : OpId}
    (hr : b.Reads r v) (hv : b.origin? v = some (.result x i)) (hop : b.op? x = some op) :
    op.erased = false := by
  cases he : op.erased with
  | false => rfl
  | true =>
    obtain ⟨op', hop', hres⟩ := h.coherent.origin hv
    rw [hop] at hop'
    obtain rfl := Option.some.inj hop'
    exact absurd hr (h.spent hop he (List.mem_of_getElem? hres))

/-- A new operation is pending. -/
theorem created (h : Lowering q b R Q Z D) {p : Point} {kind : OpKind} {vs : List ValueId}
    {ins tys : List Ty} {r : Nat} (hc : Created b p kind vs tys o b') (hins : b.Types vs ins)
    (hs : kind.Shaped q.strict ins tys)
    (hv : ∀ v ∈ vs, ∀ d i op, b.origin? v = some (.result d i) → b.op? d = some op → op.erased = false)
    (ho : q.ordered → ∀ v ∈ vs, b.MadeBy Q v)
    (hm : q.must → b.Ready q kind vs tys ∧ b.Suffices q kind vs tys r ∧
      ∀ g ∈ Q, p.block ∈ b.guardedBlocks g → r < R g) :
    Lowering q b' (Function.update R o r) (Q ++ [o]) Z D := by
  have hext := hc.extended
  have hagree := hext.agrees h.coherent
  have hnew : o ∉ Q ++ Z ++ D := fun hmem => by
    have := h.known hmem
    rw [hc.fresh] at this
    cases this
  have hold : ∀ {x op}, x ∈ Q ++ Z ++ D → b'.op? x = some op → b.op? x = some op := by
    intro x op hx hop
    rcases hc.op?_cases hop with hop | ⟨rfl, -⟩
    · exact hop
    · exact absurd hx hnew
  have hvs : ∀ v ∈ vs, v.index < b.values.size := hins.lt
  have hres := hc.types_results
  have hlt : ∀ {x op}, b.op? x = some op → ∀ v ∈ op.results, v.index < b.values.size := by
    intro x op hop v hmem
    obtain ⟨i, hi⟩ := List.mem_iff_getElem?.1 hmem
    obtain ⟨y, hy, -⟩ := origin?_eq_some_iff.1 (h.coherent.result hop hi)
    exact lt_of_value? hy
  have hreads : ∀ {r v}, b'.Reads r v → b.Reads r v ∨ v ∈ vs := by
    rintro r v ⟨op, hop, hmem⟩
    rcases hc.op?_cases hop with hop | ⟨-, rfl⟩
    · exact .inl ⟨op, hop, hmem⟩
    · exact .inr hmem
  have htypes : ∀ {vs ts}, (∀ v ∈ vs, v.index < b.values.size) → b'.Types vs ts → b.Types vs ts :=
    fun hlt ht => ht.mono fun v hv => (hext.ty? (hlt v hv)).symm
  refine
    { coherent := h.coherent.created hc, known := fun {x} hx => ?known
      tracked := fun {x op} hop he => ?tracked, nodup := ?nodup
      typed := fun {x op} hx hop he => ?typed, plain := fun {x op} hop he => ?plain
      spent := fun {x op v r} hop he hmem hr => ?spent
      settled := fun {x op ins outs} hx hop he hins houts => ?settled
      closed := fun hord => ?closed, sized := fun hmust {v t} ht => ?sized
      ready := fun hmust {x op outs} hx hop he houts => ?ready
      quiet := fun hmust {x op v t} hx hop hmem ht hg => ?quiet
      nested := fun hmust {x x'} hx hx' => ?nested }
  case known =>
    rw [hc.op?]
    split
    next => rfl
    next hxo => exact h.known (by simpa [hxo] using hx)
  case tracked =>
    rcases hc.op?_cases hop with hop | ⟨rfl, -⟩
    · have := h.tracked hop he
      simp only [List.mem_append] at this ⊢
      tauto
    · simp
  case nodup =>
    have := List.nodup_cons.2 ⟨hnew, h.nodup⟩
    refine (List.Perm.nodup_iff ?_).1 this
    rw [List.append_assoc, List.append_assoc, List.append_assoc]
    exact List.perm_middle.symm
  case typed =>
    rcases hc.op?_cases hop with hop | ⟨rfl, rfl⟩
    · obtain ⟨ins, outs, hi, ho, hs⟩ := h.typed hx hop he
      exact ⟨ins, outs, hext.types hi, hext.types ho, hs⟩
    · exact ⟨ins, tys, hext.types hins, hres, hs⟩
  case plain =>
    rcases hc.op?_cases hop with hop | ⟨rfl, rfl⟩
    · exact h.plain hop he
    · cases he
  case spent =>
    rcases hc.op?_cases hop with hop | ⟨rfl, rfl⟩
    · rcases hreads hr with hr | hmem'
      · exact h.spent hop he hmem hr
      · obtain ⟨i, hi⟩ := List.mem_iff_getElem?.1 hmem
        have := hv v hmem' x i op (h.coherent.result hop hi) hop
        rw [he] at this
        cases this
    · cases he
  case settled =>
    have hop := hold (List.mem_append_right _ hx) hop
    exact h.settled hx hop he (htypes (fun v hv => h.coherent.operand hop hv) hins)
      (htypes (hlt hop) houts)
  case closed =>
    refine Closed.append_singleton (Closed.mono (h.closed hord) (fun {x op'} hx hop' => ?_)
      hext.origin?) fun {op v} hop hmem => ?_
    · exact ⟨op', hold (by simp [hx]) hop', List.Subset.refl _⟩
    · rw [hc.op?_self] at hop
      obtain rfl := Option.some.inj hop
      unfold MadeBy
      rw [hext.origin? (hvs v hmem)]
      exact ho hord v hmem
  case sized =>
    obtain ⟨y, hy, rfl⟩ := ty?_eq_some_iff.1 ht
    rcases hc.value_cases hy with ⟨y₀, hy₀, rfl⟩ | ⟨j, ty, hty, -, rfl⟩
    · exact h.sized hmust (ty?_eq_some_iff.2 ⟨y₀, hy₀, rfl⟩)
    · exact (hm hmust).1.sized ty (List.mem_of_getElem? hty)
  case ready =>
    rcases hc.op?_cases hop with hop | ⟨rfl, rfl⟩
    · have hxo : x ≠ o := by
        rintro rfl
        rw [hc.fresh] at hop
        cases hop
      have hx : x ∈ Q := by simpa [hxo] using hx
      obtain ⟨h₁, h₂⟩ := h.ready hmust hx hop he (htypes (hlt hop) houts)
      rw [Function.update_of_ne hxo]
      exact ⟨h₁.agrees hagree fun v hv => h.coherent.operand hop hv,
        h₂.agrees hagree fun v hv => h.coherent.operand hop hv⟩
    · obtain rfl := houts.unique hres
      rw [Function.update_self]
      exact ⟨(hm hmust).1.agrees hagree hvs, (hm hmust).2.1.agrees hagree hvs⟩
  case quiet =>
    have hop := hold (List.mem_append_right _ hx) hop
    have hlt := h.coherent.operand hop hmem
    rw [hext.ty? hlt] at ht
    exact h.quiet hmust hx hop hmem ht hg
  case nested =>
    by_cases hxo : x = o
    · subst hxo
      rw [hc.inner] at hx'
      cases hx'
    · have hxQ : x ∈ Q := by simpa [hxo] using hx
      rw [Function.update_of_ne hxo]
      rcases hc.mem_inner hxo hx' with hx' | ⟨rfl, hblk⟩
      · have hxo' : x' ≠ o := by
          rintro rfl
          obtain ⟨-, op', -, hop', -⟩ := h.coherent.op?_of_mem_inner hx'
          rw [hc.fresh] at hop'
          cases hop'
        rw [Function.update_of_ne hxo']
        exact h.nested hmust hxQ hx'
      · rw [Function.update_self]
        exact (hm hmust).2.2 x hxQ hblk

/-- The declaration of a pending operation changes. -/
theorem declared (h : Lowering q b R Q Z D) {f : Decl → Decl} (ho : o ∈ Q)
    (hm : q.must → ∀ op outs, b.op? o = some op → b.Types op.results outs →
      (op.kind.mapDecl f).Declares outs) :
    Lowering q (b.modifyDecl o f) R Q Z D := by
  have hext := Extends.modifyDecl b o f
  have hagree := hext.agrees h.coherent
  have hback : ∀ {x op}, (b.modifyDecl o f).op? x = some op →
      ∃ kind, b.op? x = some { op with kind } ∧ kind.bare = op.kind.bare := op?_of_modifyDecl
  refine
    { coherent := h.coherent.modifyDecl o f, known := fun {x} hx => ?known
      tracked := fun {x op} hop he => ?tracked, nodup := h.nodup
      typed := fun {x op} hx hop he => ?typed, plain := fun {x op} hop he => ?plain
      spent := fun {x op v r} hop he hmem hr => ?spent
      settled := fun {x op ins outs} hx hop he hins houts => ?settled
      closed := fun hord => ?closed, sized := h.sized
      ready := fun hmust {x op outs} hx hop he houts => ?ready
      quiet := fun hmust {x op v t} hx hop hmem ht hg => ?quiet
      nested := fun hmust {x x'} hx hx' => ?nested }
  case known =>
    rw [op?_modifyDecl, Option.isSome_map]
    exact h.known hx
  case tracked =>
    obtain ⟨kind, hop', -⟩ := hback hop
    have := h.tracked hop'
    exact this he
  case typed =>
    obtain ⟨kind, hop', hb⟩ := hback hop
    obtain ⟨ins, outs, hi, ho, hs⟩ := h.typed hx hop' he
    exact ⟨ins, outs, hi, ho, (OpKind.shaped_iff_of_bare_eq hb).1 hs⟩
  case plain =>
    obtain ⟨kind, hop', hb⟩ := hback hop
    rw [← OpKind.blocks_eq_of_bare_eq hb]
    exact h.plain hop' he
  case spent =>
    obtain ⟨kind, hop', -⟩ := hback hop
    obtain ⟨opr, hopr, hv⟩ := hr
    obtain ⟨kindr, hopr', -⟩ := hback hopr
    exact h.spent hop' he hmem ⟨_, hopr', hv⟩
  case settled =>
    obtain ⟨kind, hop', hb⟩ := hback hop
    exact (OpKind.settled_iff_of_bare_eq hb).1 (h.settled hx hop' he hins houts)
  case closed =>
    refine Closed.mono (h.closed hord) (fun {x op'} hx hop' => ?_) hext.origin?
    obtain ⟨kind, hop, -⟩ := hback hop'
    exact ⟨_, hop, List.Subset.refl _⟩
  case ready =>
    rw [op?_modifyDecl, Option.map_eq_some_iff] at hop
    obtain ⟨op₀, hop₀, rfl⟩ := hop
    split at he
    next hxo =>
      subst hxo
      rw [if_pos rfl] at houts ⊢
      obtain ⟨h₁, h₂⟩ := h.ready hmust hx hop₀ he houts
      have hlt := fun v hv => h.coherent.operand (v := v) hop₀ hv
      exact ⟨(h₁.mapDecl (hm hmust op₀ outs hop₀ houts)).agrees hagree hlt,
        h₂.mapDecl.agrees hagree hlt⟩
    next hxo =>
      rw [if_neg hxo] at houts ⊢
      obtain ⟨h₁, h₂⟩ := h.ready hmust hx hop₀ he houts
      have hlt := fun v hv => h.coherent.operand (v := v) hop₀ hv
      exact ⟨h₁.agrees hagree hlt, h₂.agrees hagree hlt⟩
  case quiet =>
    obtain ⟨kind, hop', hb⟩ := hback hop
    rw [← OpKind.fixedIndex?_eq_of_bare_eq hb]
    have := h.quiet hmust hx hop' hmem ht hg
    exact this
  case nested =>
    rw [inner_modifyDecl] at hx'
    exact h.nested hmust hx hx'

/-- A value is read in place of another of its type, which is not pending. -/
theorem replaced (h : Lowering q b R Q Z D) (hr : Replaced b old new b') (hne : old ≠ new)
    {s t : Ty} (hs : b.ty? old = some s) (ht : b.ty? new = some t) (hst : s.Agree t)
    (hnew : ∀ {d i op}, b.origin? new = some (.result d i) → b.op? d = some op → op.erased = false)
    (ho : q.ordered → (∀ x ∈ Q, ¬b.Reads x old) ∧ b.MadeBy Q new) : Lowering q b' R Q Z D := by
  have hout := hr.outlives
  have hsome : ∀ {v : ValueId} {t : Ty}, b.ty? v = some t → (b.value? v).isSome := fun hv => by
    rw [isSome_value?, ← isSome_ty?, hv]
    rfl
  have hback : ∀ {x op'}, b'.op? x = some op' → ∃ op, b.op? x = some op ∧ op' = { op with
      operands := op.operands.map fun v => if v = old then new else v } := by
    intro x op' hop'
    rw [hr.op?, Option.map_eq_some_iff] at hop'
    obtain ⟨op, hop, rfl⟩ := hop'
    exact ⟨op, hop, rfl⟩
  have htypes : ∀ {vs ts}, b.Types vs ts → b'.Types vs ts := fun hv => hv.mono fun v _ => hout.ty? v
  have htypes' : ∀ {vs ts}, b'.Types vs ts → b.Types vs ts :=
    fun hv => hv.mono fun v _ => (hout.ty? v).symm
  -- the new operand types agree with the old ones
  have hmap : ∀ {vs ts}, b.Types vs ts → ∃ ts', List.Forall₂ Ty.Agree ts ts' ∧
      b'.Types (vs.map fun v => if v = old then new else v) ts' := by
    intro vs ts hv
    induction hv with
    | nil => exact ⟨[], .nil, .nil⟩
    | @cons v t' vs ts hv _ ih =>
      obtain ⟨ts', hag, htys⟩ := ih
      by_cases he : v = old
      · subst he
        rw [hs] at hv
        obtain rfl := Option.some.inj hv
        refine ⟨t :: ts', .cons hst hag, .cons ?_ htys⟩
        beta_reduce
        rw [if_pos rfl, hout.ty?, ht]
      · refine ⟨t' :: ts', .cons (.refl t') hag, .cons ?_ htys⟩
        beta_reduce
        rw [if_neg he, hout.ty?, hv]
  refine
    { coherent := h.coherent.replaced hr (hsome hs) (hsome ht) hne, known := fun {x} hx => ?known
      tracked := fun {x op} hop he => ?tracked, nodup := h.nodup
      typed := fun {x op} hx hop he => ?typed, plain := fun {x op} hop he => ?plain
      spent := fun {x op v r} hop he hmem hr' => ?spent
      settled := fun {x op ins outs} hx hop he hins houts => ?settled
      closed := fun hord => ?closed, sized := fun hmust {v t} ht => ?sized
      ready := fun hmust {x op outs} hx hop he houts => ?ready
      quiet := fun hmust {x op v u} hx hop hmem hu hg => ?quiet
      nested := fun hmust {x x'} hx hx' => ?nested }
  case known =>
    rw [hr.op?, Option.isSome_map]
    exact h.known hx
  case tracked =>
    obtain ⟨op₀, hop₀, rfl⟩ := hback hop
    have := h.tracked hop₀
    exact this he
  case typed =>
    obtain ⟨op₀, hop₀, rfl⟩ := hback hop
    obtain ⟨ins, outs, hi, ho, hsh⟩ := h.typed hx hop₀ he
    obtain ⟨ins', hag, hi'⟩ := hmap hi
    exact ⟨ins', outs, hi', htypes ho, OpKind.shaped_stable hag hsh⟩
  case plain =>
    obtain ⟨op₀, hop₀, rfl⟩ := hback hop
    have := h.plain hop₀
    exact this he
  case spent =>
    obtain ⟨op₀, hop₀, rfl⟩ := hback hop
    rcases hr.reads_iff.1 hr' with ⟨hread, -⟩ | ⟨rfl, -⟩
    · exact h.spent hop₀ he hmem hread
    · obtain ⟨i, hi⟩ := List.mem_iff_getElem?.1 hmem
      have := hnew (h.coherent.result hop₀ hi) hop₀
      rw [this] at he
      cases he
  case settled =>
    obtain ⟨op₀, hop₀, rfl⟩ := hback hop
    obtain ⟨ins₀, outs₀, hi₀, ho₀, -⟩ := h.typed (h.not_mem_of_done hx) hop₀ he
    obtain ⟨ins', hag, hi'⟩ := hmap hi₀
    obtain rfl := hins.unique hi'
    obtain rfl := (htypes' houts).unique ho₀
    have hset : op₀.kind.Settled q.cx ins₀ outs := h.settled hx hop₀ he hi₀ ho₀
    exact OpKind.settled_stable q.cx hag hset
  case closed =>
    refine Closed.mono (h.closed hord) (fun {x op'} hx hop' => ?_) fun _ => hout.origin? _
    obtain ⟨op₀, hop₀, rfl⟩ := hback hop'
    refine ⟨op₀, hop₀, fun w hw => ?_⟩
    obtain ⟨w', hw', rfl⟩ := List.mem_map.1 hw
    split
    next he => exact absurd ⟨op₀, hop₀, he ▸ hw'⟩ ((ho hord).1 x hx)
    next => exact hw'
  case sized =>
    rw [hout.ty?] at ht
    exact h.sized hmust ht
  case ready =>
    obtain ⟨op₀, hop₀, rfl⟩ := hback hop
    have hord := q.ordered_of_must hmust
    have hops : op₀.operands.map (fun v => if v = old then new else v) = op₀.operands := by
      refine (List.map_congr_left fun w hw => if_neg ?_).trans (List.map_id _)
      rintro rfl
      exact (ho hord).1 x hx ⟨op₀, hop₀, hw⟩
    have hagree := hr.agrees h.coherent (h.closed hord) (ho hord).1
    obtain ⟨h₁, h₂⟩ := h.ready hmust hx hop₀ he (htypes' houts)
    have hC := fun v hv => Closed.madeBy (h.closed hord) (v := v) hx hop₀ hv
    simp only [hops]
    exact ⟨h₁.agrees hagree hC, h₂.agrees hagree hC⟩
  case quiet =>
    obtain ⟨op₀, hop₀, rfl⟩ := hback hop
    obtain ⟨w, hw, rfl⟩ := List.mem_map.1 hmem
    rw [hout.ty?] at hu
    split at hu
    next he =>
      rw [ht] at hu
      obtain rfl := Option.some.inj hu
      obtain rfl := hst.symm.eq_of_not_isGround hg
      subst he
      have := h.quiet hmust hx hop₀ hw hs hg
      exact this
    next =>
      have := h.quiet hmust hx hop₀ hw hu hg
      exact this
  case nested =>
    rw [hout.inner] at hx'
    exact h.nested hmust hx hx'

/-- An operation that nothing reads loses its operands: it is under way, or it is erased. -/
theorem dropped (h : Lowering q b R Q Z D) {f : Bool → Bool} (hf : f true = true)
    (hd : Dropped b o f b') (hread : ¬b.ResultRead o) (ho : o ∈ Z ∨ ∀ e, f e = true)
    (hplain : ∀ {op}, b.op? o = some op → op.kind.blocks = []) : Lowering q b' R Q Z D := by
  have hout := hd.outlives hf
  have hagree := hd.agrees hf h.coherent hread
  have htypes : ∀ {vs ts}, b.Types vs ts → b'.Types vs ts := fun hv => hv.mono fun v _ => hout.ty? v
  have htypes' : ∀ {vs ts}, b'.Types vs ts → b.Types vs ts :=
    fun hv => hv.mono fun v _ => (hout.ty? v).symm
  -- another operation is as before; the operation itself reads nothing
  have hback : ∀ {x op'}, b'.op? x = some op' → x ≠ o ∧ b.op? x = some op' ∨
      x = o ∧ ∃ op, b.op? x = some op ∧ op' = { op with operands := [], erased := f op.erased } := by
    intro x op' hop'
    rw [hd.op?, Option.map_eq_some_iff] at hop'
    obtain ⟨op, hop, rfl⟩ := hop'
    by_cases hx : x = o
    · exact .inr ⟨hx, op, hop, if_pos hx⟩
    · exact .inl ⟨hx, by rw [if_neg hx]; exact hop⟩
  have hstands : ∀ {x op'}, x ∉ Z → b'.op? x = some op' → op'.erased = false →
      x ≠ o ∧ b.op? x = some op' := by
    intro x op' hx hop' he
    rcases hback hop' with h | ⟨rfl, op, -, rfl⟩
    · exact h
    · rcases ho with ho | ho
      · exact absurd ho hx
      · have hfe : f op.erased = false := he
        rw [ho op.erased] at hfe
        cases hfe
  have hnotmade : ∀ {x op v}, b.op? x = some op → v ∈ op.operands →
      ∀ i, b.origin? v ≠ some (.result o i) := by
    intro x op v hop hv i hi
    obtain ⟨opo, hopo, hres⟩ := h.coherent.origin hi
    exact hread ⟨opo, v, x, hopo, List.mem_of_getElem? hres, op, hop, hv⟩
  refine
    { coherent := h.coherent.dropped hf hd, known := fun {x} hx => ?known
      tracked := fun {x op} hop he => ?tracked, nodup := h.nodup
      typed := fun {x op} hx hop he => ?typed, plain := fun {x op} hop he => ?plain
      spent := fun {x op v r} hop he hmem hr => ?spent
      settled := fun {x op ins outs} hx hop he hins houts => ?settled
      closed := fun hord => ?closed, sized := fun hmust {v t} ht => ?sized
      ready := fun hmust {x op outs} hx hop he houts => ?ready
      quiet := fun hmust {x op v u} hx hop hmem hu hg => ?quiet
      nested := fun hmust {x x'} hx hx' => ?nested }
  case known =>
    rw [hd.op?, Option.isSome_map]
    exact h.known hx
  case tracked =>
    rcases hback hop with ⟨-, hop⟩ | ⟨rfl, op₀, hop₀, rfl⟩
    · exact h.tracked hop he
    · refine h.tracked hop₀ (Bool.eq_false_iff.2 fun hx => ?_)
      simp [hx, hf] at he
  case typed =>
    obtain ⟨-, hop⟩ := hstands hx hop he
    obtain ⟨ins, outs, hi, ho, hs⟩ := h.typed hx hop he
    exact ⟨ins, outs, htypes hi, htypes ho, hs⟩
  case plain =>
    rcases hback hop with ⟨-, hop⟩ | ⟨rfl, op₀, hop₀, rfl⟩
    · exact h.plain hop he
    · have := hplain hop₀
      exact this
  case spent =>
    have hr := (hd.reads_iff.1 hr).2
    rcases hback hop with ⟨-, hop⟩ | ⟨rfl, op₀, hop₀, rfl⟩
    · exact h.spent hop he hmem hr
    · exact hread ⟨op₀, v, r, hop₀, hmem, hr⟩
  case settled =>
    obtain ⟨-, hop⟩ := hstands (h.not_mem_of_done hx) hop he
    exact h.settled hx hop he (htypes' hins) (htypes' houts)
  case closed =>
    refine Closed.mono (h.closed hord) (fun {x op'} hx hop' => ?_) fun _ => hout.origin? _
    rcases hback hop' with ⟨-, hop⟩ | ⟨rfl, op₀, hop₀, rfl⟩
    · exact ⟨op', hop, List.Subset.refl _⟩
    · exact ⟨op₀, hop₀, List.nil_subset _⟩
  case sized =>
    rw [hout.ty?] at ht
    exact h.sized hmust ht
  case ready =>
    have hxZ : x ∉ Z := fun hz => by
      have := h.nodup
      rw [List.nodup_append, List.nodup_append] at this
      exact this.1.2.2 x hx x hz rfl
    obtain ⟨-, hop⟩ := hstands hxZ hop he
    obtain ⟨h₁, h₂⟩ := h.ready hmust hx hop he (htypes' houts)
    exact ⟨h₁.agrees hagree fun v hv => hnotmade hop hv, h₂.agrees hagree fun v hv => hnotmade hop hv⟩
  case quiet =>
    rw [hout.ty?] at hu
    rcases hback hop with ⟨-, hop⟩ | ⟨rfl, op₀, hop₀, rfl⟩
    · exact h.quiet hmust hx hop hmem hu hg
    · cases hmem
  case nested =>
    rw [hout.inner] at hx'
    exact h.nested hmust hx hx'

/-- The last of the pending operations is taken up. -/
theorem begin (h : Lowering q b R (Q ++ [o]) [] D) : Lowering q b R Q [o] D where
  coherent := h.coherent
  known {x} hx := h.known (x := x) (by simpa using hx)
  tracked hop he := by simpa using h.tracked hop he
  nodup := by simpa using h.nodup
  typed _ := h.typed (List.not_mem_nil)
  plain := h.plain
  spent := h.spent
  settled := h.settled
  closed hm := Closed.of_append (h.closed hm)
  sized := h.sized
  ready hm _ _ _ hx := h.ready hm (List.mem_append_left _ hx)
  quiet := h.quiet
  nested hm _ _ hx := h.nested hm (List.mem_append_left _ hx)

/-- An operation is done that stays, or was erased. -/
theorem stay (h : Lowering q b R Q [o] D)
    (hs : ∀ {op}, b.op? o = some op → op.erased = false → ∃ ins outs, b.Types op.operands ins ∧
      b.Types op.results outs ∧ op.kind.Shaped q.strict ins outs ∧ op.kind.Settled q.cx ins outs)
    (hq : q.must → ∀ {op v t}, b.op? o = some op → v ∈ op.operands → b.ty? v = some t →
      t.isGround = false → op.kind.fixedIndex?.isSome) :
    Lowering q b R Q [] (o :: D) where
  coherent := h.coherent
  known {x} hx := h.known (x := x) (by simpa using hx)
  tracked hop he := by simpa using h.tracked hop he
  nodup := by simpa using h.nodup
  typed {x op} _ hop he := by
    by_cases hx : x = o
    · subst hx
      obtain ⟨ins, outs, h₁, h₂, h₃, -⟩ := hs hop he
      exact ⟨ins, outs, h₁, h₂, h₃⟩
    · exact h.typed (by simpa using hx) hop he
  plain := h.plain
  spent := h.spent
  settled {x op ins outs} hx hop he hins houts := by
    rcases List.mem_cons.1 hx with rfl | hx
    · obtain ⟨ins', outs', h₁, h₂, -, h₄⟩ := hs hop he
      rw [hins.unique h₁, houts.unique h₂]
      exact h₄
    · exact h.settled hx hop he hins houts
  closed := h.closed
  sized := h.sized
  ready := h.ready
  quiet hm {x op v t} hx hop hv ht hg := by
    rcases List.mem_cons.1 hx with rfl | hx
    · exact hq hm hop hv ht hg
    · exact h.quiet hm hx hop hv ht hg
  nested := h.nested

/-- An erased operation is done. -/
theorem finish (h : Lowering q b R Q [o] D) (he : ∀ {op}, b.op? o = some op → op.erased = true) :
    Lowering q b R Q [] (o :: D) := by
  refine h.stay (fun {op} hop hf => ?_) fun _ {op v t} hop hv => ?_
  · rw [he hop] at hf
    cases hf
  · rw [h.coherent.erased hop (he hop)] at hv
    cases hv

end Lowering

end Scalarize
