import Scalarize.Lower.Access
import Scalarize.Proofs.Lowering

/-!
# Handing readers over while a body is lowered

* `Lowering.replaceAllUses_ends` : one value is read in place of another;
* `Handed`, `Lowering.rewire_ends` : the readers of a split value give way to its parts;
* `Lowering.eraseOp_ends`, `Lowering.eraseUnread_ends` : operations that nothing reads any more are
  erased.
-/

namespace Scalarize

open Body

variable {q : Setting} {b b' : Body} {R : OpId → Nat} {Q Z D : List OpId} {o x u : OpId}
  {v w r old new : ValueId}

namespace Lowering

theorem replaceAllUses_ends (h : Lowering q b R Q Z D) (hne : old ≠ new) {s t : Ty}
    (hs : b.ty? old = some s) (ht : b.ty? new = some t) (hst : s.Agree t)
    (hnew : ∀ {d i op}, b.origin? new = some (.result d i) → b.op? d = some op → op.erased = false)
    (ho : q.ordered → (∀ x ∈ Q, ¬b.Reads x old) ∧ b.MadeBy Q new) :
    Ends q.must (b.replaceAllUses old new) fun b' => Lowering q b' R Q Z D ∧ Replaced b old new b' := by
  have hsome : ∀ {v : ValueId} {t : Ty}, b.ty? v = some t → (b.value? v).isSome := fun hv => by
    rw [isSome_value?, ← isSome_ty?, hv]
    rfl
  exact (h.coherent.replaceAllUses_ends hne fun _ => ⟨hsome hs, hsome ht⟩).mono fun b' hb' =>
    ⟨h.replaced hb' hne hs ht hst hnew ho, hb'⟩

/-- An operation without blocks that nothing reads is erased. -/
theorem erased (h : Lowering q b R Q Z D) (he : Erased b o b')
    (hplain : ∀ {op}, b.op? o = some op → op.kind.blocks = []) : Lowering q b' R Q Z D :=
  h.dropped rfl he.dropped he.unread (.inr fun _ => rfl) hplain

theorem eraseOp_ends (h : Lowering q b R Q [o] D)
    (hplain : ∀ {op}, b.op? o = some op → op.kind.blocks = []) (hm : q.must → ¬b.ResultRead o) :
    Ends q.must (b.eraseOp o) fun b' => Outlives b b' ∧ Lowering q b' R Q [] (o :: D) := by
  refine (Body.eraseOp_ends h.coherent (fun op hop => hplain hop) fun hmust =>
    ⟨h.isSome (by simp), hm hmust⟩).mono fun b' he => ⟨he.outlives, ?_⟩
  refine (h.erased he hplain).finish fun {op} hop => ?_
  rw [he.op?, Option.map_eq_some_iff] at hop
  obtain ⟨op₀, -, rfl⟩ := hop
  rw [if_pos rfl]

/-- Accessors that nothing reads any more are erased, whether they are pending or done. -/
theorem eraseUnread_ends (h : Lowering q b R Q Z D) {path : List OpId}
    (hpath : ∀ x ∈ path, ∃ op, b.op? x = some op ∧ op.kind.blocks = []) :
    Ends q.must (b.eraseUnread path) fun b' => Lowering q b' R Q Z D ∧ Outlives b b' := by
  induction path generalizing b with
  | nil => exact .pure ⟨h, .refl b⟩
  | cons x path ih =>
    obtain ⟨op, hop, hk⟩ := hpath x List.mem_cons_self
    have hplain : ∀ op', b.op? x = some op' → op'.kind.blocks = [] := fun op' hop' => by
      rw [hop] at hop'
      rw [← Option.some.inj hop', hk]
    rw [eraseUnread]
    refine (h.coherent.opHasUses_ends fun _ => by rw [hop]; rfl).bind fun r hr => ?_
    split
    next => exact .pure ⟨h, .refl b⟩
    next hread =>
      have hunread : ¬b.ResultRead x := fun hx => hread (hr.2 hx)
      refine (Body.eraseOp_ends h.coherent hplain fun _ => ⟨by rw [hop]; rfl, hunread⟩).bind
        fun b₁ he => ?_
      refine (ih (h.erased he (hplain _)) fun x' hx' => ?_).mono fun b' ⟨h', hout⟩ =>
        ⟨h', he.outlives.trans hout⟩
      obtain ⟨op', hop', hk'⟩ := hpath x' (List.mem_cons_of_mem _ hx')
      obtain ⟨op₁, hop₁, hk₁, -⟩ := he.outlives.op?_some hop'
      exact ⟨op₁, hop₁, by rw [hk₁, hk']⟩

/-- A fixed accessor reads one value and makes the part of it that it reaches. -/
theorem accessor (h : Lowering q b R Q Z D) (hu : u ∉ Z) {op : Operation} {i : Nat} {t : Ty}
    (hop : b.op? u = some op) (hv : v ∈ op.operands) (hfix : op.kind.fixedIndex? = some i)
    (ht : b.ty? v = some t) : ∃ r c, op.operands = [v] ∧ op.results = [r] ∧ b.ty? r = some c ∧
      Grows.Reaches t i op.kind c := by
  obtain ⟨ins, outs, hi, ho, hsh⟩ := h.typed hu hop (not_erased_of_reads h.coherent hop hv)
  obtain ⟨t', c, rfl, rfl, hreach⟩ := Grows.Reaches.of_shaped hfix hsh
  obtain ⟨w, hw, hops⟩ := hi.singleton
  obtain ⟨r, hr, hres⟩ := ho.singleton
  rw [hops] at hv
  obtain rfl := List.mem_singleton.1 hv
  rw [ht] at hw
  obtain rfl := Option.some.inj hw
  exact ⟨r, c, hops, hres, hr, hreach⟩

/-- What is known of the parts for which the readers of a split value give way. -/
structure Parts (q : Setting) (b : Body) (Q Z : List OpId) (v : ValueId) (t : Ty) (ps : List Part)
    (parts : List ValueId) : Prop where
  ty : b.ty? v = some t
  partsOf : t.PartsOf ps
  types : List.Forall₂ (fun (p : Part) w => b.ty? w = some p.ty) ps parts
  ne : ∀ w ∈ parts, w ≠ v
  stands : ∀ w ∈ parts, ∀ {d i}, b.origin? w = some (.result d i) →
    ∃ op, b.op? d = some op ∧ op.erased = false ∧ op.kind.fixedIndex? = none
  own : ∀ {d i op}, b.origin? v = some (.result d i) → b.op? d = some op → op.kind.fixedIndex? = none
  away : ∀ z ∈ Z, ∀ {op}, b.op? z = some op → op.kind.fixedIndex? = none
  ordered : q.ordered → (∀ x ∈ Q ++ Z, ¬b.Reads x v) ∧ ∀ w ∈ parts, b.MadeBy Q w

/-- In `b'` nothing reads `v` any more; only `parts` may be read in its place, and what is no accessor
stands as before. -/
structure Handed (b : Body) (v : ValueId) (parts : List ValueId) (b' : Body) : Prop where
  outlives : Outlives b b'
  unread : ∀ x, ¬b'.Reads x v
  reads : ∀ {w x}, w ∉ parts → b'.Reads x w → b.Reads x w
  stands : ∀ {x op}, b.op? x = some op → op.kind.fixedIndex? = none → op.erased = false →
    ∃ op', b'.op? x = some op' ∧ op'.erased = false

theorem Handed.of_replaced {b b' : Body} {old new : ValueId} (h : Replaced b old new b') (hne : old ≠ new) : Handed b old [new] b' where
  outlives := h.outlives
  unread x hx := by
    rcases h.reads_iff.1 hx with ⟨-, hne'⟩ | ⟨he, -⟩
    · exact hne' rfl
    · exact hne he
  reads hw hx := by
    rcases h.reads_iff.1 hx with ⟨hx', -⟩ | ⟨rfl, -⟩
    · exact hx'
    · exact absurd (List.mem_singleton_self _) hw
  stands hop _ he := by
    exact ⟨_, h.op?_some hop, he⟩

theorem rewire_ends (h : Lowering q b R Q Z D) {t : Ty} {ps : List Part} {parts : List ValueId}
    (hp : Parts q b Q Z v t ps parts) :
    Ends q.must (b.rewire v parts) fun b' => Lowering q b' R Q Z D ∧ Handed b v parts b' := by
  have hsome : ∀ {v : ValueId} {t : Ty}, b.ty? v = some t → (b.value? v).isSome := fun hv => by
    rw [isSome_value?, ← isSome_ty?, hv]
    rfl
  have hpart : ∀ w ∈ parts, ∃ p ∈ ps, b.ty? w = some p.ty := fun _ => exists_of_forall₂ hp.types
  refine (Body.rewire_ends (J := fun b' => Lowering q b' R Q Z D ∧
    (∀ {w x}, w ∉ parts → b'.Reads x w → b.Reads x w) ∧
    ∀ {x op}, b.op? x = some op → op.kind.fixedIndex? = none → op.erased = false →
      ∃ op', b'.op? x = some op' ∧ op'.erased = false)
    (fun b hb => hb.1.coherent) ⟨h, fun _ hx => hx, fun hop _ he => ⟨_, hop, he⟩⟩ (hsome hp.ty)
    (fun w hw => ⟨?_, hp.ne w hw⟩) (fun d i op hv hop => hp.own hv hop) ?_ ?_ ?_).mono
    fun b' hb' => ⟨hb'.1.1, hb'.2.1, hb'.2.2, hb'.1.2.1, hb'.1.2.2⟩
  · obtain ⟨p, -, hty⟩ := hpart w hw
    exact hsome hty
  · rintro x op r hx hop hfix hr w hw rfl
    obtain ⟨op', hop', -, hk⟩ := hp.stands r hw (h.coherent.result hop hr)
    rw [hop] at hop'
    obtain rfl := Option.some.inj hop'
    rw [hk] at hfix
    cases hfix
  · rintro b₁ b₂ u ⟨h₁, hreads₁, hst₁⟩ hout hr₁ hr
      ⟨op, i, r, part, b₁', hop, hv, hfix, hres, hpi, hrep, her⟩
    have hmemp := List.mem_of_getElem? hpi
    have hplain : op.kind.blocks = [] := by
      cases hk : op.kind <;> rw [hk] at hfix <;> first | rfl | cases hfix
    -- the reader is an accessor, and what it makes has the type of the part
    have hu : u ∉ Z := fun hz => by
      obtain ⟨op', hop', hk', -⟩ := hout.op?_some' hop
      rw [hk', hp.away u hz hop'] at hfix
      cases hfix
    obtain ⟨r', c, hops, hres', hr', hreach⟩ :=
      h₁.accessor hu hop hv hfix (by rw [hout.ty?, hp.ty])
    obtain rfl : r = r' := by simpa [hres'] using hres.symm
    obtain ⟨p, hpp, hpc⟩ := hp.partsOf.getElem?_of_child hreach.1
    have hpart' : b₁.ty? part = some c := by
      obtain ⟨hi₁, rfl⟩ := List.getElem?_eq_some_iff.1 hpp
      obtain ⟨hi₂, rfl⟩ := List.getElem?_eq_some_iff.1 hpi
      rw [hout.ty?, ← hpc]
      exact hp.types.get hi₁ hi₂
    have hro := h₁.coherent.result hop hres
    have hrp : r ≠ part := by
      rintro rfl
      rw [hout.origin?] at hro
      obtain ⟨op', hop', -, hk⟩ := hp.stands r hmemp hro
      obtain ⟨op'', hop'', hk', -⟩ := hout.op?_some hop'
      rw [hop] at hop''
      obtain rfl := Option.some.inj hop''
      rw [← hk', hfix] at hk
      cases hk
    have h₁' : Lowering q b₁' R Q Z D := by
      refine h₁.replaced hrep hrp hr' hpart' (.refl c) (fun {d i opd} hd hopd => ?_)
        fun hord => ⟨fun x hx hxr => ?_, ?_⟩
      · rw [hout.origin?] at hd
        obtain ⟨op₀, hop₀, he, hk⟩ := hp.stands part hmemp hd
        obtain ⟨op', hop', he'⟩ := hst₁ hop₀ hk he
        rw [hopd] at hop'
        rw [Option.some.inj hop', he']
      · obtain ⟨hQ, -⟩ := hp.ordered hord
        obtain ⟨opx, hopx, hmemx⟩ := hxr
        rcases Closed.madeBy (h₁.closed hord) hx hopx hmemx with ho' | ⟨d, hd, j, hd'⟩
        · rw [hro] at ho'
          cases ho'
        · rw [hro] at hd'
          obtain ⟨rfl, -⟩ : u = d ∧ _ := by simpa using hd'
          exact hQ u (List.mem_append_left _ hd) hr
      · unfold MadeBy
        rw [hout.origin?]
        exact (hp.ordered hord).2 part hmemp
    refine ⟨h₁'.erased her fun {op'} hop' => ?_, fun {w x} hw hx => ?_, fun {x opx} hopx hk he => ?_⟩
    · obtain ⟨op'', hop'', hk, -⟩ := hrep.outlives.op?_some' hop'
      rw [hop] at hop''
      obtain rfl := Option.some.inj hop''
      rw [hk, hplain]
    · rcases hrep.reads_iff.1 (her.dropped.reads_iff.1 hx).2 with ⟨hx', -⟩ | ⟨rfl, -⟩
      · exact hreads₁ hw hx'
      · exact absurd hmemp hw
    · obtain ⟨op₁, hop₁, he₁⟩ := hst₁ hopx hk he
      obtain ⟨op₂, hop₂, hk₂, -⟩ := hout.op?_some hopx
      have hxu : x ≠ u := by
        rintro rfl
        rw [hop] at hop₂
        obtain rfl := Option.some.inj hop₂
        rw [← hk₂, hfix] at hk
        cases hk
      refine ⟨{ op₁ with operands := op₁.operands.map fun v => if v = r then part else v }, ?_, he₁⟩
      rw [her.op?, hrep.op?_some hop₁]
      simp [hxu]
  · intro hmust u op hr hop
    obtain ⟨hQ, -⟩ := hp.ordered (q.ordered_of_must hmust)
    obtain ⟨op', hop', hv⟩ := hr
    rw [hop] at hop'
    obtain rfl := Option.some.inj hop'
    have hu : u ∈ D := by
      have := h.tracked hop (not_erased_of_reads h.coherent hop hv)
      rcases List.mem_append.1 this with hu | hu
      · exact absurd ⟨op, hop, hv⟩ (hQ u hu)
      · exact hu
    obtain ⟨i, hfix⟩ :=
      Option.isSome_iff_exists.1 (h.quiet hmust hu hop hv hp.ty hp.partsOf.aggregate)
    obtain ⟨r, c, -, hres, -, hreach⟩ := h.accessor (h.not_mem_of_done hu) hop hv hfix hp.ty
    have hlt := hp.partsOf.all hreach.1
    rw [hp.types.length_eq] at hlt
    exact ⟨i, r, hfix, hlt, hres⟩

end Lowering

end Scalarize
