import Scalarize.Lower.Readers
import Scalarize.Proofs.Body.Growth

/-!
# Handing readers over

* `Body.eraseOp_ends` : what erasing an operation without blocks does; `Body.eraseOp_keeps` : what erasing
  any operation keeps;
* `Body.rewire_ends` : the readers of a split value give way to its parts; a property of bodies is kept
  if each single reader may give way.
-/

namespace Scalarize.Body

variable {must : Prop} {b b' : Body} {o x : OpId} {v w old new : ValueId}

/-- `b'` is `b` with an operation erased, which nothing read. -/
structure Erased (b : Body) (o : OpId) (b' : Body) : Prop where
  dropped : Dropped b o (fun _ => true) b'
  unread : ¬b.ResultRead o

/-- An operation without blocks is erased alone, if nothing reads it. -/
theorem eraseOp_ends (h : b.Coherent) (hk : ∀ op, b.op? o = some op → op.kind.blocks = [])
    (hm : must → (b.op? o).isSome ∧ ¬b.ResultRead o) : Ends must (b.eraseOp o) (Erased b o) := by
  unfold eraseOp
  refine (h.opHasUses_ends fun hmust => (hm hmust).1).bind fun r hr => ?_
  cases r with
  | true => exact .throw fun hmust => (hm hmust).2 (hr.1 rfl)
  | false =>
    have hunread : ¬b.ResultRead o := fun hread => by simpa using hr.2 hread
    have hg : b.guarded o = [] := by
      unfold guarded
      rw [kind?_eq]
      cases hop : b.op? o with
      | none => rfl
      | some op => simp [hk op hop]
    rw [hg]
    change Ends must (b.discard o >>= fun b' => Pure.pure b') _
    exact (discard_ends fun hmust => (hm hmust).1).bind fun b' hb' => .pure ⟨hb', hunread⟩

/-- What is kept when an operation is taken out is kept by erasing, whatever is erased. -/
theorem eraseOp_keeps {K : Body → Prop} (hK : ∀ {b b' : Body} {x : OpId}, K b → Dropped b x (fun _ => true) b' → K b')
    (h : K b) : Ends False (b.eraseOp o) K := by
  unfold eraseOp
  refine Ends.bind (P := fun _ => True) (.intro (fun _ _ => trivial) nofun) fun read _ => ?_
  split
  · exact .throw id
  · exact Ends.foldlM (fun _ b => K b) _ h fun _ _ _ _ _ hb => (discard_ends nofun).mono fun _ hd => hK hb hd

theorem Erased.outlives (h : Erased b o b') : Outlives b b' := h.dropped.outlives rfl

theorem Erased.coherent (h : Erased b o b') (hb : b.Coherent) : b'.Coherent := hb.dropped rfl h.dropped

theorem Erased.op? (h : Erased b o b') (x : OpId) : b'.op? x = (b.op? x).map fun op =>
    if x = o then { op with operands := [], erased := true } else op := h.dropped.op? x

/-- An erased operation reads nothing, all others read what they read. -/
theorem Dropped.reads_iff {f : Bool → Bool} (h : Dropped b o f b') :
    b'.Reads x v ↔ x ≠ o ∧ b.Reads x v := by
  unfold Reads
  rw [h.op?]
  constructor
  · rintro ⟨op, hop, hv⟩
    rw [Option.map_eq_some_iff] at hop
    obtain ⟨op₀, hop₀, rfl⟩ := hop
    split at hv
    · cases hv
    next hx => exact ⟨hx, op₀, hop₀, hv⟩
  · rintro ⟨hx, op, hop, hv⟩
    exact ⟨op, by simp [hop, hx], hv⟩

theorem Replaced.op?_some (h : Replaced b old new b') {op : Operation} (hop : b.op? x = some op) :
    b'.op? x = some { op with operands := op.operands.map fun v => if v = old then new else v } := by
  rw [h.op?, hop]
  rfl

theorem Replaced.reads_iff (h : Replaced b old new b') :
    b'.Reads x v ↔ (b.Reads x v ∧ v ≠ old) ∨ (v = new ∧ b.Reads x old) := by
  unfold Reads
  rw [h.op?]
  constructor
  · rintro ⟨op, hop, hv⟩
    rw [Option.map_eq_some_iff] at hop
    obtain ⟨op₀, hop₀, rfl⟩ := hop
    obtain ⟨w, hw, rfl⟩ := List.mem_map.1 hv
    split
    next he => exact .inr ⟨rfl, op₀, hop₀, he ▸ hw⟩
    next he => exact .inl ⟨⟨op₀, hop₀, hw⟩, he⟩
  · rintro (⟨⟨op, hop, hv⟩, hne⟩ | ⟨rfl, op, hop, hv⟩)
    · exact ⟨_, Option.map_eq_some_iff.2 ⟨op, hop, rfl⟩, List.mem_map.2 ⟨v, hv, if_neg hne⟩⟩
    · exact ⟨_, Option.map_eq_some_iff.2 ⟨op, hop, rfl⟩, List.mem_map.2 ⟨old, hv, if_pos rfl⟩⟩

theorem not_erased_of_reads (h : b.Coherent) {op : Operation} (hop : b.op? x = some op)
    (hv : v ∈ op.operands) : op.erased = false := by
  cases he : op.erased with
  | false => rfl
  | true =>
    rw [h.erased hop he] at hv
    cases hv

theorem Makes.reads {kind : OpKind} {vs rs : List ValueId} (h : b.Makes x kind vs rs) : b.Reads x v ↔ v ∈ vs := by
  obtain ⟨op, hop, -, rfl, -⟩ := h
  exact ⟨fun ⟨op', hop', hv⟩ => Option.some.inj (hop.symm.trans hop') ▸ hv, fun hv => ⟨op, hop, hv⟩⟩

/-- One operation makes a value. -/
theorem Makes.unique {kind kind' : OpKind} {vs vs' : List ValueId} {y : OpId} (h : b.Makes x kind vs [v])
    (h' : b.Makes y kind' vs' [v]) (hb : b.Coherent) : x = y ∧ kind.bare = kind'.bare ∧ vs = vs' := by
  obtain ⟨rfl, -⟩ : x = y ∧ 0 = 0 := by
    simpa using (h.origin? hb (i := 0) rfl).symm.trans (h'.origin? hb (i := 0) rfl)
  obtain ⟨op, hop, hbare, hops, -⟩ := h
  obtain ⟨op', hop', hbare', hops', -⟩ := h'
  obtain rfl := Option.some.inj (hop.symm.trans hop')
  exact ⟨rfl, hbare.symm.trans hbare', hops.symm.trans hops'⟩

/-- What has its origin in an operation that makes one value is this value. -/
theorem Makes.eq_of_origin? {kind : OpKind} {vs : List ValueId} {i : Nat} (h : b.Makes o kind vs [v]) (hb : b.Coherent)
    (hw : b.origin? w = some (.result o i)) : w = v := by
  obtain ⟨op, hop, -, -, hres, -⟩ := h
  obtain ⟨op', hop', hw⟩ := hb.origin hw
  rw [Option.some.inj (hop'.symm.trans hop), hres] at hw
  cases i with
  | zero => simpa using hw.symm
  | succ i => simp at hw

theorem Makes.replaced {kind : OpKind} {vs rs : List ValueId} (h : b.Makes x kind vs rs) (hr : Replaced b old new b') :
    b'.Makes x kind (vs.map fun v => if v = old then new else v) rs := by
  obtain ⟨op, hop, hbare, rfl, hres, he⟩ := h
  exact ⟨_, hr.op?_some hop, hbare, rfl, hres, he⟩

theorem Makes.erased {kind : OpKind} {vs rs : List ValueId} (h : b.Makes x kind vs rs) (he : Erased b o b')
    (hne : x ≠ o) : b'.Makes x kind vs rs := by
  obtain ⟨op, hop, hrest⟩ := h
  exact ⟨op, by rw [he.op?, hop, Option.map_some, if_neg hne], hrest⟩

/-- What an erased operation made is read by nobody. -/
theorem Erased.not_reads (he : Erased b o b') (hb : b.Coherent) {i : Nat} (hv : b.origin? v = some (.result o i)) :
    ¬b.Reads x v := by
  obtain ⟨op, hop, hres⟩ := hb.origin hv
  exact fun hx => he.unread ⟨op, v, x, hop, List.mem_of_getElem? hres, hx⟩

/-- One reader of a split value gives way: what read its result reads the part instead, and it is
erased. -/
structure GivesWay (b : Body) (v : ValueId) (parts : List ValueId) (u : OpId) (b' : Body) : Prop where
  way : ∃ op i r part b₁, b.op? u = some op ∧ v ∈ op.operands ∧ op.kind.fixedIndex? = some i ∧
    op.results[0]? = some r ∧ parts[i]? = some part ∧ Replaced b r part b₁ ∧ Erased b₁ u b'

theorem rewireUser_ends {parts : List ValueId} {u : OpId} (h : b.Coherent) (hr : b.Reads u v)
    (hparts : ∀ part ∈ parts, (b.value? part).isSome)
    (hne : ∀ op r, b.op? u = some op → op.kind.fixedIndex?.isSome → op.results[0]? = some r →
      ∀ part ∈ parts, r ≠ part)
    (hm : must → ∀ op, b.op? u = some op →
      ∃ i r, op.kind.fixedIndex? = some i ∧ i < parts.length ∧ op.results = [r]) :
    Ends must (rewireUser v parts b u) (GivesWay b v parts u) := by
  obtain ⟨op, hop, hmem⟩ := hr
  unfold rewireUser
  refine (kindOf_ends (Q := fun k => k = op.kind) (fun op' hop' => ?_) fun _ => by simp [hop]).bind
    fun kind hkind => ?_
  · rw [hop] at hop'
    rw [Option.some.inj hop']
  subst hkind
  split
  next hfix =>
    refine (typeOf_ends (Q := fun _ => ¬must) ?_ fun _ => ?_).bind fun _ hmust => .throw hmust
    · intro _ _ hmust
      obtain ⟨i, r, hi, -⟩ := hm hmust op hop
      rw [hfix] at hi
      cases hi
    · exact isSome_ty?.2 (h.operand hop hmem)
  next i hfix =>
    split
    next hpart =>
      refine .throw fun hmust => ?_
      obtain ⟨j, r, hj, hlt, -⟩ := hm hmust op hop
      obtain rfl := Option.some.inj (hfix.symm.trans hj)
      simp [hlt] at hpart
    next part hpart =>
      refine (result_ends (Q := fun r => op.results[0]? = some r) (fun op' r hop' hr => ?_)
        fun hmust => ?_).bind fun r hr => ?_
      · obtain rfl := Option.some.inj (hop.symm.trans hop')
        exact hr
      · obtain ⟨j, r, -, -, hres⟩ := hm hmust op hop
        exact ⟨op, r, hop, by rw [hres]; rfl⟩
      have hmemp := List.mem_of_getElem? hpart
      have hne' := hne op r hop (by rw [hfix]; rfl) hr part hmemp
      have hrv : (b.value? r).isSome := by
        obtain ⟨y, hy, -⟩ := origin?_eq_some_iff.1 (h.result hop hr)
        rw [hy]
        rfl
      refine (h.replaceAllUses_ends hne' fun _ => ⟨hrv, hparts part hmemp⟩).bind fun b₁ hb₁ => ?_
      have hc₁ := h.replaced hb₁ hrv (hparts part hmemp) hne'
      obtain ⟨op₁, hop₁, hk₁, hres₁, -⟩ := hb₁.outlives.op?_some hop
      refine (eraseOp_ends hc₁ (fun op' hop' => ?_) fun hmust => ⟨by rw [hop₁]; rfl, ?_⟩).mono
        fun b' hb' => ⟨op, i, r, part, b₁, hop, hmem, hfix, hr, hpart, hb₁, hb'⟩
      · obtain rfl := Option.some.inj (hop₁.symm.trans hop')
        rw [hk₁]
        cases hkind : op.kind <;> simp_all [OpKind.fixedIndex?, OpKind.blocks]
      · rintro ⟨op', w, y, hop', hw, hy⟩
        obtain rfl := Option.some.inj (hop₁.symm.trans hop')
        obtain ⟨j, r', -, -, hres⟩ := hm hmust op hop
        rw [hres₁, hres, List.mem_singleton] at hw
        rw [hres] at hr
        obtain rfl : r' = r := by simpa using hr
        subst hw
        rcases hb₁.reads_iff.1 hy with ⟨-, hne⟩ | ⟨he, -⟩
        · exact hne rfl
        · exact hne' he

/-- The readers of a split value give way to its parts, one after the other. A property of bodies is
kept if each of them may give way. -/
theorem rewire_ends {parts : List ValueId} {J : Body → Prop} (hJ : ∀ b, J b → b.Coherent) (hb : J b)
    (hv : (b.value? v).isSome)
    (hparts : ∀ part ∈ parts, (b.value? part).isSome ∧ part ≠ v)
    (hown : ∀ d i op, b.origin? v = some (.result d i) → b.op? d = some op →
      op.kind.fixedIndex? = none)
    (hne : ∀ u op r, b.Reads u v → b.op? u = some op → op.kind.fixedIndex?.isSome →
      op.results[0]? = some r → ∀ part ∈ parts, r ≠ part)
    (hstep : ∀ {b₁ b₂ u}, J b₁ → Outlives b b₁ → b₁.Reads u v → b.Reads u v →
      GivesWay b₁ v parts u b₂ → J b₂)
    (hm : must → ∀ u op, b.Reads u v → b.op? u = some op →
      ∃ i r, op.kind.fixedIndex? = some i ∧ i < parts.length ∧ op.results = [r]) :
    Ends must (b.rewire v parts) fun b' => J b' ∧ Outlives b b' ∧ ∀ x, ¬b'.Reads x v := by
  unfold rewire
  refine ((hJ b hb).users_ends fun _ => hv).bind fun us ⟨hnd, hus⟩ => ?_
  -- the readers that remain are those that the loop has still to visit
  refine (Ends.foldlM (fun done b' => J b' ∧ Outlives b b' ∧
    ∀ x, b'.Reads x v ↔ x ∈ us ∧ x ∉ done) us ⟨hb, .refl b, fun x => by simp [hus]⟩ ?_).mono ?_
  · rintro done u rest b₁ hl ⟨hJ₁, hout, hreads⟩
    have hu : u ∉ done := fun hmem => by
      rw [hl, List.nodup_append] at hnd
      exact hnd.2.2 u hmem u List.mem_cons_self rfl
    have hmem : u ∈ us := by
      rw [hl]
      exact List.mem_append_right _ List.mem_cons_self
    have hru : b₁.Reads u v := (hreads u).2 ⟨hmem, hu⟩
    have hru₀ := (hus u).1 hmem
    refine (rewireUser_ends (hJ b₁ hJ₁) hru (fun part hp => ?_) ?_ ?_).mono fun b₂ hb₂ =>
      ⟨hstep hJ₁ hout hru hru₀ hb₂, ?_⟩
    · rw [hout.isSome_value?]
      exact (hparts part hp).1
    · intro op r hop hfix hr
      obtain ⟨op₀, hop₀, hk, hres, -⟩ := hout.op?_some' hop
      exact hne u op₀ r hru₀ hop₀ (hk ▸ hfix) (hres ▸ hr)
    · intro hmust op hop
      obtain ⟨op₀, hop₀, hk, hres, -⟩ := hout.op?_some' hop
      rw [hk, hres]
      exact hm hmust u op₀ hru₀ hop₀
    obtain ⟨op, i, r, part, b₁', hop, hv', hfix, hr, hpart, hrep, her⟩ := hb₂.way
    have hvr : v ≠ r := fun he => by
      obtain ⟨op₀, hop₀, hk, hres, -⟩ := hout.op?_some' hop
      have := hown u 0 op₀ (by
        rw [← hout.origin?, he]
        exact (hJ b₁ hJ₁).result hop hr) hop₀
      rw [← hk, hfix] at this
      cases this
    refine ⟨(hout.trans hrep.outlives).trans her.outlives, fun x => ?_⟩
    rw [her.dropped.reads_iff, hrep.reads_iff, hreads x]
    have hpv : v ≠ part := fun he => (hparts part (List.mem_of_getElem? hpart)).2 he.symm
    simp only [hvr, hpv, ne_eq, not_false_eq_true, and_true, false_and, or_false, List.mem_append,
      List.mem_singleton, not_or]
    constructor
    · rintro ⟨h₁, h₂, h₃⟩
      exact ⟨h₂, h₃, h₁⟩
    · rintro ⟨h₂, h₃, h₁⟩
      exact ⟨h₁, h₂, h₃⟩
  · rintro b' ⟨hJ', hout, hreads⟩
    exact ⟨hJ', hout, fun x hx => ((hreads x).1 hx).2 ((hreads x).1 hx).1⟩

end Scalarize.Body
