import Scalarize.Proofs.Region.Access
import Scalarize.Proofs.Scope

/-!
# Readers of what is split

While an operation is lowered to the end, the value that it made gives way to values of its parts, and these to values
of theirs. A chart says which node of the type each of them is.

* `Body.Charted` : the readers of aggregates in the chart are fixed accessors, which lead on in the chart, and whoever
  read a leaf in the beginning reads a value of that leaf;
* `Body.ReadInParts`, `Charted.start` : the readers in the beginning;
* `Charted.grown`, `Charted.replaced`, `Charted.erased`, `Charted.rewire_ends`, `Charted.layer_ends` : a layer keeps this;
* `Charted.slot_leaf` : once nothing is pending, what reads a leaf reads what an operation of the region makes.
-/

namespace Scalarize.Body

variable {must : Prop} {b b₀ b' s : Body} {o x y : OpId} {u v w r old new : ValueId} {T c : Ty} {p q : List Nat} {i : Nat}
  {C New : List Nat → ValueId → Prop} {P D N : List OpId} {V : ValueId → Prop}

/-! ## Slots -/

/-- The operation reads the value in one of its slots. -/
def Slot (b : Body) (x : OpId) (i : Nat) (u : ValueId) : Prop :=
  ∃ op, b.op? x = some op ∧ op.operands[i]? = some u

theorem Slot.reads (h : b.Slot x i u) : b.Reads x u := by
  obtain ⟨op, hop, hu⟩ := h
  exact ⟨op, hop, List.mem_of_getElem? hu⟩

theorem Slot.mono (h : b.Slot x i u) (hb : Extends b b') : b'.Slot x i u := by
  obtain ⟨op, hop, hu⟩ := h
  obtain ⟨op', hop', -, hops, -⟩ := hb.op? hop
  exact ⟨op', hop', by rw [hops, hu]⟩

theorem Slot.replaced (h : b.Slot x i u) (hr : Replaced b old new b') : b'.Slot x i (if u = old then new else u) := by
  obtain ⟨op, hop, hu⟩ := h
  exact ⟨_, hr.op?_some hop, by simp [hu]⟩

theorem Slot.erased (h : b.Slot x i u) (he : Erased b o b') (hne : x ≠ o) : b'.Slot x i u := by
  obtain ⟨op, hop, hu⟩ := h
  exact ⟨op, by rw [he.op?, hop, Option.map_some, if_neg hne], hu⟩

/-- The operation `x` is erased, and those of a list are as they were, as is what types values have. -/
structure KeptBut (x : OpId) (l : List OpId) (b b' : Body) : Prop where
  op? : ∀ {y op}, y ∈ l → y ≠ x → b.op? y = some op → b'.op? y = some op
  ty? : ∀ {w t}, b.ty? w = some t → b'.ty? w = some t
  erased : ∀ {op}, b.op? x = some op → b'.op? x = some { op with operands := [], erased := true }

/-! ## Charts -/

/-- One of the operations made the value alone. It is no fixed accessor, if `T` has parts. -/
def ProducedIn (T : Ty) (N : List OpId) (b : Body) (u : ValueId) : Prop :=
  ∃ x ∈ N, ∃ kind vs, (T.isGround = false → kind.fixedIndex? = none) ∧ b.Makes x kind vs [u]

theorem ProducedIn.mono (h : ProducedIn T N b u) (hb : Extends b b') (hN : ∀ d ∈ N, d ∈ P) : ProducedIn T P b' u := by
  obtain ⟨x, hx, kind, vs, hk, hmk⟩ := h
  exact ⟨x, hN x hx, kind, vs, hk, hmk.mono hb⟩

/-- The operation is a fixed accessor of `u`, and leads on in the chart, or it is none, which may not be if `must`
holds. -/
def Opened (must : Prop) (C : List Nat → ValueId → Prop) (b : Body) (p : List Nat) (u : ValueId) (x : OpId) : Prop :=
  (∃ kind i w, kind.fixedIndex? = some i ∧ b.Makes x kind [u] [w] ∧ C (p ++ [i]) w) ∨
    ¬must ∧ ∀ op, b.op? x = some op → op.kind.fixedIndex? = none

theorem Opened.mono (h : Opened must C b p u x) (hb : Extends b b') (hx : b.Reads x u)
    (hC : ∀ {i w}, C (p ++ [i]) w → New (p ++ [i]) w) : Opened must New b' p u x := by
  rcases h with ⟨kind, i, w, hfix, hmk, hw⟩ | ⟨hm, hno⟩
  · exact .inl ⟨kind, i, w, hfix, hmk.mono hb, hC hw⟩
  · refine .inr ⟨hm, fun op' hop' => ?_⟩
    obtain ⟨op, hop, -⟩ := hx
    obtain ⟨op'', hop'', hbare, -⟩ := hb.op? hop
    rw [Option.some.inj (hop'.symm.trans hop''), OpKind.fixedIndex?_eq_of_bare_eq hbare, hno op hop]

theorem Opened.replaced (h : Opened must C b p u x) (hr : Replaced b old new b') :
    Opened must C b' p (if u = old then new else u) x := by
  rcases h with ⟨kind, i, w, hfix, hmk, hw⟩ | ⟨hm, hno⟩
  · exact .inl ⟨kind, i, w, hfix, by simpa using hmk.replaced hr, hw⟩
  · refine .inr ⟨hm, fun op hop => ?_⟩
    obtain ⟨op₀, hop₀, hk, -⟩ := hr.outlives.op?_some' hop
    rw [hk, hno op₀ hop₀]

theorem Opened.erased (h : Opened must C b p u x) (he : Erased b o b') (hne : x ≠ o) : Opened must C b' p u x := by
  rcases h with ⟨kind, i, w, hfix, hmk, hw⟩ | ⟨hm, hno⟩
  · exact .inl ⟨kind, i, w, hfix, hmk.erased he hne, hw⟩
  · refine .inr ⟨hm, fun op hop => ?_⟩
    obtain ⟨op₀, hop₀, hk, -⟩ := he.outlives.op?_some' hop
    rw [hk, hno op₀ hop₀]

theorem Opened.of_fixed {op : Operation} (h : Opened must C b p u x) (hop : b.op? x = some op)
    (hi : op.kind.fixedIndex? = some i) : ∃ w, b.Makes x op.kind [u] [w] ∧ C (p ++ [i]) w := by
  rcases h with ⟨kind, j, w, hj, ⟨op', hop', hbare, hrest⟩, hw⟩ | ⟨-, hno⟩
  · obtain rfl := Option.some.inj (hop.symm.trans hop')
    rw [← OpKind.fixedIndex?_eq_of_bare_eq hbare, hi, Option.some.injEq] at hj
    exact ⟨w, ⟨op, hop, rfl, hrest⟩, hj ▸ hw⟩
  · rw [hno op hop] at hi
    cases hi

/-- The chart `C` of the values that stand for nodes of `T`, which `v` had in `b₀`. Of the operations that `v` gave way
to, `P` are pending and `D` are done. -/
structure Charted (must : Prop) (b₀ : Body) (v : ValueId) (T : Ty) (C : List Nat → ValueId → Prop) (b : Body)
    (P D : List OpId) : Prop where
  unique : ∀ {p q u}, C p u → C q u → p = q
  typed : ∀ {p u}, C p u → ∃ c, T.sub? p = some c ∧ b.ty? u = some c
  opened : ∀ {p u c x}, C p u → T.sub? p = some c → c.isGround = false → b.Reads x u → Opened must C b p u x
  made : ∀ {p u y}, C p u → b.Reads y u → ProducedIn T (P ++ D) b u ∨
    ∃ x kind i p' u', kind.fixedIndex? = some i ∧ b.Makes x kind [u'] [u] ∧ p = p' ++ [i] ∧ C p' u'
  apart : ∀ {p u x}, x ∈ P ++ D → C p u → ¬b.Reads x u
  done : ∀ {p u c x y i}, C p u → T.sub? p = some c → c.isGround = false → x ∈ D →
    b.origin? u = some (.result x i) → ¬b.Reads y u
  slots : ∀ {p u g y i}, b₀.At v p u → T.sub? p = some (.ground g) → b₀.Slot y i u → ∃ u', b.Slot y i u' ∧ C p u'

namespace Charted

theorem isSome (h : Charted must b₀ v T C b P D) (hu : C p u) : u.index < b.values.size := by
  obtain ⟨c, -, hty⟩ := h.typed hu
  exact lt_of_ty? hty

/-- Nodes that have parts are no leaves. -/
theorem isGround_of_concat (h : Charted must b₀ v T C b P D) (hw : C (p ++ [i]) w) :
    ∃ c, T.sub? p = some c ∧ c.isGround = false := by
  obtain ⟨d, hd, -⟩ := h.typed hw
  obtain ⟨c, hc, hd⟩ := Ty.sub?_of_concat hd
  refine ⟨c, hc, ?_⟩
  cases c with
  | ground g => cases hd
  | _ => rfl

/-- Operations may change places as long as nothing reads an aggregate that is newly done. -/
theorem perm {P' D' : List OpId} (h : Charted must b₀ v T C b P D) (hmem : ∀ x, x ∈ P' ++ D' ↔ x ∈ P ++ D)
    (hD : ∀ x ∈ D', x ∉ D → ∀ {p u c i y}, C p u → T.sub? p = some c → c.isGround = false →
      b.origin? u = some (.result x i) → ¬b.Reads y u) :
    Charted must b₀ v T C b P' D' where
  unique := h.unique
  typed := h.typed
  opened := h.opened
  made hu hy := (h.made hu hy).imp_left fun ⟨x, hx, hmk⟩ => ⟨x, (hmem x).2 hx, hmk⟩
  apart hx := h.apart ((hmem _).1 hx)
  done {p u c x y i} hu hc hg hx ho := by
    by_cases hxD : x ∈ D
    · exact h.done hu hc hg hxD ho
    · exact hD x hx hxD hu hc hg ho
  slots := h.slots

/-- What was made since `b`: `N`, which reads values `V` and new ones, and which is not read where it is charted. -/
structure Grown (V : ValueId → Prop) (New : List Nat → ValueId → Prop) (T : Ty) (b : Body) (N : List OpId) (s : Body) :
    Prop where
  ext : Extends b s
  fresh : ∀ x ∈ N, b.op? x = none
  reads : ∀ {x u}, s.Reads x u → b.Reads x u ∨ V u ∨ b.values.size ≤ u.index
  unique : ∀ {p q u}, New p u → New q u → p = q
  new : ∀ {p u}, New p u → b.values.size ≤ u.index ∧ (∃ c, T.sub? p = some c ∧ s.ty? u = some c) ∧ ∀ {x}, ¬s.Reads x u

theorem grown (h : Charted must b₀ v T C b P D) (hg : Grown V New T b N s) (hV : ∀ {p u}, V u → ¬C p u) :
    Charted must b₀ v T (fun p u => C p u ∨ New p u) s (P ++ N) D := by
  have hlt : ∀ {p u}, C p u → u.index < b.values.size := h.isSome
  -- what was charted is read as before
  have hold : ∀ {p u x}, C p u → s.Reads x u → b.Reads x u := fun hu hx =>
    (hg.reads hx).resolve_right fun hn => hn.elim (fun hv => hV hv hu) (Nat.not_le.2 (hlt hu))
  have hreads : ∀ {p u x}, C p u ∨ New p u → s.Reads x u → C p u ∧ b.Reads x u := fun hu hx =>
    hu.elim (fun hu => ⟨hu, hold hu hx⟩) fun hu => absurd hx (hg.new hu).2.2
  refine ⟨?_, ?_, ?_, ?_, ?_, ?_, ?_⟩
  · rintro p q u (hp | hp) (hq | hq)
    · exact h.unique hp hq
    · exact absurd (hlt hp) (Nat.not_lt.2 (hg.new hq).1)
    · exact absurd (hlt hq) (Nat.not_lt.2 (hg.new hp).1)
    · exact hg.unique hp hq
  · rintro p u (hu | hu)
    · obtain ⟨c, hc, hty⟩ := h.typed hu
      exact ⟨c, hc, hg.ext.ty?_some hty⟩
    · exact (hg.new hu).2.1
  · intro p u c x hu hc hground hx
    obtain ⟨hu', hx'⟩ := hreads hu hx
    exact (h.opened hu' hc hground hx').mono hg.ext hx' .inl
  · intro p u y hu hy
    obtain ⟨hu', hy'⟩ := hreads hu hy
    rcases h.made hu' hy' with hin | ⟨x, kind, i, p', u', hfix, hmk, hp, hu''⟩
    · refine .inl (hin.mono hg.ext fun d hd => ?_)
      simp only [List.mem_append] at hd ⊢
      tauto
    · exact .inr ⟨x, kind, i, p', u', hfix, hmk.mono hg.ext, hp, .inl hu''⟩
  · intro p u x hx hu hr
    obtain ⟨hu', hr'⟩ := hreads hu hr
    by_cases hN : x ∈ N
    · obtain ⟨op, hop, -⟩ := hr'
      rw [hg.fresh x hN] at hop
      cases hop
    · refine h.apart ?_ hu' hr'
      simp only [List.mem_append] at hx ⊢
      tauto
  · intro p u c x y i hu hc hground hx ho hy
    obtain ⟨hu', hy'⟩ := hreads hu hy
    exact h.done hu' hc hground hx (by rw [← hg.ext.origin? (hlt hu'), ho]) hy'
  · intro p u g y i hu hg' hs
    obtain ⟨u', hs', hu'⟩ := h.slots hu hg' hs
    exact ⟨u', hs'.mono hg.ext, .inl hu'⟩

/-- A value gives way to one that stands for the same node, or to one outside of the chart like itself. -/
theorem replaced (h : Charted must b₀ v T C b P D) (hr : Replaced b old new b') (hsame : ∀ p, C p old ↔ C p new)
    (hmade : ∀ {p}, C p old → ProducedIn T (P ++ D) b new) (hdone : ∀ x ∈ D, ∀ i, b.origin? new ≠ some (.result x i)) :
    Charted must b₀ v T C b' P D := by
  have hmoved : ∀ {p u}, C p u → C p (if u = old then new else u) := fun {p u} hu => by
    split
    next he => exact (hsame p).1 (he ▸ hu)
    next => exact hu
  have hmakes : ∀ {x kind u rs}, b.Makes x kind [u] rs → b'.Makes x kind [if u = old then new else u] rs :=
    fun hmk => by simpa using hmk.replaced hr
  refine ⟨h.unique, fun hu => ?_, fun {p u c x} hu hc hg hx => ?_, fun {p u y} hu hy => ?_, fun {p u x} hx hu hr' => ?_,
    fun {p u c x y i} hu hc hg hx ho hy => ?_, fun hu hg hs => ?_⟩
  · rw [hr.outlives.ty?]
    exact h.typed hu
  · rcases hr.reads_iff.1 hx with ⟨hx, hne⟩ | ⟨rfl, hx⟩
    · simpa [hne] using (h.opened hu hc hg hx).replaced hr
    · simpa using (h.opened ((hsame p).2 hu) hc hg hx).replaced hr
  · have hin : ProducedIn T (P ++ D) b u → ProducedIn T (P ++ D) b' u := fun ⟨x, hx, kind, vs, hk, hmk⟩ =>
      ⟨x, hx, kind, _, hk, hmk.replaced hr⟩
    rcases hr.reads_iff.1 hy with ⟨hy, -⟩ | ⟨rfl, -⟩
    · refine (h.made hu hy).imp hin ?_
      rintro ⟨x, kind, i, p', u', hfix, hmk, hp, hu'⟩
      exact ⟨x, kind, i, p', _, hfix, hmakes hmk, hp, hmoved hu'⟩
    · exact .inl (hin (hmade ((hsame p).2 hu)))
  · rcases hr.reads_iff.1 hr' with ⟨hr', -⟩ | ⟨rfl, hr'⟩
    · exact h.apart hx hu hr'
    · exact h.apart hx ((hsame p).2 hu) hr'
  · rw [hr.outlives.origin?] at ho
    rcases hr.reads_iff.1 hy with ⟨hy, -⟩ | ⟨rfl, -⟩
    · exact h.done hu hc hg hx ho hy
    · exact hdone x hx i ho
  · obtain ⟨u', hs', hu'⟩ := h.slots hu hg hs
    exact ⟨_, hs'.replaced hr, hmoved hu'⟩

/-- An operation is erased that read no leaf. -/
theorem erased (h : Charted must b₀ v T C b P D) (hb : b.Coherent) (he : Erased b o b')
    (ho : ∀ {p u g}, C p u → T.sub? p = some (.ground g) → ¬b.Reads o u) : Charted must b₀ v T C b' P D := by
  -- what makes something that is still read is not the operation
  have hne : ∀ {x y kind vs u}, b.Makes x kind vs [u] → b.Reads y u → x ≠ o := by
    rintro x y kind vs u hmk hy rfl
    exact he.not_reads hb (hmk.origin? hb (i := 0) rfl) hy
  have hold : ∀ {y u}, b'.Reads y u → y ≠ o ∧ b.Reads y u := fun hy => he.dropped.reads_iff.1 hy
  refine ⟨h.unique, fun hu => ?_, fun {p u c x} hu hc hg hx => ?_, fun {p u y} hu hy => ?_, fun {p u x} hx hu hr' =>
    h.apart hx hu (hold hr').2, fun {p u c x y i} hu hc hg hx ho hy => ?_, fun {p u g y i} hu hg hs => ?_⟩
  · rw [he.outlives.ty?]
    exact h.typed hu
  · obtain ⟨hxo, hx⟩ := hold hx
    exact (h.opened hu hc hg hx).erased he hxo
  · obtain ⟨-, hy⟩ := hold hy
    refine (h.made hu hy).imp ?_ ?_
    · rintro ⟨x, hx, kind, vs, hk, hmk⟩
      exact ⟨x, hx, kind, vs, hk, hmk.erased he (hne hmk hy)⟩
    · rintro ⟨x, kind, i, p', u', hfix, hmk, hp, hu'⟩
      exact ⟨x, kind, i, p', u', hfix, hmk.erased he (hne hmk hy), hp, hu'⟩
  · rw [he.outlives.origin?] at ho
    exact h.done hu hc hg hx ho (hold hy).2
  · obtain ⟨u', hs', hu'⟩ := h.slots hu hg hs
    refine ⟨u', hs'.erased he ?_, hu'⟩
    rintro rfl
    exact ho hu' hg hs'.reads

/-- The readers of an aggregate give way to its parts, which are charted. Readers that are no fixed accessors stop
this, and no operation of the region is touched. -/
theorem rewire_ends {b₁ : Body} {k : BlockId} {A B M : List OpId} {pt : Point} {ps : List Part} {ws : List ValueId}
    (h : Charted must b₀ v T C b P D) (hpl : b₁.Prefixed o k A B M ⟨b, pt⟩) (hr : C p r) (hc : T.sub? p = some c)
    (hps : c.PartsOf ps) (hlen : ws.length = ps.length)
    (hws : ∀ {i w}, ws[i]? = some w → C (p ++ [i]) w ∧ ProducedIn T P b w) (hdisj : ∀ x ∈ P, x ∉ D)
    (hown : ∀ d i op, b.origin? r = some (.result d i) → b.op? d = some op → op.kind.fixedIndex? = none) :
    Ends must (b.rewire r ws) fun b' => Charted must b₀ v T C b' P D ∧ b₁.Prefixed o k A B M ⟨b', pt⟩ ∧ Outlives b b' ∧
      (∀ x ∈ P ++ D, b'.op? x = b.op? x) ∧ ∀ x, ¬b'.Reads x r := by
  have hsome : ∀ {q u}, C q u → (b.value? u).isSome := fun hu => isSome_value?.2 (h.isSome hu)
  -- a reader of the aggregate is an accessor outside of the region, and makes none of the parts
  have hmine : ∀ {b₂ : Body} {u w}, (∀ x ∈ P ++ D, b₂.op? x = b.op? x) → b₂.Coherent → b.Reads u r →
      ∀ {i}, b₂.origin? w = some (.result u i) → w ∉ ws := fun {b₂ u w} hops hb₂ hu i ho hw => by
    obtain ⟨j, hj⟩ := List.mem_iff_getElem?.1 hw
    obtain ⟨-, x, hx, kind, vs, -, op, hop, hrest⟩ := hws hj
    have hmk : b₂.Makes x kind vs [w] := ⟨op, by rw [hops x (List.mem_append_left D hx), hop], hrest⟩
    obtain ⟨rfl, -⟩ : u = x ∧ i = 0 := by simpa using ho.symm.trans (hmk.origin? hb₂ (i := 0) rfl)
    exact h.apart (List.mem_append_left D hx) hr hu
  refine (Body.rewire_ends (J := fun b' => Charted must b₀ v T C b' P D ∧ b₁.Prefixed o k A B M ⟨b', pt⟩ ∧
    ∀ x ∈ P ++ D, b'.op? x = b.op? x) (fun _ hJ => hJ.2.1.coherent) ⟨h, hpl, fun _ _ => rfl⟩ (hsome hr) ?_ hown ?_ ?_ ?_).mono
    fun b' ⟨⟨hch, hpl', hops⟩, hout, hread⟩ => ⟨hch, hpl', hout, hops, hread⟩
  · intro w hw
    obtain ⟨i, hi⟩ := List.mem_iff_getElem?.1 hw
    refine ⟨hsome (hws hi).1, ?_⟩
    rintro rfl
    exact absurd (h.unique hr (hws hi).1) (by simp)
  · rintro u op w hu hop - hw w' hw' rfl
    exact hmine (fun _ _ => rfl) hpl.coherent hu (hpl.coherent.result hop hw) hw'
  · rintro b₂ b₃ u ⟨hch, hpl₂, hops⟩ hout hu₂ hu ⟨op, i, w, part, b₂', hop, -, hfix, hw, hpart, hrep, her⟩
    have hb₂ : b₂.Coherent := hpl₂.coherent
    obtain ⟨w', hmk, hwC⟩ := (hch.opened hr hc hps.aggregate hu₂).of_fixed hop hfix
    obtain ⟨op', hop', -, -, hres, -⟩ := id hmk
    obtain rfl := Option.some.inj (hop.symm.trans hop')
    obtain rfl : w' = w := by simpa [hres] using hw
    obtain ⟨hpC, x, hx, kindx, vsx, hkx, opx, hopx, hrest⟩ := hws hpart
    have hmx : b₂.Makes x kindx vsx [part] := ⟨opx, by rw [hops x (List.mem_append_left D hx), hopx], hrest⟩
    have hne : w' ≠ part := fun he =>
      hmine hops hb₂ hu (hmk.origin? hb₂ (i := 0) rfl) (he ▸ List.mem_of_getElem? hpart)
    have hrw : r ≠ w' := by
      rintro rfl
      exact absurd (hch.unique hr hwC) (by simp)
    have hch' : Charted must b₀ v T C b₂' P D := by
      refine hch.replaced hrep (fun q => ⟨fun hq => hch.unique hwC hq ▸ hpC, fun hq => hch.unique hpC hq ▸ hwC⟩)
        (fun _ => ⟨x, List.mem_append_left D hx, _, _, hkx, hmx⟩) fun d hd j ho => ?_
      obtain ⟨rfl, -⟩ : d = x ∧ j = 0 := by simpa using ho.symm.trans (hmx.origin? hb₂ (i := 0) rfl)
      exact hdisj d hx hd
    have hvalue : ∀ {q u}, C q u → (b₂.value? u).isSome := fun hu => isSome_value?.2 (hch.isSome hu)
    have hplain : op.kind.blocks = [] := by
      cases hk : op.kind <;> rw [hk] at hfix <;> first | rfl | cases hfix
    have hpl₂' := hpl₂.replaced hrep (hvalue hwC) (hvalue hpC) hne
    have hmk' : b₂'.Makes u op.kind [r] [w'] := by simpa [hrw] using hmk.replaced hrep
    refine ⟨hch'.erased hpl₂'.coherent her fun {q u' g} hu' hg hr' => ?_, ?_, fun x hx => ?_⟩
    · obtain rfl : u' = r := by simpa using hmk'.reads.1 hr'
      obtain rfl := hch.unique hr hu'
      rw [hc, Option.some.injEq] at hg
      have := hps.aggregate
      rw [hg] at this
      cases this
    · refine hpl₂'.dropped rfl her.dropped fun _ opu hopu => ?_
      obtain ⟨op₁, hop₁, hk₁, -⟩ := hrep.outlives.op?_some' hopu
      rw [hk₁, Option.some.inj (hop₁.symm.trans hop), hplain]
    · have hxu : x ≠ u := by
        rintro rfl
        exact hch.apart hx hr hu₂
      have hxw : ¬b₂.Reads x w' := hch.apart hx hwC
      rw [her.op?, hrep.op?, ← hops x hx]
      cases hopx : b₂.op? x with
      | none => rfl
      | some opx =>
        have hmap : (opx.operands.map fun v => if v = w' then part else v) = opx.operands := by
          refine (List.map_congr_left (g := id) fun v hv => if_neg ?_).trans (List.map_id _)
          rintro rfl
          exact hxw ⟨opx, hopx, hv⟩
        simp [hxu, hmap]
  · intro hmust u op hu hop
    obtain ⟨kind, i, w, hfix, ⟨op', hop', hbare, -, hres, -⟩, hw⟩ :=
      (h.opened hr hc hps.aggregate hu).resolve_right fun hno => hno.1 hmust
    obtain rfl := Option.some.inj (hop.symm.trans hop')
    obtain ⟨d, hd, -⟩ := h.typed hw
    obtain ⟨c', hc', hd⟩ := Ty.sub?_of_concat hd
    obtain rfl := Option.some.inj (hc.symm.trans hc')
    exact ⟨i, w, by rw [OpKind.fixedIndex?_eq_of_bare_eq hbare, hfix], hlen ▸ hps.all hd, hres⟩

/-- Once the parts of a node are made, its readers are handed over to them, and what made the node is done. -/
theorem layer_ends {Sem : Body → (OpId → Nat) → List OpId → List OpId → Prop} {R R' : OpId → Nat} {k : BlockId}
    {L B N : List OpId} {bd : Body} {s : Builder} {z : Symbols} {op : Operation} {ps : List Part} {ws : List ValueId}
    (h : Charted must b₀ v T C s.body (P ++ [x] ++ N) D) (hr : b₀.Region o bd (P ++ [x]) D)
    (hpl : bd.Prefixed x k L B N s) (hext : Extends bd s.body) (hop : bd.op? x = some op)
    (hk : op.kind.fixedIndex? = none) (hres : op.results = [r]) (hu : C p r) (hc : T.sub? p = some c)
    (hps : c.PartsOf ps) (hlen : ws.length = ps.length)
    (hws : ∀ {i w}, ws[i]? = some w → C (p ++ [i]) w ∧ ProducedIn T N s.body w)
    (hR : ∀ y, (bd.op? y).isSome → R' y = R y) (hlt : must → ∀ y ∈ N, R' y < R x)
    (hsem : ∀ {b'}, Charted must b₀ v T C b' (P ++ N) (x :: D) → KeptBut x (P ++ N ++ D) s.body b' → Sem b' R' (P ++ N) (x :: D)) :
    Ends must (s.body.rewire r ws) fun b' => Layer must Sem bd R x k L B P D ⟨⟨b', s.point⟩, z⟩ := by
  have hopx : s.body.op? x = some op := hpl.op?_old hext hop
  have hout : ∀ y ∈ P ++ [x] ++ N, y ∉ D := fun y hy hyD => by
    rcases List.mem_append.1 hy with hy | hy
    · have hnd := hr.tidy.nodup
      rw [List.nodup_append] at hnd
      exact hnd.2.2 y hy y hyD rfl
    · have := hr.tidy.known y (by simp [hyD])
      rw [hpl.fresh y hy] at this
      cases this
  refine (h.rewire_ends hpl hu hc hps hlen (fun {i w} hi => ?_) hout fun d i op' hd hop' => ?_).mono
    fun b₁ ⟨hch₁, hpl₁, hout₁, hops₁, hread₁⟩ => ?_
  · obtain ⟨hwC, hmade⟩ := hws hi
    exact ⟨hwC, hmade.mono (.refl _) fun y hy => List.mem_append_right _ hy⟩
  · rw [hpl.coherent.result hopx (i := 0) (by rw [hres]; rfl)] at hd
    obtain ⟨rfl, -⟩ : x = d ∧ 0 = i := by simpa using hd
    rw [Option.some.inj (hop'.symm.trans hopx), hk]
  have hopx₁ : b₁.op? x = some op := by rw [hops₁ x (by simp), hopx]
  refine ⟨N, R', hpl₁, hR, fun hmust => ⟨hlt hmust, ?_⟩, fun b₂ he => ?_⟩
  · rintro ⟨op', w, y, hop', hw, hy⟩
    rw [Option.some.inj (hop'.symm.trans hopx₁), hres, List.mem_singleton] at hw
    exact hread₁ y (hw ▸ hy)
  have hperm : Charted must b₀ v T C b₁ (P ++ N) (x :: D) := by
    refine hch₁.perm (fun y => ?_) fun y hy hyD {p w c' i y'} _ _ _ ho => ?_
    · simp only [List.mem_append, List.mem_cons, List.not_mem_nil, or_false]
      tauto
    obtain rfl : y = x := (List.mem_cons.1 hy).resolve_right hyD
    obtain ⟨op', hop', hw⟩ := hpl₁.coherent.origin ho
    rw [Option.some.inj (hop'.symm.trans hopx₁), hres] at hw
    obtain rfl : r = w := by
      cases i with
      | zero => simpa using hw
      | succ i => simp at hw
    exact hread₁ y'
  refine hsem (hperm.erased hpl₁.coherent he fun hu _ hread => hperm.apart (by simp) hu hread) ⟨fun {y op'} hy hne hop' => ?_,
    fun hw => by rw [he.outlives.ty?, hout₁.ty?, hw], fun {op'} hop' => ?_⟩
  · rw [he.op?, hops₁ y (by simp only [List.mem_append] at hy ⊢; tauto), hop', Option.map_some, if_neg hne]
  · rw [he.op?, hops₁ x (by simp), hop', Option.map_some, if_pos rfl]

/-- No accessor of the region leads to an aggregate that is read in the chart. -/
theorem not_reads_accessor {kind : OpKind} (h : Charted must b₀ v T C b P D) (hb : b.Coherent) (hx : x ∈ P ++ D)
    (hfix : kind.fixedIndex? = some i) (hmk : b.Makes x kind [u] [w]) (hw : C p w) (hc : T.sub? p = some c)
    (hg : c.isGround = false) : ¬b.Reads y w := by
  intro hy
  rcases h.made hw hy with ⟨z, -, kind', vs, hno, hz⟩ | ⟨z, kind', j, p', u', -, hz, -, hu'⟩
  · have hnone := hno (Ty.isGround_of_sub? hc hg)
    rw [OpKind.fixedIndex?_eq_of_bare_eq (hz.unique hmk hb).2.1, hfix] at hnone
    cases hnone
  · obtain ⟨rfl, -, hu⟩ := hz.unique hmk hb
    obtain rfl : u' = u := by simpa using hu
    exact h.apart hx hu' (hmk.reads.2 (by simp))

end Charted

/-! ## The beginning -/

/-- Aggregates that fixed accessors reach from `v` are read by fixed accessors only. -/
def ReadInParts (b : Body) (v : ValueId) : Prop :=
  ∀ {p u c x op}, b.At v p u → b.ty? u = some c → c.isGround = false → b.Reads x u → b.op? x = some op →
    op.kind.fixedIndex?.isSome

/-- A fixed accessor that reads a value reaches a part of it. -/
theorem Typed.partOf {op : Operation} (h : b.Typed (OpKind.Shaped False)) (hb : b.Coherent) (hop : b.op? x = some op)
    (hu : u ∈ op.operands) (hi : op.kind.fixedIndex? = some i) : ∃ w, b.Makes x op.kind [u] [w] ∧ b.PartOf u i w := by
  have he := not_erased_of_reads hb hop hu
  obtain ⟨ins, outs, hins, houts, hsh⟩ := h hop he
  obtain ⟨t, c, rfl, rfl, hr⟩ := Grows.Reaches.of_shaped hi hsh
  obtain ⟨u', ht, hops⟩ := hins.singleton
  obtain ⟨w, hw, hres⟩ := houts.singleton
  obtain rfl : u = u' := by simpa [hops] using hu
  have hmk : b.Makes x op.kind [u] [w] := ⟨op, hop, rfl, hops, hres, he⟩
  exact ⟨w, hmk, ⟨x, op.kind, hi, hmk⟩, t, c, ht, hr.1, hw⟩

/-- There is one way to a value from one that no accessor makes. -/
theorem At.unique {kind : OpKind} {vs : List ValueId} (hb : b.Coherent) (hv : b.Makes o kind vs [v])
    (hk : kind.fixedIndex? = none) (hp : b.At v p u) (hq : b.At v q u) : p = q := by
  have hself : ∀ {u i}, ¬b.PartOf u i v := by
    rintro u i ⟨⟨x, kind', hfix, hmk⟩, -⟩
    rw [OpKind.fixedIndex?_eq_of_bare_eq (hv.unique hmk hb).2.1, hfix] at hk
    cases hk
  induction hp generalizing q with
  | self =>
    cases hq with
    | self => rfl
    | part _ hw => exact absurd hw hself
  | @part p u w i _ hw ih =>
    cases hq with
    | self => exact absurd hw hself
    | @part q u' _ j hu' hw' =>
      obtain ⟨⟨x, kind', hfix, hmk⟩, -⟩ := hw
      obtain ⟨⟨x', kind'', hfix', hmk'⟩, -⟩ := hw'
      obtain ⟨-, hbare, hops⟩ := hmk.unique hmk' hb
      obtain rfl : u = u' := by simpa using hops
      rw [OpKind.fixedIndex?_eq_of_bare_eq hbare, hfix', Option.some.injEq] at hfix
      rw [ih hu', hfix]

/-- What an operation reads is not reached from what it makes. -/
theorem InScope.not_at {kind : OpKind} {vs : List ValueId} (hs : b.InScope) (hb : b.Coherent) (ho : b.Walked o)
    (hv : b.Makes o kind vs [v]) (hu : b.Reads o u) : ¬b.At v p u := by
  have hprec : ∀ {x y kind vs u}, b.Walked y → b.Reads y u → b.Makes x kind vs [u] → b.stands x ∧ b.Precedes x y :=
    fun {x y kind vs u} hy ⟨op, hop, hu⟩ hmk => (hs y op u hy hop hu).of_origin hb (hmk.origin? hb (i := 0) rfl)
  -- all that is reached from what the operation makes is read behind it
  have hbehind : ∀ {p u y}, b.At v p u → b.Walked y → b.Reads y u → b.Precedes o y := fun {p u y} hp => by
    induction hp generalizing y with
    | self => exact fun hy hu => (hprec hy hu hv).2
    | part _ hw ih =>
      intro hy hu
      obtain ⟨⟨x, kind', -, hmk⟩, -⟩ := hw
      obtain ⟨hs', hxy⟩ := hprec hy hu hmk
      exact (ih (hxy.walked hb hy hs') (hmk.reads.2 (by simp))).trans hb hxy
  exact fun hp => hb.not_precedes_self (hbehind hp ho hu)

namespace Charted

/-- In the beginning, the chart has what fixed accessors reach. -/
theorem start {kind : OpKind} {vs : List ValueId} (hb : b.Coherent) (hv : b.Makes o kind vs [v])
    (hk : kind.fixedIndex? = none) (hty : b.ty? v = some T) (htyped : b.Typed (OpKind.Shaped False))
    (hopen : must → b.ReadInParts v) (ho : ∀ {p u}, b.Reads o u → ¬b.At v p u) :
    Charted must b v T (b.At v) b [o] [] where
  unique := At.unique hb hv hk
  typed hu := hu.ty? hty
  opened {p u c x} hu hc hg hx := by
    obtain ⟨c', hc', hu'⟩ := hu.ty? hty
    obtain rfl := Option.some.inj (hc.symm.trans hc')
    obtain ⟨op, hop, hmem⟩ := id hx
    cases hi : op.kind.fixedIndex? with
    | some i =>
      obtain ⟨w, hmk, hw⟩ := htyped.partOf hb hop hmem hi
      exact .inl ⟨op.kind, i, w, hi, hmk, .part hu hw⟩
    | none =>
      refine .inr ⟨fun hm => ?_, fun op' hop' => Option.some.inj (hop.symm.trans hop') ▸ hi⟩
      have hfix := hopen hm hu hu' hg hx hop
      rw [hi] at hfix
      cases hfix
  made hu _ := by
    cases hu with
    | self => exact .inl ⟨o, by simp, _, _, fun _ => hk, hv⟩
    | part hu hw =>
      obtain ⟨x, kind, hfix, hmk⟩ := hw.made
      exact .inr ⟨x, kind, _, _, _, hfix, hmk, rfl, hu⟩
  apart {p u x} hx hu hr := by
    obtain rfl : x = o := by simpa using hx
    exact ho hr hu
  done _ _ _ hx := absurd hx List.not_mem_nil
  slots hu _ hs := ⟨_, hs, hu⟩

/-! ## The end -/

/-- Once nothing is pending, no aggregate of the chart is read. -/
theorem not_reads (h : Charted must b₀ v T C b [] D) (hb : b.Coherent) (hu : C p u) (hc : T.sub? p = some c)
    (hg : c.isGround = false) : ¬b.Reads y u := by
  -- what makes an aggregate that is read reads a larger one
  induction p using List.reverseRecOn generalizing u c y with
  | nil =>
    intro hy
    rcases h.made hu hy with ⟨x, hx, kind, vs, -, hmk⟩ | ⟨x, kind, i, p', u', -, -, hp, -⟩
    · exact h.done hu hc hg (by simpa using hx) (hmk.origin? hb (i := 0) rfl) hy
    · simp at hp
  | append_singleton p j ih =>
    intro hy
    rcases h.made hu hy with ⟨x, hx, kind, vs, -, hmk⟩ | ⟨x, kind, i, p', u', -, hmk, hp, hu'⟩
    · exact h.done hu hc hg (by simpa using hx) (hmk.origin? hb (i := 0) rfl) hy
    · obtain ⟨rfl, rfl⟩ : p = p' ∧ j = i := by simpa using List.append_inj' hp rfl
      obtain ⟨c', hc', hg'⟩ := h.isGround_of_concat hu
      exact ih hu' hc' hg' (hmk.reads.2 (by simp))

/-- Whoever read a leaf reads what an operation of the region makes for this leaf. -/
theorem slot_leaf {g : Scalarize.Ground} (h : Charted must b₀ v T C b [] D) (hb : b.Coherent) (hp : b₀.At v p u)
    (hg : T.sub? p = some (.ground g)) (hs : b₀.Slot y i u) : ∃ w, b.Slot y i w ∧ C p w ∧ ProducedIn T D b w := by
  obtain ⟨w, hs', hw⟩ := h.slots hp hg hs
  refine ⟨w, hs', hw, ?_⟩
  rcases h.made hw hs'.reads with hin | ⟨x, kind, i, p', u', -, hmk, rfl, hu'⟩
  · simpa using hin
  · obtain ⟨c, hc, hground⟩ := h.isGround_of_concat hw
    exact absurd (hmk.reads.2 (by simp)) (h.not_reads hb hu' hc hground)

end Charted

end Scalarize.Body
