import Mathlib.Algebra.Order.Ring.Nat
import Mathlib.Data.List.Perm.Subperm
import Scalarize.Proofs.Region.Access

/-!
# Ways with computed accesses

A way leads from a root to a part of it, through accesses at fixed positions and at computed ones. To write to what
lies behind computed accesses is to write to one element for each choice of positions.

* `Access`, `expand` : accesses, and the elements that they may reach; `tuples`, `expand_eq` : one for each tuple of
  positions, in lexicographic order;
* `Body.Picks`, `Body.Way` : what makes one access, and a way of them; both outlast growth, readers that are handed
  over and operations that are taken out;
* `Body.Nested` : the guards around a block, each of which holds for one choice;
* `Way.writePath_eq` : the path of a write is found from its destination up to the outermost computed access.
-/

namespace Scalarize

/-! ## Accesses -/

/-- How one accessor reaches a part: at a fixed position, or at a computed one in a vector of some length. -/
inductive Access where
  | fixed (index : Nat)
  | computed (index : ValueId) (length : Nat)

/-- An element of a vector of some length, which is meant where the index is its number. -/
structure Choice where
  index : ValueId
  length : Nat
  element : Nat

/-- A path to a part, with the choices under which it is meant. -/
structure Element where
  choices : List Choice
  path : List Nat

/-- What lies at an element of an element. -/
def Element.under (e d : Element) : Element := ⟨e.choices ++ d.choices, e.path ++ d.path⟩

/-- The elements that an access may reach. -/
def Access.elements : Access → List Element
  | fixed i => [⟨[], [i]⟩]
  | computed y n => (List.range n).map fun i => ⟨[⟨y, n, i⟩], [i]⟩

/-- The elements that accesses may reach, those of the first access first. -/
def expand : List Access → List Element
  | [] => [⟨[], []⟩]
  | a :: as => a.elements.flatMap fun e => (expand as).map e.under

/-- An access at a computed position. -/
def Access.isComputed : Access → Bool
  | fixed _ => false
  | computed _ _ => true

/-- The lengths of the vectors in which positions are computed. -/
def lengths (as : List Access) : List Nat :=
  as.flatMap fun
    | .fixed _ => []
    | .computed _ n => [n]

/-- One position below each length, in all ways. -/
def tuples : List Nat → List (List Nat)
  | [] => [[]]
  | n :: ns => (List.range n).flatMap fun i => (tuples ns).map (i :: ·)

theorem length_tuples (ns : List Nat) : (tuples ns).length = ns.prod := by
  induction ns with
  | nil => rfl
  | cons n ns ih => simp [tuples, List.length_flatMap, ih]

/-- There is no position in an empty vector. -/
theorem tuples_eq_nil {ns : List Nat} (h : 0 ∈ ns) : tuples ns = [] := by
  induction ns with
  | nil => cases h
  | cons n ns ih =>
    rcases List.mem_cons.1 h with rfl | h
    · rfl
    · simp [tuples, ih h]

/-- The tuples are in lexicographic order. -/
theorem sorted_tuples (ns : List Nat) : (tuples ns).Pairwise (List.Lex (· < ·)) := by
  induction ns with
  | nil => exact List.pairwise_singleton _ _
  | cons n ns ih =>
    rw [tuples, List.pairwise_flatMap]
    refine ⟨fun i _ => (List.pairwise_map.2 (ih.imp fun h => .cons h)), ?_⟩
    refine List.pairwise_lt_range.imp fun {i j} hij x hx y hy => ?_
    obtain ⟨x, -, rfl⟩ := List.mem_map.1 hx
    obtain ⟨y, -, rfl⟩ := List.mem_map.1 hy
    exact .rel hij

namespace Element

variable {e d c : Element}

theorem under_assoc : (e.under d).under c = e.under (d.under c) := by
  simp [under, List.append_assoc]

theorem under_comp : (e.under d).under = e.under ∘ d.under := funext fun _ => under_assoc

@[simp] theorem under_nil : e.under ⟨[], []⟩ = e := by
  simp [under]

theorem nil_under : (⟨[], []⟩ : Element).under = id := rfl

end Element

theorem expand_cons_computed (y : ValueId) (n : Nat) (as : List Access) : expand (.computed y n :: as) =
    (List.range n).flatMap fun i => (expand as).map (Element.under ⟨[⟨y, n, i⟩], [i]⟩) := by
  rw [expand, Access.elements, List.flatMap_map]

theorem expand_append (as bs : List Access) :
    expand (as ++ bs) = (expand as).flatMap fun e => (expand bs).map e.under := by
  induction as with
  | nil => simp [expand, Element.nil_under]
  | cons a as ih =>
    simp only [List.cons_append, expand, ih, List.map_flatMap, List.flatMap_assoc, List.flatMap_map, List.map_map,
      Element.under_comp]

theorem expand_fixed (path : List Nat) : expand (path.map .fixed) = [⟨[], path⟩] := by
  induction path with
  | nil => rfl
  | cons i path ih => simp [expand, ih, Access.elements, Element.under]

/-- Fixed accesses in front belong to every element. -/
theorem expand_fixed_append (path : List Nat) (as : List Access) :
    expand (path.map .fixed ++ as) = (expand as).map (Element.under ⟨[], path⟩) := by
  rw [expand_append, expand_fixed, List.flatMap_singleton]

/-- Fixed accesses leave the lengths as they are. -/
theorem lengths_fixed_append (is : List Nat) (as : List Access) : lengths (is.map .fixed ++ as) = lengths as := by
  induction is with
  | nil => rfl
  | cons i is ih => exact ih

/-- The element that accesses reach, with these positions in place of those that are computed. -/
def choose : List Access → List Nat → Element
  | [], _ => ⟨[], []⟩
  | .fixed i :: as, is => (⟨[], [i]⟩ : Element).under (choose as is)
  | .computed _ _ :: _, [] => ⟨[], []⟩
  | .computed y n :: as, i :: is => (⟨[⟨y, n, i⟩], [i]⟩ : Element).under (choose as is)

/-- There is one element for each tuple of positions, in the same order. -/
theorem expand_eq (as : List Access) : expand as = (tuples (lengths as)).map (choose as) := by
  induction as with
  | nil => rfl
  | cons a as ih =>
    cases a with
    | fixed i =>
      rw [expand, ih, Access.elements, List.flatMap_singleton, List.map_map]
      rfl
    | computed y n =>
      have hlen : lengths (.computed y n :: as) = n :: lengths as := rfl
      rw [expand_cons_computed, ih, hlen, tuples, List.map_flatMap]
      simp only [List.map_map]
      rfl

/-- The index of each choice is the position of an access. -/
theorem exists_access_of_mem_expand {as : List Access} {e : Element} {c : Choice} (he : e ∈ expand as) (hc : c ∈ e.choices) :
    .computed c.index c.length ∈ as := by
  induction as generalizing e with
  | nil =>
    obtain rfl : e = ⟨[], []⟩ := by simpa [expand] using he
    cases hc
  | cons a as ih =>
    rw [expand] at he
    obtain ⟨d, hd, he⟩ := List.mem_flatMap.1 he
    obtain ⟨e', he', rfl⟩ := List.mem_map.1 he
    rcases List.mem_append.1 hc with hc | hc
    · cases a with
      | fixed i =>
        obtain rfl : d = ⟨[], [i]⟩ := by simpa [Access.elements] using hd
        cases hc
      | computed y n =>
        obtain ⟨i, -, rfl⟩ := List.mem_map.1 hd
        obtain rfl : c = ⟨y, n, i⟩ := by simpa using hc
        exact List.mem_cons_self
    · exact List.mem_cons_of_mem _ (ih he' hc)

/-- Every element of a vector has a number that is written with so many bits. -/
theorem lt_selectWidth {i n : Nat} (h : i < n) : i < 2 ^ selectWidth n := by
  unfold selectWidth bitLength
  split
  · omega
  · have := Nat.lt_log2_self (n := n - 1)
    omega

namespace Body

variable {b b' : Body} {x y z o : OpId} {u v w r : ValueId} {a : Access} {xs ys : List (OpId × Access)} {k k' : BlockId}
  {path : List OpId} {f : Bool → Bool} {cs : List Choice}

/-! ## What makes an access -/

theorem Outlives.literal (h : Outlives b b') {l : Nat} : b'.Literal v l ↔ b.Literal v l := by
  constructor
  · rintro ⟨d, i, op', hv, hop', hk⟩
    obtain ⟨op, hop, hk', -⟩ := h.op?_some' hop'
    exact ⟨d, i, op, by rw [← h.origin?, hv], hop, by rw [← hk', hk]⟩
  · rintro ⟨d, i, op, hv, hop, hk⟩
    obtain ⟨op', hop', hk', -⟩ := h.op?_some hop
    exact ⟨d, i, op', by rw [h.origin?, hv], hop', by rw [hk', hk]⟩

theorem Makes.dropped {kind : OpKind} {vs rs : List ValueId} (h : b.Makes x kind vs rs) (hd : Dropped b z f b')
    (hne : x ≠ z) : b'.Makes x kind vs rs := by
  obtain ⟨op, hop, hrest⟩ := h
  exact ⟨op, by rw [hd.op?, hop, Option.map_some, if_neg hne], hrest⟩

/-- The accessor reaches `w` in `u`. -/
inductive Picks (b : Body) (x : OpId) (u : ValueId) : Access → ValueId → Prop
  | fixed {kind : OpKind} {i : Nat} {t c : Ty} {w : ValueId} (hx : b.Makes x kind [u] [w]) (hu : b.ty? u = some t)
      (hr : Grows.Reaches t i kind c) (hw : b.ty? w = some c) : Picks b x u (.fixed i) w
  | literal {y : ValueId} {l n : Nat} {e : Ty} {w : ValueId} (hx : b.Makes x .subaccess [u, y] [w])
      (hu : b.ty? u = some (.vector e n)) (hy : b.Literal y l) (hl : l < n) (hsize : l < UInt64.size)
      (hw : b.ty? w = some e) : Picks b x u (.fixed l) w
  | computed {y : ValueId} {n : Nat} {e : Ty} {w : ValueId} (hx : b.Makes x .subaccess [u, y] [w])
      (hu : b.ty? u = some (.vector e n)) (hy : b.Computed u y) (hw : b.ty? w = some e) : Picks b x u (.computed y n) w

namespace Picks

theorem makes (h : b.Picks x u a w) : ∃ kind vs, b.Makes x kind (u :: vs) [w] ∧ kind.isAccessor = true := by
  cases h with
  | fixed hx _ hr => exact ⟨_, _, hx, by obtain ⟨-, ⟨rfl, -⟩ | ⟨rfl, -⟩⟩ := hr <;> rfl⟩
  | literal hx => exact ⟨_, _, hx, rfl⟩
  | computed hx => exact ⟨_, _, hx, rfl⟩

theorem reads (h : b.Picks x u a w) : b.Reads x u := by
  obtain ⟨kind, vs, hx, -⟩ := h.makes
  exact hx.reads.2 List.mem_cons_self

theorem origin? (h : b.Picks x u a w) (hb : b.Coherent) : b.origin? w = some (.result x 0) := by
  obtain ⟨kind, vs, hx, -⟩ := h.makes
  exact hx.origin? hb rfl

/-- The operation is an accessor, and starts from `u`. -/
theorem accessor (h : b.Picks x u a w) : ∃ op, b.op? x = some op ∧ op.kind.isAccessor = true ∧ op.operands[0]? = some u ∧
    op.erased = false := by
  obtain ⟨kind, vs, ⟨op, hop, hbare, hops, -, he⟩, hacc⟩ := h.makes
  exact ⟨op, hop, by rw [OpKind.isAccessor_eq_of_bare_eq hbare, hacc], by rw [hops]; rfl, he⟩

/-- An access at a computed position reads the position. -/
theorem index (h : b.Picks x u a w) {y : ValueId} {n : Nat} (ha : a = .computed y n) : b.Reads x y := by
  cases h with
  | fixed => cases ha
  | literal => cases ha
  | computed hx =>
    obtain ⟨rfl, rfl⟩ := Access.computed.inj ha
    exact hx.reads.2 (by simp)

theorem isDynamic_eq (h : b.Picks x u a w) (hb : b.Coherent) : b.isDynamic x = .ok a.isComputed := by
  cases h with
  | fixed hx _ hr =>
    obtain ⟨op, hop, hbare, -⟩ := hx
    refine isDynamic_of_placable hb hop fun hk => ?_
    have hfix := hr.fixedIndex?
    rw [← OpKind.fixedIndex?_eq_of_bare_eq hbare, hk] at hfix
    cases hfix
  | @literal y l n e _ hx hu hy hl =>
    obtain ⟨op, hop, -, hops, -⟩ := hx
    refine isDynamic_of_placable hb hop fun _ => ⟨u, y, _, l, by rw [hops]; rfl, by rw [hops]; rfl, hu, ?_, hy⟩
    rintro e' he
    obtain ⟨rfl, rfl⟩ : e = e' ∧ n = 0 := by simpa using he
    cases hl
  | @computed y n e _ hx hu hy =>
    obtain ⟨op, hop, hbare, hops, -⟩ := hx
    have hk : op.kind = .subaccess := (OpKind.eq_of_bare_eq hbare.symm rfl).symm
    have hread : (b.value? y).isSome := isSome_value?.2 (hb.operand hop (by rw [hops]; simp))
    have hends : Ends True (b.constant? y) _ := constant?_ends hb fun _ => hread
    obtain ⟨l?, hl, hiff⟩ := hends.exists_ok trivial
    unfold isDynamic
    rw [kindOf_eq_ok hop]
    dsimp only [bind, Except.bind]
    rw [hk]
    dsimp only
    rw [operand_eq_ok hop (v := y) (by rw [hops]; rfl)]
    dsimp only
    rw [hl]
    dsimp only
    rw [operand_eq_ok hop (v := u) (by rw [hops]; rfl)]
    dsimp only
    rw [typeOf_eq_ok hu]
    dsimp only
    split
    next => rfl
    next hne =>
      have hnone : l? = none := by
        rcases hy with ⟨e', he'⟩ | hno
        · exact absurd (Option.some.inj (hu.symm.trans he')) (hne e')
        · cases l? with
          | none => rfl
          | some m => exact absurd ((hiff m).2 rfl) (hno m)
      rw [hnone]
      rfl

/-- One accessor reaches one thing. -/
theorem unique (h : b.Picks x u a w) {a' : Access} {u' : ValueId} (h' : b.Picks y u' a' w) (hb : b.Coherent) :
    x = y ∧ u = u' ∧ a = a' := by
  obtain ⟨kind, vs, hx, -⟩ := h.makes
  obtain ⟨kind', vs', hy, -⟩ := h'.makes
  obtain ⟨rfl, -, hvs⟩ := hx.unique hy hb
  obtain ⟨rfl, -⟩ := List.cons.inj hvs
  refine ⟨rfl, rfl, ?_⟩
  have hdyn : a.isComputed = a'.isComputed := Except.ok.inj ((h.isDynamic_eq hb).symm.trans (h'.isDynamic_eq hb))
  cases h with
  | fixed hx hu hr =>
    cases h' with
    | fixed hx' hu' hr' =>
      obtain ⟨-, hbare, -⟩ := hx.unique hx' hb
      have hfix := hr.fixedIndex?
      rw [← OpKind.fixedIndex?_eq_of_bare_eq hbare.symm] at hfix
      rw [Option.some.inj (hfix.symm.trans hr'.fixedIndex?)]
    | literal hx' => cases (hx.unique hx' hb).2.2
    | computed => cases hdyn
  | literal hx hu hy =>
    cases h' with
    | fixed hx' => cases (hx.unique hx' hb).2.2
    | literal hx' hu' hy' =>
      obtain ⟨rfl⟩ : _ = _ := (by simpa using (hx.unique hx' hb).2.2)
      obtain ⟨d, i, op, hv, hop, hk⟩ := hy
      obtain ⟨d', i', op', hv', hop', hk'⟩ := hy'
      obtain ⟨rfl, rfl⟩ : d = d' ∧ i = i' := by simpa using hv.symm.trans hv'
      obtain rfl := Option.some.inj (hop.symm.trans hop')
      rw [OpKind.constant.inj (hk.symm.trans hk')]
    | computed => cases hdyn
  | computed hx hu hy =>
    cases h' with
    | fixed => cases hdyn
    | literal => cases hdyn
    | computed hx' hu' hy' =>
      obtain ⟨rfl⟩ : _ = _ := (by simpa using (hx.unique hx' hb).2.2)
      obtain ⟨-, rfl⟩ := Ty.vector.inj (Option.some.inj (hu.symm.trans hu'))
      rfl

theorem mono (h : b.Picks x u a w) (hb : b.Coherent) (hext : Extends b b') : b'.Picks x u a w := by
  have hagree := hext.agrees hb
  have hlt : ∀ {kind vs}, b.Makes x kind vs [w] → ∀ v ∈ vs, v.index < b.values.size := by
    rintro kind vs ⟨op, hop, -, rfl, -⟩ v hv
    exact hb.operand hop hv
  cases h with
  | fixed hx hu hr hw => exact .fixed (hx.mono hext) (hext.ty?_some hu) hr (hext.ty?_some hw)
  | literal hx hu hy hl hsize hw =>
    exact .literal (hx.mono hext) (hext.ty?_some hu) ((hagree.literal (hlt hx _ (by simp))).2 hy) hl hsize (hext.ty?_some hw)
  | computed hx hu hy hw =>
    exact .computed (hx.mono hext) (hext.ty?_some hu)
      ((hagree.computed (hlt hx _ (by simp)) (hlt hx _ (by simp))).2 hy) (hext.ty?_some hw)

/-- Another operation loses its operands. -/
theorem dropped (h : b.Picks x u a w) (hd : Dropped b z f b') (hf : f true = true) (hne : x ≠ z) : b'.Picks x u a w := by
  have hout := hd.outlives hf
  have hty : ∀ {v t}, b.ty? v = some t → b'.ty? v = some t := fun hv => by rw [hout.ty?, hv]
  cases h with
  | fixed hx hu hr hw => exact .fixed (hx.dropped hd hne) (hty hu) hr (hty hw)
  | literal hx hu hy hl hsize hw => exact .literal (hx.dropped hd hne) (hty hu) (hout.literal.2 hy) hl hsize (hty hw)
  | computed hx hu hy hw =>
    refine .computed (hx.dropped hd hne) (hty hu) ?_ (hty hw)
    unfold Computed at hy ⊢
    simpa only [hout.ty?, hout.literal] using hy

/-- The readers of a value read another one of the same type. -/
theorem replaced (h : b.Picks x u a w) (hr : Replaced b r v b') (hty : b.ty? v = b.ty? r) (hlit : ∀ l, ¬b.Literal r l)
    (hindex : ∀ y n, a = .computed y n → y ≠ r) : b'.Picks x (if u = r then v else u) a w := by
  have hout := hr.outlives
  have hty' : ∀ {v t}, b.ty? v = some t → b'.ty? v = some t := fun hv => by rw [hout.ty?, hv]
  have hu' : ∀ {t}, b.ty? u = some t → b.ty? (if u = r then v else u) = some t := fun hu => by
    split
    next he => rw [hty, ← he, hu]
    next => exact hu
  cases h with
  | fixed hx hu hreach hw => exact .fixed (hx.replaced hr) (hty' (hu' hu)) hreach (hty' hw)
  | @literal y l n e _ hx hu hy hl hsize hw =>
    have hne : y ≠ r := fun he => hlit _ (he ▸ hy)
    have hx' := hx.replaced hr
    rw [List.map_cons, List.map_singleton, if_neg hne] at hx'
    exact .literal hx' (hty' (hu' hu)) (hout.literal.2 hy) hl hsize (hty' hw)
  | @computed y n e _ hx hu hy hw =>
    have hx' := hx.replaced hr
    rw [List.map_cons, List.map_singleton, if_neg (hindex y n rfl)] at hx'
    refine .computed hx' (hty' (hu' hu)) ?_ (hty' hw)
    unfold Computed at hy ⊢
    rw [hu] at hy
    simpa only [hout.ty?, hout.literal, hu' hu] using hy

/-- An accessor as the expansion of writes takes it. -/
theorem reached (h : b.Picks x u a w) (hb : b.Coherent) : ∃ op t c, b.op? x = some op ∧ b.Reached op u w t c ∧
    b.ty? u = some t ∧ b.ty? w = some c := by
  have hcomputed : ∀ {y n e}, b.Makes x .subaccess [u, y] [w] → b.ty? u = some (.vector e n) → b.ty? w = some e →
      ∃ op t c, b.op? x = some op ∧ b.Reached op u w t c ∧ b.ty? u = some t ∧ b.ty? w = some c := by
    rintro y n e ⟨op, hop, hbare, hops, -⟩ hu hw
    obtain ⟨c, hc⟩ := Option.isSome_iff_exists.1 (isSome_ty?.2 (hb.operand hop (v := y) (by rw [hops]; simp)))
    exact ⟨op, _, e, hop, .computed (OpKind.eq_of_bare_eq hbare.symm rfl).symm hops hu hc hw, hu, hw⟩
  cases h with
  | @fixed kind i t c _ hx hu hr hw =>
    obtain ⟨op, hop, hbare, hops, -⟩ := hx
    have hk : op.kind = kind := by
      refine (OpKind.eq_of_bare_eq hbare.symm ?_).symm
      obtain ⟨-, ⟨rfl, -⟩ | ⟨rfl, -⟩⟩ := hr <;> rfl
    exact ⟨op, t, c, hop, .fixed (by rw [hk]; exact hr.fixedIndex?) hops hu hw (hk ▸ hr), hu, hw⟩
  | literal hx hu _ _ _ hw => exact hcomputed hx hu hw
  | computed hx hu _ hw => exact hcomputed hx hu hw

end Picks

/-! ## Ways -/

/-- A value is reached from `v` by accessors, the first of them next to `v`. -/
inductive Way (b : Body) (v : ValueId) : List (OpId × Access) → ValueId → Prop
  | self : Way b v [] v
  | step {xs : List (OpId × Access)} {u w : ValueId} {x : OpId} {a : Access} (h : Way b v xs u) (hx : b.Picks x u a w) :
      Way b v (xs ++ [(x, a)]) w

namespace Way

theorem append (h : b.Way v xs u) (h' : b.Way u ys w) : b.Way v (xs ++ ys) w := by
  induction h' with
  | self => rwa [List.append_nil]
  | step _ hx ih =>
    rw [← List.append_assoc]
    exact .step ih hx

theorem single (h : b.Picks x v a w) : b.Way v [(x, a)] w :=
  have hself : b.Way v [] v := .self
  hself.step h

theorem of_append (h : b.Way v (xs ++ ys) w) : ∃ u, b.Way v xs u ∧ b.Way u ys w := by
  induction ys using List.reverseRecOn generalizing w with
  | nil => exact ⟨w, by simpa using h, .self⟩
  | append_singleton ys p ih =>
    rw [← List.append_assoc] at h
    generalize hl : xs ++ ys ++ [p] = l at h
    cases h with
    | self => simp at hl
    | step h hx =>
      obtain ⟨rfl, hp⟩ := List.append_inj' hl rfl
      obtain rfl := (List.cons.inj hp).1
      obtain ⟨u, h₁, h₂⟩ := ih h
      exact ⟨u, h₁, .step h₂ hx⟩

theorem of_cons {p : OpId × Access} (h : b.Way v (p :: ys) w) : ∃ u, b.Picks p.1 v p.2 u ∧ b.Way u ys w := by
  obtain ⟨u, h₁, h₂⟩ := of_append (show b.Way v ([p] ++ ys) w from h)
  refine ⟨u, ?_, h₂⟩
  generalize hl : [p] = l at h₁
  cases h₁ with
  | self => cases hl
  | @step xs _ _ _ _ hself hx =>
    obtain ⟨rfl, hp⟩ := List.append_eq_singleton_iff.1 hl.symm |>.resolve_right (by simp)
    obtain rfl := (List.cons.inj hp).1
    generalize hnil : ([] : List (OpId × Access)) = l at hself
    cases hself with
    | self => exact hx
    | step => simp at hnil

theorem cons {p : OpId × Access} (hx : b.Picks p.1 v p.2 u) (h : b.Way u ys w) : b.Way v (p :: ys) w :=
  (single hx).append h

/-- Each accessor on the way reaches something. -/
theorem exists_picks (h : b.Way v xs w) {p : OpId × Access} (hp : p ∈ xs) : ∃ u w, b.Picks p.1 u p.2 w := by
  induction h with
  | self => cases hp
  | step _ hx ih =>
    rcases List.mem_append.1 hp with hp | hp
    · exact ih hp
    · rw [List.mem_singleton.1 hp]
      exact ⟨_, _, hx⟩

theorem leads (h : b.Way v xs w) (hb : b.Coherent) : b.Leads w (xs.map Prod.fst).reverse v := by
  induction h with
  | self => exact .nil
  | step _ hx ih =>
    obtain ⟨op, hop, hacc, hu, -⟩ := hx.accessor
    rw [List.map_append, List.reverse_append]
    exact .cons (hx.origin? hb) hop hacc hu ih

theorem mono (h : b.Way v xs w) (hb : b.Coherent) (hext : Extends b b') : b'.Way v xs w := by
  induction h with
  | self => exact .self
  | step _ hx ih => exact .step ih (hx.mono hb hext)

/-- An operation that nothing reads loses its operands, and is on no way to what is read. -/
theorem dropped (h : b.Way v xs w) (hd : Dropped b z f b') (hf : f true = true) (hz : ¬b.ResultRead z)
    (hw : ∃ c, b.Reads c w) : b'.Way v xs w := by
  induction h with
  | self => exact .self
  | @step xs u w x a _ hx ih =>
    refine .step (ih ⟨x, hx.reads⟩) (hx.dropped hd hf ?_)
    rintro rfl
    obtain ⟨kind, vs, ⟨op, hop, -, -, hres, -⟩, -⟩ := hx.makes
    obtain ⟨c, hc⟩ := hw
    exact hz ⟨op, w, c, hop, by rw [hres]; exact List.mem_singleton_self w, hc⟩

/-- An accessor gives way to another that reaches the same, and takes its place on all ways. -/
theorem replaced {o₀ d : OpId} {u₀ : ValueId} {a₀ : Access} {w₀ : ValueId} (h : b.Way v xs w) (hb : b.Coherent)
    (hr : Replaced b r w₀ b') (ho : b.Picks o₀ u₀ a₀ r) (hd : b.Picks d u₀ a₀ w₀) (hty : b.ty? w₀ = b.ty? r)
    (hself : u₀ ≠ r) (hindex₀ : ∀ y n, a₀ = .computed y n → y ≠ r)
    (hindex : ∀ {y : ValueId} {n : Nat}, .computed y n ∈ xs.map Prod.snd → y ≠ r) :
    b'.Way (if v = r then w₀ else v) (xs.map fun p => if p.1 = o₀ then (d, p.2) else p) (if w = r then w₀ else w) := by
  have hlit : ∀ l, ¬b.Literal r l := by
    rintro l ⟨d', i, op, hv, hop, hk⟩
    obtain ⟨rfl, -⟩ : o₀ = d' ∧ 0 = i := by simpa using (ho.origin? hb).symm.trans hv
    obtain ⟨op', hop', hacc, -⟩ := ho.accessor
    rw [Option.some.inj (hop'.symm.trans hop), hk] at hacc
    cases hacc
  induction h with
  | self => exact .self
  | @step xs u w x a _ hx ih =>
    have ih := ih fun {y n} hm => hindex (by rw [List.map_append]; exact List.mem_append_left _ hm)
    rw [List.map_append, List.map_singleton]
    by_cases hw : w = r
    · subst hw
      obtain ⟨rfl, rfl, rfl⟩ := hx.unique ho hb
      rw [if_neg hself] at ih
      rw [if_pos rfl, if_pos rfl]
      refine .step ih ?_
      have := hd.replaced hr hty hlit hindex₀
      rwa [if_neg hself] at this
    · have hne : x ≠ o₀ := by
        rintro rfl
        obtain ⟨kind, vs, hx', -⟩ := hx.makes
        exact hw (hx'.eq_of_origin? hb (ho.origin? hb)).symm
      rw [if_neg hne, if_neg hw]
      exact .step ih (hx.replaced hr hty hlit fun y n ha => hindex (n := n) (by simp [ha]))

end Way

/-! ## Guards -/

/-- The operation lies in the block. -/
def Lies (b : Body) (x : OpId) (k : BlockId) : Prop := (b.op? x).map (·.block) = some k

/-- A block lies in another, in guards without else: each holds where an index is a number, which is a literal of just
the width that numbers of elements need. -/
inductive Nested (b : Body) (k : BlockId) : List Choice → BlockId → Prop
  | self : Nested b k [] k
  | guard {cs : List Choice} {k' t : BlockId} {c : Choice} {x y z : OpId} {cond position : ValueId} (h : Nested b k cs k')
      (hx : b.Makes x (.when t none) [cond] []) (hk : b.Lies x k')
      (hy : b.Makes y (.prim .eq) [c.index, position] [cond]) (hz : b.Makes z (.constant c.element) [] [position])
      (hty : b.ty? position = some (.uint (selectWidth c.length))) (hlt : c.element < 2 ^ selectWidth c.length) :
      Nested b k (cs ++ [c]) t

theorem Lies.mono (h : b.Lies x k) (hext : Extends b b') : b'.Lies x k := by
  obtain ⟨op, hop, rfl⟩ := Option.map_eq_some_iff.1 h
  obtain ⟨op', hop', -, -, -, hblock, -⟩ := hext.op? hop
  exact Option.map_eq_some_iff.2 ⟨op', hop', hblock⟩

theorem Lies.outlives (h : b.Lies x k) (hout : Outlives b b') : b'.Lies x k := by
  obtain ⟨op, hop, rfl⟩ := Option.map_eq_some_iff.1 h
  obtain ⟨op', hop', -, -, hblock, -⟩ := hout.op?_some hop
  exact Option.map_eq_some_iff.2 ⟨op', hop', hblock⟩

namespace Nested

theorem mono (h : b.Nested k cs k') (hext : Extends b b') : b'.Nested k cs k' := by
  induction h with
  | self => exact .self
  | guard _ hx hk hy hz hty hlt ih =>
    exact .guard ih (hx.mono hext) (hk.mono hext) (hy.mono hext) (hz.mono hext) (hext.ty?_some hty) hlt

/-- Neither a guard nor a condition is taken out. -/
theorem dropped (h : b.Nested k cs k') (hd : Dropped b z f b') (hf : f true = true)
    (hz : ∀ op, b.op? z = some op → op.kind.isAccessor = true ∨ ∃ strict, op.kind = .connect strict) :
    b'.Nested k cs k' := by
  have hout := hd.outlives hf
  have hne : ∀ {x kind vs rs}, b.Makes x kind vs rs → kind.isAccessor = false → (∀ strict, kind.bare ≠ .connect strict) →
      x ≠ z := by
    rintro x kind vs rs ⟨op, hop, hbare, -⟩ hacc hcon rfl
    rcases hz op hop with h | ⟨strict, h⟩
    · rw [OpKind.isAccessor_eq_of_bare_eq hbare, hacc] at h
      cases h
    · rw [h] at hbare
      exact hcon strict hbare.symm
  induction h with
  | self => exact .self
  | guard _ hx hk hy hz' hty hlt ih =>
    exact .guard ih (hx.dropped hd (hne hx rfl fun _ => nofun)) (hk.outlives hout) (hy.dropped hd (hne hy rfl fun _ => nofun))
      (hz'.dropped hd (hne hz' rfl fun _ => nofun)) (by rw [hout.ty?, hty]) hlt

/-- What an accessor made is neither an index nor a condition. -/
theorem replaced (h : b.Nested k cs k') (hb : b.Coherent) (hr : Replaced b r v b') (ho : b.Picks o u a r)
    (hindex : ∀ c ∈ cs, c.index ≠ r) : b'.Nested k cs k' := by
  have hout := hr.outlives
  have hne : ∀ {x kind vs rs}, b.Makes x kind vs rs → kind.isAccessor = false → r ∉ rs := by
    rintro x kind vs rs ⟨op, hop, hbare, -, hres, -⟩ hacc hmem
    obtain ⟨i, hi⟩ := List.mem_iff_getElem?.1 hmem
    obtain ⟨rfl, -⟩ : o = x ∧ 0 = i := by simpa using (ho.origin? hb).symm.trans (hb.result hop (hres ▸ hi))
    obtain ⟨op', hop', hacc', -⟩ := ho.accessor
    rw [Option.some.inj (hop'.symm.trans hop), OpKind.isAccessor_eq_of_bare_eq hbare, hacc] at hacc'
    cases hacc'
  induction h with
  | self => exact .self
  | @guard cs k' t c x y z cond position _ hx hk hy hz hty hlt ih =>
    have hcond : cond ≠ r := fun he => hne hy rfl (by simp [he])
    have hposition : position ≠ r := fun he => hne hz rfl (by simp [he])
    have hx' := hx.replaced hr
    have hy' := hy.replaced hr
    rw [List.map_singleton, if_neg hcond] at hx'
    rw [List.map_cons, List.map_singleton, if_neg (hindex c (by simp)), if_neg hposition] at hy'
    exact .guard (ih fun c hc => hindex c (List.mem_append_left _ hc)) hx' (hk.outlives hout) hy' (hz.replaced hr)
      (by rw [hout.ty?, hty]) hlt

end Nested

/-! ## The path of a write -/

/-- Accessors start from the value, and none makes it. -/
structure Root (b : Body) (v : ValueId) : Prop where
  known : (b.value? v).isSome
  made : ∀ {x i op}, b.origin? v = some (.result x i) → b.op? x = some op → op.kind.isAccessor = false

namespace Leads

/-- There is one path from a value up to a root. -/
theorem unique {p p' : List OpId} (h : b.Leads v p u) (hu : b.Root u) (h' : b.Leads v p' w) (hw : b.Root w) : p = p' := by
  induction h generalizing p' with
  | nil =>
    cases h' with
    | nil => rfl
    | cons hv hop hacc =>
      rw [hu.made hv hop] at hacc
      cases hacc
  | @cons v u' _ x i op p hv hop hacc hu' _ ih =>
    cases h' with
    | nil =>
      rw [hw.made hv hop] at hacc
      cases hacc
    | @cons _ u'' _ x' i' op' p' hv' hop' _ hu'' h' =>
      obtain ⟨rfl, rfl⟩ : x = x' ∧ i = i' := by simpa using hv.symm.trans hv'
      obtain rfl := Option.some.inj (hop.symm.trans hop')
      obtain rfl := Option.some.inj (hu'.symm.trans hu'')
      rw [ih hu h']

/-- No accessor is met twice on the way to a root. -/
theorem nodup (h : b.Leads v path w) (hw : b.Root w) : path.Nodup := by
  induction h with
  | nil => exact .nil
  | @cons v u w x i op path hv hop hacc hu h ih =>
    refine List.nodup_cons.2 ⟨fun hx => ?_, ih hw⟩
    obtain ⟨p, p', rfl⟩ := List.append_of_mem hx
    obtain ⟨u', -, h'⟩ := h.split
    cases h' with
    | cons _ hop' _ hu' h' =>
      obtain rfl := Option.some.inj (hop.symm.trans hop')
      obtain rfl := Option.some.inj (hu.symm.trans hu')
      have := congrArg List.length (h.unique hw h' hw)
      simp at this
      omega

theorem length_le (h : b.Leads v path w) (hw : b.Root w) : path.length ≤ b.ops.size := by
  have hnd : (path.map (·.index)).Nodup := (h.nodup hw).map_on fun ⟨_⟩ _ ⟨_⟩ _ he => by simpa using he
  have hsub : path.map (·.index) ⊆ List.range b.ops.size := fun i hi => by
    obtain ⟨x, hx, rfl⟩ := List.mem_map.1 hi
    obtain ⟨op, hop, -⟩ := h.exists_accessor hx
    exact List.mem_range.2 (isSome_op?.1 (by rw [hop]; rfl))
  simpa using (List.subperm_of_subset hnd hsub).length_le

/-- The accessors up to a root are listed, all of them. -/
theorem accessChain_eq (h : b.Leads v path w) (hb : b.Coherent) (hw : b.Root w) {fuel : Nat} (hfuel : path.length ≤ fuel) :
    b.accessChain fuel v = .ok path := by
  induction h generalizing fuel with
  | @nil v =>
    cases fuel with
    | zero => rfl
    | succ fuel =>
      obtain ⟨⟨ty, origin, uses⟩, hv⟩ := Option.isSome_iff_exists.1 hw.known
      have ho : b.origin? v = some origin := origin?_eq_some_iff.2 ⟨_, hv, rfl⟩
      rw [accessChain]
      cases origin with
      | argument =>
        rw [definer_of_argument ho]
        rfl
      | result x i =>
        rw [definer_of_result ho]
        obtain ⟨op, hop, -⟩ := hb.origin ho
        change (b.kindOf x >>= fun kind => if kind.isAccessor then _ else _) = _
        rw [kindOf_eq_ok hop]
        change (if op.kind.isAccessor then _ else _) = _
        rw [if_neg (by simp [hw.made ho hop])]
        rfl
  | @cons v u w x i op path hv hop hacc hu _ ih =>
    cases fuel with
    | zero => cases hfuel
    | succ fuel =>
      rw [accessChain, definer_of_result hv]
      change (b.kindOf x >>= fun kind => if kind.isAccessor then _ else _) = _
      rw [kindOf_eq_ok hop]
      change (if op.kind.isAccessor then (do return x :: (← b.accessChain fuel (← b.operand x 0))) else _) = _
      rw [if_pos hacc, operand_eq_ok hop hu]
      change (do return x :: (← b.accessChain fuel u)) = _
      rw [ih hw (by simpa using hfuel)]
      rfl

end Leads

/-- A path is kept up to its last dynamic access. -/
theorem trimStatic_append {inner rest : List OpId} (hx : b.isDynamic x = .ok true)
    (hrest : ∀ y ∈ rest, b.isDynamic y = .ok false) : b.trimStatic (inner ++ x :: rest) = .ok (inner ++ [x]) := by
  induction inner with
  | nil =>
    rw [List.nil_append, trimStatic, trimStatic_eq hrest]
    change (if ([] : List OpId).isEmpty then (do if ← b.isDynamic x then return [x] else return [])
      else (return [x] : Except Failure (List OpId))) = _
    rw [List.isEmpty_nil, if_pos rfl, hx]
    rfl
  | cons y inner ih =>
    rw [List.cons_append, trimStatic, ih]
    change (if (inner ++ [x]).isEmpty then (do if ← b.isDynamic y then return [y] else return [])
      else return y :: (inner ++ [x])) = _
    rw [if_neg (by simp)]
    rfl

/-- A way starts with fixed accesses. -/
theorem exists_fixed_prefix (xs : List (OpId × Access)) : ∃ (is : List Nat) (zs ys : List (OpId × Access)),
    xs = zs ++ ys ∧ zs.map Prod.snd = is.map Access.fixed ∧ ∀ p, ys.head? = some p → p.2.isComputed = true := by
  induction xs with
  | nil => exact ⟨[], [], [], rfl, rfl, nofun⟩
  | cons p xs ih =>
    obtain ⟨x, a⟩ := p
    cases a with
    | fixed i =>
      obtain ⟨path, zs, ys, rfl, hzs, hys⟩ := ih
      exact ⟨i :: path, (x, .fixed i) :: zs, ys, rfl, by simp [hzs], hys⟩
    | computed y n => exact ⟨[], [], (x, .computed y n) :: xs, rfl, rfl, fun p hp => by
        rw [← Option.some.inj hp]
        rfl⟩

namespace Way

variable {op : Operation} {is : List Nat} {zs : List (OpId × Access)} {p : OpId × Access}

theorem isDynamic_eq (h : b.Way v xs w) (hb : b.Coherent) (hp : p ∈ xs) : b.isDynamic p.1 = .ok p.2.isComputed := by
  obtain ⟨u, w, hx⟩ := h.exists_picks hp
  exact hx.isDynamic_eq hb

theorem isDynamic_of_fixed (h : b.Way v zs w) (hb : b.Coherent) (hzs : zs.map Prod.snd = is.map .fixed) :
    ∀ y ∈ (zs.map Prod.fst).reverse, b.isDynamic y = .ok false := by
  intro y hy
  obtain ⟨p, hp, rfl⟩ := List.mem_map.1 (List.mem_reverse.1 hy)
  have ha : p.2 ∈ is.map Access.fixed := hzs ▸ List.mem_map_of_mem hp
  obtain ⟨i, -, hi⟩ := List.mem_map.1 ha
  rw [h.isDynamic_eq hb hp, ← hi]
  rfl

theorem writePath_chain (h : b.Way v xs w) (hb : b.Coherent) (hv : b.Root v) (hop : b.op? o = some op)
    (hw : op.operands[0]? = some w) : b.writePath o = b.trimStatic (xs.map Prod.fst).reverse := by
  have hl := h.leads hb
  unfold writePath
  rw [operand_eq_ok hop hw]
  change (b.accessChain b.ops.size w >>= b.trimStatic) = _
  rw [hl.accessChain_eq hb hv (hl.length_le hv)]
  rfl

/-- A write to an element at fixed positions needs no guards. -/
theorem writePath_fixed (h : b.Way v xs w) (hb : b.Coherent) (hv : b.Root v) (hop : b.op? o = some op)
    (hw : op.operands[0]? = some w) (hxs : xs.map Prod.snd = is.map .fixed) : b.writePath o = .ok [] := by
  rw [h.writePath_chain hb hv hop hw]
  exact trimStatic_eq (h.isDynamic_of_fixed hb hxs)

/-- The path of a write ends with its outermost computed access. -/
theorem writePath_eq (h : b.Way v (zs ++ p :: ys) w) (hb : b.Coherent) (hv : b.Root v) (hop : b.op? o = some op)
    (hw : op.operands[0]? = some w) (hzs : zs.map Prod.snd = is.map .fixed) (hp : p.2.isComputed = true) :
    b.writePath o = .ok ((ys.map Prod.fst).reverse ++ [p.1]) := by
  rw [h.writePath_chain hb hv hop hw]
  obtain ⟨u, h₁, -⟩ := h.of_append
  have hpath : ((zs ++ p :: ys).map Prod.fst).reverse = (ys.map Prod.fst).reverse ++ p.1 :: (zs.map Prod.fst).reverse := by
    simp
  rw [hpath]
  refine trimStatic_append ?_ (h₁.isDynamic_of_fixed hb hzs)
  rw [h.isDynamic_eq hb (p := p) (by simp), hp]

end Way

end Body

end Scalarize
