import Scalarize.Proofs.Region.Parts
import Scalarize.Proofs.Region.Way

/-!
# One guarded write

A write to one element stands in a block of its own, behind a guard that holds for this element only.

* `Body.Since` : operations made one after the other, each of which reads what was made before it;
  `Since.later` : so the readers of one come behind it;
* `PrefixedIn.grows`, `Since.grows` : operations made in the block of a guard, and in order;
* `Way.again_runs` : a way is made again from another value;
* `Body.Guarded`, `Prefixed.guardedWrite_runs` : the write to one element.
-/

namespace Scalarize

open Body Lower

namespace Body

variable {must : Prop} {b b₀ b' s₀ : Body} {s : Builder} {o x z w : OpId} {k t : BlockId} {A B H N M : List OpId}
  {S : ValueId → Prop} {u v w₀ : ValueId} {i : Nat} {a : Access} {xs ys : List (OpId × Access)}

/-! ## Operations in order -/

/-- What is made later comes behind. -/
theorem Grown.trans {b₁ b₂ : Body} (h : b₀.Grown N b₁) (h' : b₁.Grown M b₂) (hN : ∀ x ∈ N, (b₁.op? x).isSome)
    (hM : ∀ x ∈ M, b₁.op? x = none) : b₀.Grown (N ++ M) b₂ := by
  have hlt : ∀ x ∈ N, ∀ y ∈ M, x.index < y.index := fun x hx y hy => by
    have hx := isSome_op?.1 (hN x hx)
    have hy : ¬y.index < b₁.ops.size := fun hy => by
      have := isSome_op?.2 hy
      rw [hM y (by assumption)] at this
      cases this
    omega
  refine ⟨h.edited.trans h'.edited, ?_, List.pairwise_append.2 ⟨h.sorted, h'.sorted, hlt⟩, fun {x} hx hx' => ?_, ?_⟩
  · refine List.nodup_append.2 ⟨h.nodup, h'.nodup, fun x hx y hy he => ?_⟩
    have := hlt x hx y hy
    rw [he] at this
    omega
  · rw [List.mem_append]
    cases hop : b₁.op? x with
    | none => exact .inr (h'.recent hop hx')
    | some op => exact .inl (h.recent hx (by rw [hop]; rfl))
  · intro x op hop he hk
    obtain ⟨op₁, hop₁, he₁⟩ := h'.guards hop he hk
    obtain ⟨op₂, hop₂, hkind, -⟩ := h'.edited.op? hop₁
    obtain rfl := Option.some.inj (hop.symm.trans hop₂)
    exact h.guards hop₁ he₁ (hkind ▸ hk)

/-- The operations `N` were made since `s₀`. Each of them reads values `S` of `s₀`, and what one before it made. -/
structure Since (s₀ : Body) (S : ValueId → Prop) (N : List OpId) (b : Body) : Prop where
  grown : s₀.Grown N b
  ext : Extends s₀ b
  fresh : ∀ x ∈ N, s₀.op? x = none
  known : ∀ x ∈ N, (b.op? x).isSome
  reads : ∀ {x v}, x ∈ N → b.Reads x v → S v ∨ ∃ d ∈ N, d.index < x.index ∧ ∃ i, b.origin? v = some (.result d i)
  inner : ∀ {x y}, y ∈ b.inner x → y ∈ s₀.inner x ∨ y ∈ N

namespace Since

theorem start (hb : b.Coherent) : b.Since S [] b where
  grown := .refl hb
  ext := .refl b
  fresh := by simp
  known := by simp
  reads := by simp
  inner := .inl

theorem created (h : s₀.Since S N b) {p : Point} {kind : OpKind} {vs : List ValueId} {tys : List Ty}
    (hc : Created b p kind vs tys x b') (hv : ∀ v ∈ vs, AtHand S N b v) : s₀.Since S (N ++ [x]) b' where
  grown := h.grown.created h.known hc
  ext := h.ext.trans hc.extended
  fresh y hy := by
    rcases List.mem_append.1 hy with hy | hy
    · exact h.fresh y hy
    · rw [List.mem_singleton.1 hy]
      exact h.grown.edited.op?_fresh hc
  known y hy := by
    rcases List.mem_append.1 hy with hy | hy
    · obtain ⟨op, hop⟩ := Option.isSome_iff_exists.1 (h.known y hy)
      rw [hc.op?_old hop]
      rfl
    · rw [List.mem_singleton.1 hy, hc.op?_self]
      rfl
  reads {y v} hy hr := by
    obtain ⟨op, hop, hmem⟩ := hr
    rcases hc.op?_cases hop with hop' | ⟨rfl, rfl⟩
    · have hy' : y ∈ N := by
        rcases List.mem_append.1 hy with hy | hy
        · exact hy
        · rw [List.mem_singleton.1 hy, hc.fresh] at hop'
          cases hop'
      refine (h.reads hy' ⟨op, hop', hmem⟩).imp_right ?_
      rintro ⟨d, hd, hlt, i, hi⟩
      exact ⟨d, List.mem_append_left _ hd, hlt, i, hc.extended.origin?_some hi⟩
    · refine (hv v hmem).imp_right ?_
      rintro ⟨d, hd, i, hi⟩
      refine ⟨d, List.mem_append_left _ hd, ?_, i, hc.extended.origin?_some hi⟩
      rw [hc.id]
      exact isSome_op?.1 (h.known d hd)
  inner {y z} hz := by
    by_cases hy : y = x
    · rw [hy, hc.inner] at hz
      cases hz
    · rcases hc.mem_inner hy hz with hz | ⟨rfl, -⟩
      · exact (h.inner hz).imp_right (List.mem_append_left _)
      · exact .inr (by simp)

theorem declared (h : s₀.Since S N b) (hx : x ∈ N) (f : Decl → Decl) : s₀.Since S N (b.modifyDecl x f) where
  grown := h.grown.declared (h.fresh x hx) f
  ext := h.ext.trans (Extends.modifyDecl b x f)
  fresh := h.fresh
  known y hy := by rw [op?_modifyDecl, Option.isSome_map]; exact h.known y hy
  reads hy hr := h.reads hy (reads_modifyDecl.1 hr)
  inner hy := h.inner (inner_modifyDecl b x f _ ▸ hy)

/-- What was made is new. -/
theorem new (h : s₀.Since S N b) (h₀ : s₀.Coherent) (hx : x ∈ N) (hv : b.origin? v = some (.result x i)) :
    s₀.values.size ≤ v.index := by
  by_contra hlt
  rw [h.ext.origin? (Nat.not_le.1 hlt)] at hv
  obtain ⟨op, hop, -⟩ := h₀.origin hv
  rw [h.fresh x hx] at hop
  cases hop

/-- What was there is as it was. -/
theorem op?_old (h : s₀.Since S N b) {op : Operation} (hop : s₀.op? x = some op) : b.op? x = some op := by
  obtain ⟨op₁, hop₁, hk, hres, hblock, -⟩ := h.grown.edited.op? hop
  obtain ⟨op₂, hop₂, -, hops, -, -, he⟩ := h.ext.op? hop
  obtain rfl := Option.some.inj (hop₁.symm.trans hop₂)
  rw [hop₁]
  obtain ⟨⟩ := op
  obtain ⟨⟩ := op₁
  simp_all

/-- What was there reads what it read. -/
theorem mem_of_reads (h : s₀.Since S N b) (hr : b.Reads z v) : s₀.Reads z v ∨ z ∈ N := by
  cases hop : s₀.op? z with
  | some op =>
    obtain ⟨op', hop', -, hops, -⟩ := h.ext.op? hop
    obtain ⟨op'', hop'', hv⟩ := hr
    rw [Option.some.inj (hop''.symm.trans hop'), hops] at hv
    exact .inl ⟨op, hop, hv⟩
  | none =>
    obtain ⟨op, hop', -⟩ := hr
    exact .inr (h.grown.recent hop (by rw [hop']; rfl))

/-- The values that are read anew are among `S`, or new. -/
theorem adds (h : s₀.Since S N b) (h₀ : s₀.Coherent) (hr : b.Reads z v) :
    s₀.Reads z v ∨ S v ∨ s₀.values.size ≤ v.index := by
  refine (h.mem_of_reads hr).imp_right fun hz => (h.reads hz hr).imp_right ?_
  rintro ⟨d, hd, -, i, hi⟩
  exact h.new h₀ hd hi

/-- The readers of an operation come behind it. -/
theorem later (h : s₀.Since S N b) (h₀ : s₀.Coherent) (hS : ∀ v, S v → v.index < s₀.values.size) {l r : List OpId}
    (hN : N = l ++ x :: r) (hv : b.origin? v = some (.result x i)) (hr : b.Reads z v) : z ∈ r := by
  have hx : x ∈ N := by simp [hN]
  have hnew := h.new h₀ hx hv
  have hz : z ∈ N := by
    refine (h.mem_of_reads hr).resolve_left fun hold => ?_
    have := h₀.lt_of_reads hold
    omega
  rcases h.reads hz hr with hv' | ⟨d, -, hlt, j, hj⟩
  · have := hS v hv'
    omega
  · obtain ⟨rfl, -⟩ : x = d ∧ i = j := by simpa using hv.symm.trans hj
    have hsorted := h.grown.sorted
    rw [hN, List.pairwise_append, List.pairwise_cons] at hsorted
    rw [hN, List.mem_append, List.mem_cons] at hz
    rcases hz with hz | rfl | hz
    · have := hsorted.2.2 z hz x List.mem_cons_self
      omega
    · omega
    · exact hz

theorem not_reads_self (h : s₀.Since S N b) (h₀ : s₀.Coherent) (hS : ∀ v, S v → v.index < s₀.values.size) (hx : x ∈ N)
    (hv : b.origin? v = some (.result x i)) : ¬b.Reads x v := fun hr => by
  obtain ⟨l, r, hN⟩ := List.append_of_mem hx
  have hnd := h.grown.nodup
  rw [hN, List.nodup_append, List.nodup_cons] at hnd
  exact hnd.2.1.1 (h.later h₀ hS hN hv hr)

/-- What is made later comes behind. -/
theorem trans (h : s₀.Since S N b) (h' : b.Since S M b') : s₀.Since S (N ++ M) b' where
  grown := h.grown.trans h'.grown h.known h'.fresh
  ext := h.ext.trans h'.ext
  fresh x hx := by
    rcases List.mem_append.1 hx with hx | hx
    · exact h.fresh x hx
    · cases hop : s₀.op? x with
      | none => rfl
      | some op =>
        have hop' := h'.fresh x hx
        rw [h.op?_old hop] at hop'
        cases hop'
  known x hx := by
    rcases List.mem_append.1 hx with hx | hx
    · obtain ⟨op, hop⟩ := Option.isSome_iff_exists.1 (h.known x hx)
      rw [h'.op?_old hop]
      rfl
    · exact h'.known x hx
  reads {x v} hx hr := by
    rcases List.mem_append.1 hx with hx | hx
    · obtain ⟨op, hop⟩ := Option.isSome_iff_exists.1 (h.known x hx)
      obtain ⟨op', hop', hv⟩ := hr
      obtain rfl := Option.some.inj (hop'.symm.trans (h'.op?_old hop))
      refine (h.reads hx ⟨op', hop, hv⟩).imp_right ?_
      rintro ⟨d, hd, hlt, i, hi⟩
      exact ⟨d, List.mem_append_left _ hd, hlt, i, h'.ext.origin?_some hi⟩
    · refine (h'.reads hx hr).imp_right ?_
      rintro ⟨d, hd, hrest⟩
      exact ⟨d, List.mem_append_right _ hd, hrest⟩
  inner {x y} hy := by
    rcases h'.inner hy with hy | hy
    · exact (h.inner hy).imp_right (List.mem_append_left _)
    · exact .inr (List.mem_append_right _ hy)

end Since

/-- In front of `o`, in block `k` between `A` and `B`, the operations `N` were made since `b₀`, and behind them the guard
`w`. Operations are made in the block `t` of this guard, after the operations `M`. -/
def PrefixedIn (b₀ : Body) (o : OpId) (k : BlockId) (A B H N : List OpId) (w : OpId) (t : BlockId) (M : List OpId)
    (s : Builder) : Prop :=
  (∃ G, InGuard b₀ k A (o :: B) H w t N G M s) ∧ b₀.Grown (N ++ w :: M) s.body

namespace PrefixedIn

theorem grows (b₀ : Body) (o : OpId) (k : BlockId) (A B H N : List OpId) (w : OpId) (t : BlockId) :
    Grows (fun _ => True) (fun _ _ _ _ => True) (fun _ _ => True) (PrefixedIn b₀ o k A B H N w t) where
  coherent h := h.2.edited.coherent
  place := fun ⟨⟨_, hG⟩, hg⟩ => hG.place hg.edited.coherent
  make := by
    rintro M s kind vs ins tys x b' ⟨⟨G, hG⟩, hg⟩ - hc - - - -
    refine ⟨⟨G ++ [x], ?_⟩, ?_⟩
    · have := hG.created hg.edited.coherent hg.nodup hc
      rw [hG.point]
      simpa using this
    · have := hg.created hG.outer.known hc
      simpa using this
  declare := by
    rintro M s x f ⟨⟨G, hG⟩, hg⟩ hx -
    exact ⟨⟨G, hG.declared f⟩, hg.declared (hG.outer.fresh x (by simp [hx])) f⟩

theorem point (h : PrefixedIn b₀ o k A B H N w t M s) : s.point.block = t := by
  obtain ⟨⟨_, hG⟩, -⟩ := h
  rw [hG.point]

/-- Behind the guard, operations are made in front again. -/
theorem leave (h : PrefixedIn b₀ o k A B H N w t M s) :
    b₀.Prefixed o k A B (N ++ w :: M) ⟨s.body, ⟨k, (A ++ (H ++ [w])).length⟩⟩ := by
  obtain ⟨⟨G, hG⟩, hg⟩ := h
  exact ⟨⟨H ++ [w], hG.outer⟩, hg⟩

end PrefixedIn

/-- What was made in front of `o` is guarded by what guards `o`. -/
theorem Prefixed.mem_inner {y : OpId} (h : b₀.Prefixed o k A B N s) (hs : b₀.slotsOf k = A ++ o :: B)
    (hy : (b₀.op? y).isSome) (hz : z ∈ s.body.inner y) : z ∈ b₀.inner y ∨ (z ∈ N ∧ o ∈ b₀.inner y) := by
  obtain ⟨⟨H, hH⟩, -⟩ := h
  obtain ⟨k', hk', hz⟩ := mem_inner_iff.1 hz
  rw [hH.untouched.guardedBlocks hy] at hk'
  by_cases hk : k' = k
  · subst hk
    rw [hH.slots, List.mem_append, List.mem_append, or_right_comm] at hz
    rcases hz with hz | hz
    · exact .inl (mem_inner_iff.2 ⟨k', hk', by rw [hs]; exact List.mem_append.2 hz⟩)
    · exact .inr ⟨hH.unfolds.subset hz, mem_inner_iff.2 ⟨k', hk', by simp [hs]⟩⟩
  · obtain ⟨op, hop⟩ := Option.isSome_iff_exists.1 hy
    obtain ⟨-, blk, hblk, -⟩ := hH.coherent₀.guards hop (guardedBlocks_eq hop ▸ hk')
    rw [hH.untouched.slotsOf hblk (by simpa using hk) (by simp)] at hz
    exact .inl (mem_inner_iff.2 ⟨k', hk', hz⟩)

/-- A guard is made in front of `o`. -/
theorem Prefixed.guard_runs (h : b₀.Prefixed o k A B N s) {cond : ValueId} (hcond : (s.body.value? cond).isSome) :
    Runs must (Build.when cond false) s fun r s' => ∃ H, Created s.body s.point (.when r.2.1 none) [cond] [] r.1 s'.body ∧
      PrefixedIn b₀ o k A B H N r.1 r.2.1 [] ⟨s'.body, ⟨r.2.1, 0⟩⟩ ∧ s'.point = ⟨k, (A ++ (H ++ [r.1])).length⟩ := by
  obtain ⟨⟨H, hH⟩, hg⟩ := h
  have hb := hg.edited.coherent
  refine (when_runs s cond false fun _ => ⟨hH.place, isSome_value?.1 hcond⟩).mono ?_
  rintro ⟨w, t, e⟩ s' ⟨hc, hp, he⟩
  obtain rfl : e = none := by simpa using he
  refine ⟨H, hc, ⟨⟨[], .start hH hb hc⟩, hg.created hH.known hc⟩, ?_⟩
  rw [hp, hH.point]
  simp [Nat.add_assoc]

theorem Prefixed.point (h : b₀.Prefixed o k A B N s) : s.point.block = k := by
  obtain ⟨⟨_, hH⟩, -⟩ := h
  rw [hH.point]

/-- Operations made in one block are made in order. -/
theorem Since.grows {Mk : Body → OpKind → List ValueId → List Ty → Prop} {Ad : OpKind → List Ty → Prop}
    {I : List OpId → Builder → Prop} (hI : Grows (fun _ => True) Mk Ad I) (hk : ∀ {N s}, I N s → s.point.block = k)
    (s₀ : Body) (S : ValueId → Prop) (M N : List OpId) :
    Grows S Mk Ad fun N' s => I (M ++ N') s ∧ s₀.Since S (N ++ N') s.body ∧ ∀ x ∈ N', s.body.Lies x k where
  coherent h := hI.coherent h.1
  place h := hI.place h.1
  make := by
    rintro N' s kind vs ins tys x b' ⟨h, hsince, hlies⟩ hb hc hv hins hsh hM
    refine ⟨?_, ?_, fun y hy => ?_⟩
    · rw [← List.append_assoc]
      exact hI.make h hb hc (fun _ _ => .inl trivial) hins hsh hM
    · rw [← List.append_assoc]
      exact hsince.created hc fun v hv' => (hv v hv').mono (.refl _) fun _ => List.mem_append_right N
    · rcases List.mem_append.1 hy with hy | hy
      · exact (hlies y hy).mono hc.extended
      · rw [List.mem_singleton.1 hy, Lies, hc.op?_self, Option.map_some, hk h]
  declare := by
    rintro N' s x f ⟨h, hsince, hlies⟩ hx hA
    exact ⟨hI.declare h (List.mem_append_right M hx) hA, hsince.declared (List.mem_append_right N hx) f,
      fun y hy => (hlies y hy).mono (Extends.modifyDecl _ _ _)⟩

/-! ## The way from one element -/

/-- The same accessor on another value of the type reaches the same. -/
theorem Picks.again {op : Operation} {d : OpId} {leaf v' : ValueId} (h : b.Picks x u a v) (hb : b.Coherent)
    (hext : Extends b b') (hop : b.op? x = some op) (hd : b'.Makes d op.kind (leaf :: op.operands.tail) [v'])
    (hleaf : b'.ty? leaf = b.ty? u) (hv : b'.ty? v' = b.ty? v) : b'.Picks d leaf a v' := by
  have hagree := hext.agrees hb
  have hmade : ∀ {kind vs}, b.Makes x kind (u :: vs) [v] → b'.Makes d kind (leaf :: vs) [v'] := by
    rintro kind vs ⟨op', hop', hbare, hops, -⟩
    obtain rfl := Option.some.inj (hop.symm.trans hop')
    obtain ⟨opd, hopd, hbare', hops', hrest⟩ := hd
    rw [hops, List.tail_cons] at hops'
    exact ⟨opd, hopd, hbare'.trans hbare, hops', hrest⟩
  have hlt : ∀ {kind y}, b.Makes x kind [u, y] [v] → y.index < b.values.size := by
    rintro kind y ⟨op', hop', -, hops, -⟩
    exact hb.operand hop' (by rw [hops]; simp)
  cases h with
  | fixed hx hu hr hw => exact .fixed (hmade hx) (hleaf.trans hu) hr (hv.trans hw)
  | literal hx hu hy hl hsize hw =>
    exact .literal (hmade hx) (hleaf.trans hu) ((hagree.literal (hlt hx)).2 hy) hl hsize (hv.trans hw)
  | computed hx hu hy hw =>
    refine .computed (hmade hx) (hleaf.trans hu) ?_ (hv.trans hw)
    have hy' := (hagree.computed (isSome_ty?.1 (by rw [hu]; rfl)) (hlt hx)).2 hy
    unfold Computed at hy' ⊢
    rwa [hleaf, ← hext.ty? (isSome_ty?.1 (by rw [hu]; rfl))]

/-- The accessors of a way read, beside what they start from, values `S` only. -/
def Beside (b : Body) (S : ValueId → Prop) (xs : List (OpId × Access)) : Prop :=
  ∀ p ∈ xs, ∀ op, b.op? p.1 = some op → ∀ u ∈ op.operands.tail, S u

/-- A way is made again, from another value of the type. -/
theorem Way.again_runs {Ad : OpKind → List Ty → Prop} {I : List OpId → Builder → Prop} {st : LowerState} {leaf : ValueId}
    (hI : Grows S (fun _ _ _ _ => True) Ad I) (h : I N st.builder) (hb : b.Coherent) (hext : Extends b st.builder.body)
    (hway : b.Way v ys w₀) (hleaf : AtHand S N st.builder.body leaf) (hv : (b.value? v).isSome)
    (hty : st.builder.body.ty? leaf = b.ty? v) (hS : b.Beside S ys) :
    Runs must ((ys.map Prod.fst).foldlM (fun leaf x => reaccess x leaf) leaf) st fun u st' => ∃ xs,
      Grew I N st.builder (N ++ xs.map Prod.fst) st'.builder ∧
      AtHand S (N ++ xs.map Prod.fst) st'.builder.body u ∧ st'.builder.body.Way leaf xs u ∧
      xs.map Prod.snd = ys.map Prod.snd ∧ (b.value? w₀).isSome ∧ st'.builder.body.ty? u = b.ty? w₀ := by
  induction hway with
  | self => exact .pure ⟨[], by simpa using .refl h, by simpa using hleaf, .self, rfl, hv, hty⟩
  | @step ys u₀ w₀ x a _ hx ih =>
    rw [List.map_append, List.map_singleton, List.foldlM_append]
    refine (ih fun p hp => hS p (List.mem_append_left _ hp)).bind ?_
    rintro u₁ st₁ ⟨xs, hg, hat, hway, hxs, hu₀, hty₁⟩
    obtain ⟨op, t, c, hop, hreach, htu, htw⟩ := hx.reached hb
    simp only [List.foldlM_cons, List.foldlM_nil, bind_pure]
    refine (hI.reaccess_runs hg.holds (hext.trans hg.body) hop hreach hat (hty₁.trans htu)
      (fun y hy => .inl (hS (x, a) (by simp) op hop y hy)) trivial).mono ?_
    rintro u₂ st₂ ⟨-, d, hg₂, hmk, hty₂, -⟩
    have hext₂ := (hext.trans hg.body).trans hg₂.body
    have hpick : st₂.builder.body.Picks d u₁ a u₂ := by
      refine hx.again hb hext₂ hop hmk ?_ (hty₂.trans htw.symm)
      rw [hg₂.body.ty?_some (hty₁.trans htu), htu]
    refine ⟨xs ++ [(d, a)], ?_, ?_, .step (hway.mono (hI.coherent hg.holds) hg₂.body) hpick, by simp [hxs],
      isSome_value?.2 (isSome_ty?.1 (by rw [htw]; rfl)), hty₂.trans htw.symm⟩
    · simpa using hg.trans hg₂
    · exact .inr ⟨d, by simp, 0, hmk.origin? (hI.coherent hg₂.holds) rfl⟩

/-! ## The write to one element -/

/-- The operations write `src` to what lies behind the element `i` of a vector of length `n` by further accesses, behind a
guard in block `k` that holds if the index is `i`. -/
inductive Guarded (strict : Bool) (vector index src : ValueId) (n i : Nat) (as : List Access) (ty : Option Ty) (k : BlockId)
    (b : Body) : List OpId → Prop
  | mk {x y w d : OpId} {t : BlockId} {position cond u : ValueId} {xs : List (OpId × Access)}
      (hx : b.Makes x (.constant i) [] [position]) (hposition : b.ty? position = some (.uint (selectWidth n)))
      (hy : b.Makes y (.prim .eq) [index, position] [cond]) (hw : b.Makes w (.when t none) [cond] [])
      (hxs : b.Way vector xs u) (has : xs.map Prod.snd = .fixed i :: as) (hu : b.ty? u = ty)
      (hd : b.Makes d (.connect strict) [u, src] []) (hfront : ∀ z ∈ [x, y, w], b.Lies z k)
      (hlies : ∀ z ∈ xs.map Prod.fst ++ [d], b.Lies z t) :
      Guarded strict vector index src n i as ty k b ([x, y, w] ++ (xs.map Prod.fst ++ [d]))

/-- Only the guard guards anything, and this guards nothing. -/
theorem Guarded.mem_inner {strict : Bool} {vector index src : ValueId} {n : Nat} {as : List Access} {ty : Option Ty}
    {y : OpId} (hg : b.Guarded strict vector index src n i as ty k N) (hs : s₀.Since S N b) (hy : y ∈ N)
    (hz : z ∈ b.inner y) : z ∈ N ∧ b.guardedBlocks z = [] := by
  have hb := hs.grown.edited.coherent
  have hzN : z ∈ N := (hs.inner hz).resolve_left fun hz => by
    obtain ⟨op, hop, -⟩ := Body.mem_inner.1 hz
    rw [hs.fresh y hy] at hop
    cases hop
  refine ⟨hzN, ?_⟩
  obtain ⟨k', hk', hz⟩ := mem_inner_iff.1 hz
  obtain ⟨opz, hopz, hblock⟩ := hb.op?_of_mem_slotsOf hz
  cases hg with
  | @mk x c w d t _ _ _ xs hx _ hc hw hxs _ _ hd hfront hlies =>
    have hplain : ∀ {y kind vs rs}, b.Makes y kind vs rs → kind.blocks = [] → b.guardedBlocks y = [] := by
      rintro y kind vs rs ⟨op, hop, hbare, -⟩ hk
      rw [guardedBlocks_eq hop, OpKind.blocks_eq_of_bare_eq hbare, hk]
    have hback : ∀ y ∈ xs.map Prod.fst ++ [d], b.guardedBlocks y = [] := fun y hy => by
      rcases List.mem_append.1 hy with hy | hy
      · obtain ⟨p, hp, rfl⟩ := List.mem_map.1 hy
        obtain ⟨u, v, hpick⟩ := hxs.exists_picks hp
        obtain ⟨kind, vs, hmk, hacc⟩ := hpick.makes
        exact hplain hmk (OpKind.blocks_of_isAccessor hacc)
      · rw [List.mem_singleton.1 hy]
        exact hplain hd rfl
    rcases List.mem_append.1 hzN with hzN | hzN
    · -- the guard and its condition lie in front
      have hyw : y = w := by
        rcases List.mem_append.1 hy with hy | hy
        · simp only [List.mem_cons, List.not_mem_nil, or_false] at hy
          rcases hy with rfl | rfl | rfl
          · rw [hplain hx rfl] at hk'
            cases hk'
          · rw [hplain hc rfl] at hk'
            cases hk'
          · rfl
        · rw [hback y hy] at hk'
          cases hk'
      subst hyw
      obtain ⟨opw, hopw, hbare, -⟩ := hw
      have hwk := hfront y (by simp)
      have hzk := hfront z hzN
      rw [Lies, hopw, Option.map_some, Option.some.injEq] at hwk
      rw [Lies, hopz, Option.map_some, Option.some.injEq, hblock] at hzk
      have hlt := (hb.guards hopw (guardedBlocks_eq hopw ▸ hk')).1
      rw [hwk, hzk] at hlt
      exact absurd hlt (Nat.lt_irrefl _)
    · exact hback z hzN

/-- Only the guard guards any of the operations, outside of block `k`. -/
theorem Guarded.mem_of_mem_inner {strict : Bool} {vector index src : ValueId} {n : Nat} {as : List Access} {ty : Option Ty}
    {y : OpId} (hg : b.Guarded strict vector index src n i as ty k N) (hb : b.Coherent) (hz : z ∈ N) (hy : z ∈ b.inner y)
    (hk : k ∉ b.guardedBlocks y) : y ∈ N := by
  obtain ⟨k', hk', hs⟩ := mem_inner_iff.1 hy
  obtain ⟨opz, hopz, hblock⟩ := hb.op?_of_mem_slotsOf hs
  cases hg with
  | @mk x c w d t _ _ _ xs _ _ _ hw _ _ _ _ hfront hlies =>
    rcases List.mem_append.1 hz with hz | hz
    · have hzk := hfront z hz
      rw [Lies, hopz, Option.map_some, Option.some.injEq, hblock] at hzk
      rw [hzk] at hk'
      exact absurd hk' hk
    · have hzt := hlies z hz
      rw [Lies, hopz, Option.map_some, Option.some.injEq, hblock] at hzt
      obtain ⟨opw, hopw, hbare, -⟩ := hw
      have hwt : t ∈ b.guardedBlocks w := by
        rw [guardedBlocks_eq hopw, OpKind.blocks_eq_of_bare_eq hbare]
        exact List.mem_cons_self
      obtain rfl := hb.guard_unique (hzt ▸ hk') hwt
      simp

/-- A write to one element is made behind a guard of its own. -/
theorem Prefixed.guardedWrite_runs {st : LowerState} {strict : Bool} {vector index src : ValueId} {n : Nat} {e : Ty}
    (h : b.Prefixed o k A B N st.builder) (hext : Extends b st.builder.body) (hb : b.Coherent)
    (hvector : b.ty? vector = some (.vector e n)) (hv : b.ty? v = some e) (hway : b.Way v ys w₀) (hindex : S index)
    (hindex' : (b.value? index).isSome) (hsrc : S src) (hsrc' : (b.value? src).isSome) (hS : S vector)
    (hS' : b.Beside S ys) (hi : i < n) :
    Runs must (guardedWrite strict vector index src (selectWidth n) (ys.map Prod.fst).reverse i) st fun _ st' => ∃ N',
      Grew (b.Prefixed o k A B) N st.builder (N ++ N') st'.builder ∧
      st.builder.body.Since S N' st'.builder.body ∧
      Guarded strict vector index src n i (ys.map Prod.snd) (b.ty? w₀) k st'.builder.body N' := by
  have hgrows : Grows S _ _ fun N' s => b.Prefixed o k A B (N ++ N') s ∧ st.builder.body.Since S ([] ++ N') s.body ∧
      ∀ x ∈ N', s.body.Lies x k := Since.grows (Prefixed.grows b o k A B) Prefixed.point st.builder.body S N []
  have hty : ∀ {v s t}, Extends st.builder.body s → b.ty? v = some t → s.ty? v = some t := fun hs hv =>
    (hext.trans hs).ty?_some hv
  have hsome : ∀ {v s}, Extends st.builder.body s → (b.value? v).isSome → ∃ t, s.ty? v = some t := fun hs hv => by
    obtain ⟨t, ht⟩ := Option.isSome_iff_exists.1 (isSome_ty?.2 (isSome_value?.1 hv))
    exact ⟨t, hty hs ht⟩
  unfold guardedWrite
  -- the position and the condition
  refine Runs.bind_build (hgrows.constant_runs (N := []) ⟨by rwa [List.append_nil], .start h.coherent, by simp⟩
    rfl trivial) ?_
  rintro position s₁ ⟨x, hg₁, hx, hposition, -⟩
  have hb₁ := hgrows.coherent hg₁.holds
  obtain ⟨ti, hti⟩ := hsome hg₁.body hindex'
  have hat : ∀ u ∈ [index, position], AtHand S ([] ++ [x]) s₁.body u := by
    intro u hu
    rcases List.mem_pair.1 hu with rfl | rfl
    · exact .inl hindex
    · exact .inr ⟨x, by simp, 0, hx.origin? hb₁ rfl⟩
  refine Runs.bind_build (hgrows.prim_runs (p := .eq) hg₁.holds hat (.cons hti (.cons hposition .nil))
    rfl trivial) ?_
  rintro cond s₂ ⟨y, hg₂, hy, hcond, -⟩
  have hb₂ := hgrows.coherent hg₂.holds
  obtain ⟨hpre₂, hsince₂, hlies₂⟩ := hg₂.holds
  refine Runs.bind_build (hpre₂.guard_runs (isSome_value?.2 (isSome_ty?.1 (by rw [hcond]; rfl)))) ?_
  rintro ⟨w, t, _⟩ s₃ ⟨H, hc, hin, hp₃⟩
  dsimp only at hc hin hp₃
  refine Runs.bind_point (Runs.bind_moveTo ?_)
  -- behind the guard
  have hsince₃ := hsince₂.created hc fun u hu => by
    rw [List.mem_singleton.1 hu]
    exact .inr ⟨y, by simp, 0, hy.origin? hb₂ rfl⟩
  have hw : s₃.body.Makes w (.when t none) [cond] [] := ⟨_, hc.op?_self, rfl, rfl, rfl, rfl⟩
  have hwk : s₃.body.Lies w k := by
    rw [Lies, hc.op?_self, Option.map_some, hpre₂.point]
  have hgrowsIn : Grows S _ _ fun M s => PrefixedIn b o k A B H _ w t ([] ++ M) s ∧
      st.builder.body.Since S _ s.body ∧ ∀ x ∈ M, s.body.Lies x t :=
    Since.grows (PrefixedIn.grows b o k A B H (N ++ ([] ++ [x] ++ [y])) w t) PrefixedIn.point st.builder.body S []
      ([] ++ [] ++ [x] ++ [y] ++ [w])
  have hext₃ := (hg₁.body.trans hg₂.body).trans hc.extended
  refine Runs.bind_build (hgrowsIn.subindex_runs (N := []) (s := ⟨s₃.body, ⟨t, 0⟩⟩) ⟨hin, hsince₃, by simp⟩ (.inl hS)
    (fun _ _ _ _ _ => trivial) fun _ => ⟨e, n, hty hext₃ hvector, hi⟩) ?_
  rintro leaf s₄ ⟨-, tv, c, kind, htv, hr, d₀, hg₄, hd₀, hleaf, -⟩
  obtain rfl := Option.some.inj ((hty hext₃ hvector).symm.trans htv)
  obtain rfl : e = c := by simpa [Ty.child?, hi] using hr.1
  have hb₄ := hgrowsIn.coherent hg₄.holds
  have hext₄ := hext₃.trans hg₄.body
  rw [List.reverse_reverse]
  refine Runs.bind (Way.again_runs hgrowsIn hg₄.holds hb (hext.trans hext₄) hway
    (.inr ⟨d₀, by simp, 0, hd₀.origin? hb₄ rfl⟩) (isSome_value?.2 (isSome_ty?.1 (by rw [hv]; rfl))) (hleaf.trans hv.symm) hS') ?_
  rintro u st₅ ⟨xs, hg₅, hat₅, hway₅, hxs, hw₀, hu⟩
  have hext₅ := hext₄.trans hg₅.body
  obtain ⟨ts, hts⟩ := hsome hext₅ hsrc'
  obtain ⟨tw, htw⟩ := Option.isSome_iff_exists.1 (isSome_ty?.2 (isSome_value?.1 hw₀))
  have hshaped : (OpKind.connect strict).Shaped True [tw, ts] [] := ⟨tw, ts, rfl, rfl⟩
  refine Runs.bind_build (hgrowsIn.create_runs hg₅.holds rfl (fun u' hu' => ?_) (.cons (hu.trans htw) (.cons hts .nil))
    hshaped trivial) ?_
  · rcases List.mem_pair.1 hu' with rfl | rfl
    · exact hat₅
    · exact .inl hsrc
  rintro d s₆ ⟨hg₆, hd, -⟩
  obtain ⟨hin₆, hsince₆, hlies₆⟩ := hg₆.holds
  refine Runs.build (Runs.moveTo ⟨[x, y, w] ++ (((d₀, .fixed i) :: xs).map Prod.fst ++ [d]), ⟨?_, ?_, List.prefix_append _ _⟩, ?_, ?_⟩)
  · rw [hp₃]
    have := hin₆.leave
    simpa using this
  · exact hext₅.trans hg₆.body
  · simpa using hsince₆
  · have hext₃₆ := (hg₄.body.trans hg₅.body).trans hg₆.body
    have hpick : s₄.body.Picks d₀ vector (.fixed i) leaf := .fixed hd₀ (hty hext₄ hvector) hr hleaf
    refine .mk (hx.mono ((hg₂.body.trans hc.extended).trans hext₃₆)) ?_ ?_ (hw.mono hext₃₆)
      (?_ : s₆.body.Way vector ((d₀, .fixed i) :: xs) u) ?_ ?_ hd ?_ ?_
    · exact ((hg₂.body.trans hc.extended).trans hext₃₆).ty?_some hposition
    · exact hy.mono (hc.extended.trans hext₃₆)
    · exact .cons (p := (d₀, .fixed i)) (hpick.mono hb₄ (hg₅.body.trans hg₆.body))
        (hway₅.mono (hgrowsIn.coherent hg₅.holds) hg₆.body)
    · simp [hxs]
    · rw [hg₆.body.ty?_some (hu.trans htw), htw]
    · have hold : ∀ z ∈ [x, y], s₂.body.Lies z k := fun z hz => hlies₂ z (by simpa using hz)
      intro z hz
      rcases List.mem_cons.1 hz with rfl | hz
      · exact (hold _ (by simp)).mono (hc.extended.trans hext₃₆)
      rcases List.mem_cons.1 hz with rfl | hz
      · exact (hold _ (by simp)).mono (hc.extended.trans hext₃₆)
      · rw [List.mem_singleton.1 hz]
        exact hwk.mono hext₃₆
    · intro z hz
      exact hlies₆ z (by simpa using hz)

end Body

end Scalarize
