import Scalarize.Proofs.Region.Write

/-!
# Writes at computed positions, one after the other

A write behind a computed access gives way to one write for each element, and so do these as long as there are
computed accesses behind them.

* `Body.Guarded.roles`, `Write.writes_runs` : what the writes to all elements stand for;
* `Write.Expanding.write_layer` : they take the place of the write;
* `Write.Expanding.kept`, `Lower.connect_expands` : so the connections that are left stand for one element each.
-/

namespace Scalarize

open Body Lower

/-- What is new and walked is among what the operation gave way to. -/
theorem Body.Cleared.mem_of_walked {b₀ b : Body} {o x : OpId} {k : BlockId} {A B C N : List OpId}
    (h : b₀.Cleared o k A B C N b) (hb : b₀.Coherent)
    (hs : b₀.slotsOf k = A ++ o :: B) (ho : b₀.guardedBlocks o = []) (hx : b.Walked x) (hnew : b₀.op? x = none) : x ∈ N := by
  -- in the blocks that were there only `C` is new
  have hblock : ∀ {k' x}, (b₀.block? k').isSome → x ∈ b.slotsOf k' → b₀.op? x = none → x ∈ N := fun {k' x} hk' hx hnew => by
    have hold : ∀ k, x ∉ b₀.slotsOf k := fun k hmem => by
      obtain ⟨op, hop, -⟩ := hb.op?_of_mem_slotsOf hmem
      rw [hnew] at hop
      cases hop
    by_cases hk : k' = k
    · subst hk
      have hmem := hold k'
      rw [hs] at hmem
      rw [h.slots] at hx
      refine h.unfolds.subset ?_
      simp only [List.mem_append, List.mem_cons, List.not_mem_nil, or_false] at hx hmem ⊢
      tauto
    · obtain ⟨blk, hblk⟩ := Option.isSome_iff_exists.1 hk'
      rw [h.untouched.slotsOf hblk (by simpa using hk) fun y hy => by rw [List.mem_singleton.1 hy, ho]; exact List.not_mem_nil] at hx
      exact absurd hx (hold k')
  induction hx with
  | entry hx _ =>
    obtain ⟨blk, hblk, -⟩ := hb.entry
    exact hblock (by rw [hblk]; rfl) hx hnew
  | @inner g x hg hx _ ih =>
    cases hop : b₀.op? g with
    | none => exact h.unfolds.inner_subset (ih hop) hx
    | some op =>
      obtain ⟨k', hk', hx⟩ := mem_inner_iff.1 hx
      rw [h.untouched.guardedBlocks (by rw [hop]; rfl)] at hk'
      obtain ⟨-, blk, hblk, -⟩ := hb.guards hop (guardedBlocks_eq hop ▸ hk')
      exact hblock (by rw [hblk]; rfl) hx hnew

namespace Write

variable {must : Prop} {cx : Context} {q : Write} {b b' s₀ : Body} {x y z d : OpId} {e : Element} {k : BlockId}
  {ys zs : List (OpId × Access)} {as as₀ : List Access} {R R' : OpId → Nat} {c A B P D N : List OpId} {m : List Element}
  {S : ValueId → Prop} {u v w r index : ValueId} {i n R₀ : Nat} {g : Ground} {p : OpId × Access} {t : LowerState}

/-! ## What guarded writes stand for -/

/-- The write to one element stands for what lies behind this element. -/
theorem guarded_roles (hg : b.Guarded q.strict v index q.src n i as (some (.ground g)) k N) (hs : s₀.Since S N b)
    (h₀ : s₀.Coherent) (hS : ∀ v, S v → v.index < s₀.values.size) (hway : b.Way q.root zs v)
    (hzs : zs.map Prod.snd = e.path.map .fixed) (hn : b.Nested q.block e.choices k)
    (has : q.accesses = as₀ ++ .computed index n :: as) (he : e ∈ expand as₀) (hi : i < n)
    (hR : must → 2 * (lengths as).length + 2 ≤ R₀) :
    ∃ cs, cs.flatten = N ∧
      StandFor (Role must q b (fun _ => R₀) true) cs ((expand as).map (e.under ⟨[⟨index, n, i⟩], [i]⟩).under) := by
  have hb := hs.grown.edited.coherent
  cases hg with
  | @mk x y w d t position cond u xs hx hposition hy hw hxs hfixed hu hd hfront hlies =>
    obtain ⟨is, zs', ys, rfl, hzs', hys⟩ := exists_fixed_prefix xs
    -- the first accessor reaches the element
    obtain ⟨is, rfl, rfl⟩ : ∃ is', is = i :: is' ∧ as = is'.map .fixed ++ ys.map Prod.snd := by
      rw [List.map_append, hzs'] at hfixed
      cases is with
      | nil =>
        cases ys with
        | nil => cases hfixed
        | cons p ys =>
          have hp := hys p rfl
          rw [(List.cons.inj hfixed).1] at hp
          cases hp
      | cons j is =>
        obtain ⟨hj, rfl⟩ := List.cons.inj hfixed
        exact ⟨is, by rw [Access.fixed.inj hj], rfl⟩
    have hone : ∀ c ∈ ([x, y, w] ++ zs'.map Prod.fst).map fun z => [z], Role must q b (fun _ => R₀) true c [] := by
      intro c hc
      obtain ⟨z, hz, rfl⟩ := List.mem_map.1 hc
      rcases List.mem_append.1 hz with hz | hz
      · simp only [List.mem_cons, List.not_mem_nil, or_false] at hz
        rcases hz with rfl | rfl | rfl
        · exact .of_makes hx rfl
        · exact .of_makes hy rfl
        · exact .of_makes hw rfl
      · obtain ⟨p, hp, rfl⟩ := List.mem_map.1 hz
        obtain ⟨u', w', hpick⟩ := hxs.exists_picks (List.mem_append_left ys hp)
        obtain ⟨j, -, hj⟩ := List.mem_map.1 (hzs' ▸ List.mem_map_of_mem hp : p.2 ∈ (i :: is).map Access.fixed)
        rw [← hj] at hpick
        have hmem : p.1 ∈ [x, y, w] ++ ((zs' ++ ys).map Prod.fst ++ [d]) := by simp [List.mem_map_of_mem hp]
        refine .of_picks hpick ?_ fun hm => Nat.le_trans (by omega) (hR hm)
        rintro rfl
        exact hs.not_reads_self h₀ hS hmem (hpick.origin? hb) hpick.reads
    have hrole : Role must q b (fun _ => R₀) true (ys.map Prod.fst ++ [d])
        ((expand (ys.map Prod.snd)).map ((e.under ⟨[⟨index, n, i⟩], [i]⟩).under ⟨[], is⟩).under) := by
      have has' : q.accesses = (as₀ ++ .computed index n :: is.map .fixed) ++ ys.map Prod.snd := by rw [has]; simp
      refine .write ⟨⟨t, hlies d (by simp), ?_⟩, zs ++ zs', u, g, ?_, ?_, hu, hd⟩ hys has' ?_ (.inl ⟨rfl, ?_⟩) (fun hm => ?_) nofun
      · have hlt := lt_selectWidth hi
        simpa [Element.under] using hn.guard (c := ⟨index, n, i⟩) hw (hfront w (by simp)) hy hx hposition hlt
      · rw [List.map_append, hzs, hzs']
        simp [Element.under]
      · rw [List.append_assoc]
        exact hway.append hxs
      · rw [expand_append, expand_cons_computed, expand_fixed, List.mem_flatMap]
        refine ⟨e, he, ?_⟩
        simp only [List.map_flatMap, List.mem_flatMap, List.mem_range]
        exact ⟨i, hi, by simp [Element.under]⟩
      · intro l r z op v' z' hl hop hv hz'
        obtain ⟨j, hj⟩ := List.mem_iff_getElem?.1 hv
        refine hs.later h₀ hS (l := [x, y, w] ++ zs'.map Prod.fst ++ l) (r := r) ?_ (hb.result hop hj) hz'
        simp [hl]
      · rw [← lengths_fixed_append is]
        exact hR hm
    refine ⟨([x, y, w] ++ zs'.map Prod.fst).map (fun z => [z]) ++ [ys.map Prod.fst ++ [d]], ?_, ?_⟩
    · rw [List.flatten_append, ← List.flatMap_def, List.flatMap_singleton', List.flatten_singleton]
      simp
    · rw [expand_fixed_append, List.map_map, ← Element.under_comp]
      exact (StandFor.none hone).append (.single hrole)

/-- In front of `x`, the operations `N` were made since `b₀`, which stand for the elements `m`. -/
structure Written (must : Prop) (q : Write) (S : ValueId → Prop) (b₀ : Body) (x : OpId) (k : BlockId) (A B : List OpId)
    (R₀ : Nat) (m : List Element) (N : List OpId) (s : Builder) : Prop where
  prefixed : b₀.Prefixed x k A B N s
  since : b₀.Since S N s.body
  roles : ∃ cs, cs.flatten = N ∧ StandFor (Role must q s.body (fun _ => R₀) true) cs m
  inner : ∀ {y z}, y ∈ N → z ∈ s.body.inner y → z ∈ N ∧ s.body.guardedBlocks z = []

namespace Written

theorem start (hb : t.builder.body.Coherent) (hs : t.builder.body.slotsOf k = A ++ x :: B)
    (hp : t.builder.point = ⟨k, A.length⟩) : Written must q S t.builder.body x k A B R₀ [] [] t.builder where
  prefixed := .start hb hs hp
  since := .start hb
  roles := ⟨[], rfl, .nil⟩
  inner := nofun

/-- One more element is written to. -/
theorem guarded {m' N' : List _} {s s' : Builder} (h : Written must q S b x k A B R₀ m N s) (hb : b.Coherent)
    (hS : ∀ v, S v → v.index < b.values.size) (hpre : b.Prefixed x k A B (N ++ N') s') (hs : s.body.Since S N' s'.body)
    (hg : s'.body.Guarded q.strict v index q.src n i as (some (.ground g)) k N')
    (hm : ∃ cs, cs.flatten = N' ∧ StandFor (Role must q s'.body (fun _ => R₀) true) cs m') :
    Written must q S b x k A B R₀ (m ++ m') (N ++ N') s' where
  prefixed := hpre
  since := h.since.trans hs
  roles := by
    obtain ⟨cs, rfl, hcs⟩ := h.roles
    obtain ⟨cs', rfl, hcs'⟩ := hm
    refine ⟨cs ++ cs', List.flatten_append, (hcs.mono fun c hc m hrole => ?_).append hcs'⟩
    refine hrole.since h.prefixed.coherent hs (fun _ _ _ => Nat.le_refl _) fun {y op v} hy hop hv hSv => ?_
    -- nothing new is read
    obtain ⟨j, hj⟩ := List.mem_iff_getElem?.1 hv
    have := h.since.new hb (List.mem_flatten.2 ⟨c, hc, hy⟩) (h.prefixed.coherent.result hop hj)
    have := hS v hSv
    omega
  inner {y z} hy hz := by
    rcases List.mem_append.1 hy with hy | hy
    · rcases hs.inner hz with hz | hz'
      · obtain ⟨hzN, hplain⟩ := h.inner hy hz
        obtain ⟨op, hop⟩ := Option.isSome_iff_exists.1 (h.since.known z hzN)
        refine ⟨List.mem_append_left _ hzN, ?_⟩
        rw [guardedBlocks_eq (hs.op?_old hop), ← guardedBlocks_eq hop, hplain]
      · -- a guard that was there does not guard what is new
        obtain ⟨⟨H, hH⟩, -⟩ := id hpre
        have hy' := hg.mem_of_mem_inner hpre.coherent hz' hz (hH.not_guarded hpre.coherent y (List.mem_append_left _ hy))
        have := h.since.known y hy
        rw [hs.fresh y hy'] at this
        cases this
    · exact (hg.mem_inner hs hy hz).imp_left (List.mem_append_right _)

end Written

/-- The write is made once for each element. -/
theorem writes_runs (hb : t.builder.body.Coherent) (hs : t.builder.body.slotsOf k = A ++ x :: B)
    (hp : t.builder.point = ⟨k, A.length⟩) (hv : t.builder.body.Way q.root zs v)
    (hzs : zs.map Prod.snd = e.path.map .fixed) (hn : t.builder.body.Nested q.block e.choices k)
    (hpick : t.builder.body.Picks d v (.computed index n) u) (hys : t.builder.body.Way u ys w)
    (hw : t.builder.body.ty? w = some (.ground g)) (has : q.accesses = as₀ ++ .computed index n :: ys.map Prod.snd)
    (he : e ∈ expand as₀) (hS : ∀ v, S v → (t.builder.body.value? v).isSome) (hvS : S v) (hindex : S index) (hsrc : S q.src)
    (hbeside : t.builder.body.Beside S ys) (hR : must → 2 * (lengths (ys.map Prod.snd)).length + 2 ≤ R₀) :
    Runs must ((List.range n).forM (guardedWrite q.strict v index q.src (selectWidth n) (ys.map Prod.fst).reverse)) t
      fun _ t' => ∃ N, Written must q S t.builder.body x k A B R₀
        ((expand (.computed index n :: ys.map Prod.snd)).map e.under) N t'.builder := by
  have hS' : ∀ v, S v → v.index < t.builder.body.values.size := fun v hv => isSome_value?.1 (hS v hv)
  obtain ⟨e₁, hvt, hut⟩ : ∃ e₁, t.builder.body.ty? v = some (.vector e₁ n) ∧ t.builder.body.ty? u = some e₁ := by
    cases hpick with
    | computed _ hvt _ hut => exact ⟨_, hvt, hut⟩
  have hparts : (expand (.computed index n :: ys.map Prod.snd)).map e.under = (List.range n).flatMap fun i =>
      (expand (ys.map Prod.snd)).map (e.under ⟨[⟨index, n, i⟩], [i]⟩).under := by
    rw [expand_cons_computed, List.map_flatMap]
    simp only [List.map_map, Element.under_comp]
  rw [hparts]
  refine Runs.forM (fun done (s : LowerState) => ∃ N, Written must q S t.builder.body x k A B R₀
    (done.flatMap fun i => (expand (ys.map Prod.snd)).map (e.under ⟨[⟨index, n, i⟩], [i]⟩).under) N s.builder) _
    ⟨[], .start hb hs hp⟩ ?_
  rintro done i rest st hl ⟨N, hwr⟩
  have hi : i < n := List.mem_range.1 (by rw [hl]; simp)
  have hext := hwr.since.ext
  refine (hwr.prefixed.guardedWrite_runs hext hb hvt hut hys hindex (hS _ hindex) hsrc (hS _ hsrc) hvS hbeside hi).mono ?_
  rintro - st' ⟨N', hgrew, hsince, hg⟩
  rw [hw] at hg
  have hext' := hext.trans hsince.ext
  refine ⟨N ++ N', ?_⟩
  rw [List.flatMap_append, List.flatMap_singleton]
  refine hwr.guarded hb hS' hgrew.holds hsince hg (guarded_roles hg hsince hwr.prefixed.coherent (fun v hv => ?_)
    (hv.mono hb hext') hzs (hn.mono hext') has he hi hR)
  have := hS' v hv
  have := hext.size
  omega

/-! ## What a write reads -/

/-- What a write reads, or an accessor on its way, unless a new one of these accessors made it. -/
def Source (q : Write) (b : Body) (x : OpId) (ys : List (OpId × Access)) (v : ValueId) : Prop :=
  (∃ z ∈ x :: ys.map Prod.fst, b.Reads z v) ∧ ∀ p ∈ ys, q.body.op? p.1 = none → ∀ i, b.origin? v ≠ some (.result p.1 i)

namespace Source

theorem of_known (h : q.Keeps b) (hq : q.Sound) (hz : z ∈ x :: ys.map Prod.fst) (hr : b.Reads z v)
    (hv : (q.body.value? v).isSome) : q.Source b x ys v := by
  refine ⟨⟨z, hz, hr⟩, fun p _ hp i ho => ?_⟩
  rw [h.origin hv] at ho
  obtain ⟨op, hop, -⟩ := hq.coherent.origin ho
  rw [hp] at hop
  cases hop

/-- Where the way starts from is made by none of its accessors. -/
theorem of_way (hb : b.Coherent) (hroot : b.Root q.root) (hway : b.Way q.root zs v) (hys : b.Way v ys u)
    (hz : z ∈ x :: ys.map Prod.fst) (hr : b.Reads z v) : q.Source b x ys v := by
  refine ⟨⟨z, hz, hr⟩, fun p hp _ i ho => ?_⟩
  have hnd := ((hway.append hys).leads hb).nodup hroot
  rw [List.nodup_reverse, List.map_append, List.nodup_append] at hnd
  obtain ⟨u', w', hpick⟩ := hys.exists_picks hp
  obtain ⟨op, hop, hacc, -⟩ := hpick.accessor
  rcases List.eq_nil_or_concat zs with rfl | ⟨zs', p', rfl⟩
  · obtain rfl : v = q.root := by
      generalize hl : ([] : List (OpId × Access)) = l at hway
      cases hway with
      | self => rfl
      | step => simp at hl
    rw [hroot.made ho hop] at hacc
    cases hacc
  · rw [List.concat_eq_append] at hway hnd
    obtain ⟨u', -, h'⟩ := hway.of_append
    obtain ⟨w', hpick', hself⟩ := h'.of_cons
    generalize hl : ([] : List (OpId × Access)) = l at hself
    cases hself with
    | step => simp at hl
    | self =>
      obtain ⟨he, -⟩ : p'.1 = p.1 ∧ 0 = i := by simpa using (hpick'.origin? hb).symm.trans ho
      exact hnd.2.2 p'.1 (by simp) p.1 (List.mem_map_of_mem hp) he

/-- Where positions are read, they are literals or were there. -/
theorem beside (h : q.Keeps b) (hq : q.Sound) (hys : b.Way v (p :: ys) u) (has : q.accesses = as ++ (p :: ys).map Prod.snd) :
    b.Beside (q.Source b x (p :: ys)) ys := by
  intro p' hp' op hop w hw
  have hmem := List.mem_cons_of_mem p hp'
  obtain ⟨u', w', hpick⟩ := hys.exists_picks hmem
  generalize ha : p'.2 = a at hpick
  cases hpick with
  | fixed hmk =>
    obtain ⟨op', hop', -, hops, -⟩ := hmk
    rw [Option.some.inj (hop.symm.trans hop'), hops] at hw
    cases hw
  | @literal y _ _ _ _ hmk _ hy =>
    have hr : b.Reads p'.1 y := hmk.reads.2 (by simp)
    obtain ⟨op', hop', -, hops, -⟩ := hmk
    obtain rfl : w = y := by
      rw [Option.some.inj (hop.symm.trans hop'), hops] at hw
      simpa using hw
    refine ⟨⟨p'.1, List.mem_cons_of_mem x (List.mem_map_of_mem hmem), hr⟩, fun p₁ hp₁ _ i ho => ?_⟩
    -- no accessor makes a literal
    obtain ⟨d, j, opd, ho', hopd, hk⟩ := hy
    obtain ⟨rfl, -⟩ : d = p₁.1 ∧ j = i := by simpa using ho'.symm.trans ho
    obtain ⟨u₁, w₁, hpick₁⟩ := hys.exists_picks hp₁
    obtain ⟨op₁, hop₁, hacc, -⟩ := hpick₁.accessor
    rw [Option.some.inj (hop₁.symm.trans hopd), hk] at hacc
    cases hacc
  | @computed y n' _ _ hmk =>
    have hr : b.Reads p'.1 y := hmk.reads.2 (by simp)
    obtain ⟨op', hop', -, hops, -⟩ := hmk
    obtain rfl : w = y := by
      rw [Option.some.inj (hop.symm.trans hop'), hops] at hw
      simpa using hw
    refine of_known h hq (List.mem_cons_of_mem x (List.mem_map_of_mem hmem)) hr (hq.index (n := n') ?_)
    rw [has, ← ha]
    exact List.mem_append_right _ (List.mem_map_of_mem hmem)

end Source

/-! ## One layer -/

theorem Owns.apart (h : q.Owns b x c ys) (hq : q.Sound) (hr : q.body.Region q.op b (P ++ (c ++ [x])) D) (hy : y ∈ P ++ D) :
    y ∉ x :: ys.map Prod.fst := by
  obtain ⟨-, hc, hnew⟩ := hr.apart hy
  rcases h with ⟨rfl, -⟩ | ⟨rfl, rfl, hold⟩
  · intro hmem
    exact hc (by simpa [or_comm] using hmem)
  · intro hmem
    rcases List.mem_cons.1 hmem with rfl | hmem
    · exact hc (by simp)
    · obtain ⟨p, hp, rfl⟩ := List.mem_map.1 hmem
      have hsome := hq.known (hold hp)
      rcases hnew with hnew | hnew
      · exact hc (by simp [hnew])
      · rw [hnew] at hsome
        cases hsome

/-- The write and its own accessors still read what these make, and nothing else does. -/
theorem Private.since {op : Operation} {l : List OpId} {o : OpId} {rest : List OpId} (h : Private b (ys.map Prod.fst ++ [x]))
    (hb : b.Coherent) (hs : b.Since (q.Source b x ys) N b') (hl : ys.map Prod.fst = l ++ o :: rest) (hop : b.op? o = some op)
    (hv : v ∈ op.results) (ho : q.body.op? o = none) (hz : b'.Reads z v) : z ∈ rest ++ [x] := by
  obtain ⟨i, hi⟩ := List.mem_iff_getElem?.1 hv
  have horigin := hb.result hop hi
  rcases hs.adds hb hz with hz | ⟨-, hnot⟩ | hlt
  · exact h (l := l) (r := rest ++ [x]) (by rw [hl]; simp) hop hv hz
  · have hmem : o ∈ ys.map Prod.fst := by rw [hl]; simp
    obtain ⟨p, hp, rfl⟩ := List.mem_map.1 hmem
    exact absurd horigin (hnot p hp ho i)
  · have := isSome_value?.1 (isSome_of_origin? horigin)
    omega

/-- The write to a vector behind a computed access gives way to one for each element, and the accessors of it are taken
out as far as nothing else reads them. -/
theorem write_runs (hq : q.Sound) (hr : q.body.Region q.op t.builder.body (P ++ (c ++ [x])) D) (hk : q.Keeps t.builder.body)
    (hx : q.Drives t.builder.body x e (p :: ys)) (hp : p.2.isComputed = true) (has : q.accesses = as ++ (p :: ys).map Prod.snd)
    (he : e ∈ expand as) (hown : q.Owns t.builder.body x c (p :: ys))
    (hR : must → 2 * (lengths ((p :: ys).map Prod.snd)).length ≤ R₀)
    (hs : t.builder.body.slotsOf k = A ++ x :: B) (hpoint : t.builder.point = ⟨k, A.length⟩) :
    Runs must (Lower.writePath x q.strict) t fun replaced t' => replaced = true ∧ ∃ N s zs,
      Written must q (q.Source t.builder.body x (p :: ys)) t.builder.body x k A B R₀
        ((expand ((p :: ys).map Prod.snd)).map e.under) N s ∧ q.Clears s.body zs t'.builder.body ∧ t'.builder.point = s.point ∧
      zs ⊆ x :: (p :: ys).map Prod.fst ∧ ∀ z ∈ c, ∃ op, t'.builder.body.op? z = some op ∧ op.erased = true := by
  have hb := hr.coherent
  have hroot := hk.root hq hr.edited
  obtain ⟨⟨k', hlies, hn⟩, zs, u, g, hzs, hway, hu, hmk⟩ := hx
  obtain ⟨a, ac⟩ := p
  cases ac with
  | fixed => cases hp
  | computed index n =>
  obtain ⟨op, hop, -, hops, hres, -⟩ := id hmk
  obtain rfl : k' = k := by
    obtain ⟨op', hop', hblock⟩ := hb.op?_of_mem_slotsOf (o := x) (k := k) (by simp [hs])
    rw [Lies, hop', Option.map_some, Option.some.injEq] at hlies
    exact hlies.symm.trans hblock
  obtain ⟨v, hv, hys⟩ := hway.of_append
  obtain ⟨u₁, hpick, hrest⟩ := hys.of_cons
  obtain ⟨opa, hopa, hacc, hopv, -⟩ := hpick.accessor
  obtain ⟨e₁, hvt, hindex⟩ : ∃ e₁, t.builder.body.ty? v = some (.vector e₁ n) ∧ opa.operands[1]? = some index := by
    cases hpick with
    | computed hmk hvt =>
      obtain ⟨op', hop', -, hops, -⟩ := hmk
      exact ⟨_, hvt, by rw [Option.some.inj (hopa.symm.trans hop'), hops]; rfl⟩
  have hS : ∀ w, q.Source t.builder.body x ((a, .computed index n) :: ys) w → (t.builder.body.value? w).isSome := by
    rintro w ⟨⟨z, -, hz⟩, -⟩
    exact isSome_value?.2 (hb.lt_of_reads hz)
  have hmem : a ∈ x :: ((a, Access.computed index n) :: ys).map Prod.fst := by simp
  unfold Lower.writePath
  refine Runs.bind_body (P := ((ys.map Prod.fst).reverse ++ [a] = ·)) (.of_eq_ok (hway.writePath_eq hb hroot hop
    (by rw [hops]; rfl) hzs rfl) rfl) ?_
  rintro _ rfl
  rw [List.getLast?_concat]
  dsimp only
  refine Body.bind_operand hopa hopv (Body.bind_operand hopa hindex (Body.bind_operand hop (v := q.src) (by rw [hops]; rfl) ?_))
  refine Runs.bind_body (P := fun en => en = (e₁, n)) ((vectorOf_ends fun _ => ⟨e₁, n, hvt⟩).mono fun en hen => ?_) ?_
  · rw [hvt] at hen
    obtain ⟨h₁, h₂⟩ : e₁ = en.1 ∧ n = en.2 := by simpa using hen
    rw [h₁, h₂]
  rintro _ rfl
  dsimp only
  rw [List.dropLast_concat]
  have hlen : must → 2 * (lengths (ys.map Prod.snd)).length + 2 ≤ R₀ := fun hm => by
    simpa [lengths, Nat.mul_add] using hR hm
  refine Runs.bind (writes_runs hb hs hpoint hv hzs hn hpick hrest hu has he hS (.of_way hb hroot hv hys hmem hpick.reads)
    (.of_known hk hq hmem (hpick.index rfl) (hq.index (n := n) (by rw [has]; simp)))
    (.of_known hk hq List.mem_cons_self (hmk.reads.2 (by simp)) hq.src) (.beside hk hq hys has) hlen) ?_
  rintro - t₁ ⟨N, hwr⟩
  have hb₁ := hwr.prefixed.coherent
  have hop₁ := hwr.since.op?_old hop
  have hkind : op.kind = .connect q.strict := by
    obtain ⟨op', hop', hbare, -⟩ := hmk
    rw [Option.some.inj (hop.symm.trans hop')]
    exact (OpKind.eq_of_bare_eq hbare.symm rfl).symm
  refine Runs.bind_change (dropOperands_ends fun _ => by rw [hop₁]; rfl) fun b₂ hdrop => ?_
  -- nothing reads a connection
  have hclears : q.Clears t₁.builder.body [x] b₂ := by
    refine .single hdrop rfl ?_ (fun op' hop' => .inr ⟨q.strict, ?_⟩) ((hr.new x (by simp)).imp_right .inl)
    · rintro ⟨op', v, z, hop', hv, -⟩
      rw [Option.some.inj (hop'.symm.trans hop₁), hres] at hv
      cases hv
    · rw [Option.some.inj (hop'.symm.trans hop₁), hkind]
  have hpath : ∀ z ∈ (ys.map Prod.fst).reverse ++ [a], (∃ op, t.builder.body.op? z = some op ∧ op.kind.isAccessor = true) ∧
      (q.body.op? z = none ∨ z ∈ q.way.map Prod.fst) := fun z hz => by
    have hz : z ∈ ((a, Access.computed index n) :: ys).map Prod.fst := by simpa [or_comm] using hz
    obtain ⟨p, hp, rfl⟩ := List.mem_map.1 hz
    obtain ⟨u', w', hpick'⟩ := hys.exists_picks hp
    obtain ⟨op', hop', hacc', -⟩ := hpick'.accessor
    refine ⟨⟨op', hop', hacc'⟩, ?_⟩
    rcases hown with ⟨rfl, -⟩ | ⟨-, -, hold⟩
    · refine .inl (hq.op?_eq_none hr ?_ hop' (by cases hk : op'.kind <;> simp_all [OpKind.isAccessor, OpKind.isConnect]))
      simp only [List.mem_append]
      exact .inl (.inr (.inl hz))
    · exact .inr (List.mem_map_of_mem (hold hp))
  refine Runs.bind_change (hclears.eraseUnread_ends hb₁ fun z hz =>
    (hpath z hz).imp_left (.imp fun _ hop' => hop'.imp_left hwr.since.op?_old)) ?_
  rintro b₃ ⟨hout, es, rest, hes, hclears', herased, hread⟩
  refine .pure ⟨rfl, N, t₁.builder, [x] ++ es, hwr, hclears', rfl, List.cons_subset_cons x fun z hz => ?_, fun z hz => ?_⟩
  · have : z ∈ (ys.map Prod.fst).reverse ++ [a] := hes ▸ List.mem_append_left rest hz
    simpa [or_comm] using this
  rcases hown with ⟨rfl, hpriv⟩ | ⟨-, rfl, -⟩
  · -- the write's own accessors are read by nothing else
    obtain rfl : rest = [] := by
      cases rest with
      | nil => rfl
      | cons o rest =>
        obtain ⟨op', w, z', hop', hw, hz'⟩ := hread o rfl
        obtain ⟨⟨op₀, hop₀, hacc₀⟩, -⟩ := hpath o (by rw [hes]; simp)
        obtain ⟨op₁, hop₁', -, hres₁, -⟩ := hclears'.outlives.op?_some (hwr.since.op?_old hop₀)
        rw [Option.some.inj (hop'.symm.trans hop₁'), hres₁] at hw
        obtain ⟨hnot, hz'⟩ := hclears'.reads_iff.1 hz'
        have hl : ((a, Access.computed index n) :: ys).map Prod.fst = rest.reverse ++ o :: es.reverse := by
          have := congrArg List.reverse hes
          simpa using this
        have hnew : q.body.op? o = none := hq.op?_eq_none hr
          (by rw [hl]; simp) hop₀ (by cases hk : op₀.kind <;> simp_all [OpKind.isAccessor, OpKind.isConnect])
        have := hpriv.since hb hwr.since hl hop₀ hw hnew hz'
        simp only [List.mem_append, List.mem_reverse, List.mem_singleton] at this hnot
        tauto
    refine herased z ?_
    rw [List.append_nil] at hes
    rw [← hes]
    simpa [or_comm] using hz
  · cases hz

/-- The writes to the elements take the place of the write. -/
theorem Expanding.write_layer {cs : List (List OpId)} {m₁ m₂ : List Element} (hq : q.Sound)
    (hr : q.body.Region q.op t.builder.body (cs.flatten ++ (c ++ [x])) D)
    (h : Expanding must q t.builder.body R (cs.flatten ++ c ++ [x]) D)
    (hm : expand q.accesses = m₁ ++ (expand ((p :: ys).map Prod.snd)).map e.under ++ m₂)
    (h₁ : StandFor (Role must q t.builder.body R true) cs m₁)
    (h₂ : StandFor (Role must q t.builder.body R false) (D.map fun x => [x]) m₂)
    (hx : q.Drives t.builder.body x e (p :: ys)) (hp : p.2.isComputed = true) (has : q.accesses = as ++ (p :: ys).map Prod.snd)
    (he : e ∈ expand as) (hown : q.Owns t.builder.body x c (p :: ys))
    (hR : must → 2 * (lengths ((p :: ys).map Prod.snd)).length + 2 ≤ R x)
    (hs : t.builder.body.slotsOf k = A ++ x :: B) (hpoint : t.builder.point = ⟨k, A.length⟩) :
    Runs must (Lower.writePath x q.strict) t fun replaced t' =>
      replaced = true ∧ Layer must (Expanding must q) t.builder.body R x k A B (cs.flatten ++ c) D t' := by
  have hb := hr.coherent
  have hpos : must → 4 ≤ R x := fun hm => by
    have := hR hm
    obtain ⟨a, ac⟩ := p
    cases ac with
    | fixed => cases hp
    | computed => simp [lengths] at this; omega
  have hR₂ : must → 2 * (lengths ((p :: ys).map Prod.snd)).length ≤ R x - 2 := fun hm => by
    have := hR hm
    omega
  refine (write_runs hq hr h.toKeeps hx hp has he hown hR₂ hs hpoint).mono ?_
  rintro _ t' ⟨rfl, N, s, zs, hwr, hclears, hpoint', hzs, herased⟩
  have hsb := hwr.prefixed.coherent
  obtain ⟨op, hop, hkind, -⟩ := hx.makes
  have hop' := hwr.since.op?_old hop
  obtain ⟨op₁, hop₁, hkind₁, -⟩ := hclears.outlives.op?_some hop'
  let R' : OpId → Nat := fun y => if (t.builder.body.op? y).isSome then R y else
    if s.body.guardedBlocks y = [] then R x - 2 else R x - 1
  have hold : ∀ {y}, (t.builder.body.op? y).isSome → R' y = R y := fun hy => if_pos hy
  have hnew : ∀ {y}, y ∈ N → R' y = if s.body.guardedBlocks y = [] then R x - 2 else R x - 1 := fun hy => by
    simp only [R', hwr.since.fresh _ hy, Option.isSome_none, Bool.false_eq_true, if_false]
  refine ⟨rfl, N, R', ?_, fun y hy => hold hy, fun hmust => ⟨fun y hy => ?_, ?_⟩, fun b' he' => ?_⟩
  · have := hclears.prefixed (p := s.point) hwr.prefixed
    rwa [← hpoint'] at this
  · have := hpos hmust
    rw [hnew hy]
    split <;> omega
  · rintro ⟨op₂, v, z, hop₂, hv, -⟩
    obtain ⟨-, -, -, -, -, -, op₃, hop₃, -, -, hres, -⟩ := hx.way
    obtain ⟨op₄, hop₄, -, hres₄, -⟩ := hclears.outlives.op?_some (hwr.since.op?_old hop₃)
    rw [Option.some.inj (hop₂.symm.trans hop₄), hres₄, hres] at hv
    cases hv
  have hclears' : q.Clears s.body (zs ++ [x]) b' := by
    refine hclears.drop he'.dropped rfl he'.unread (fun op₂ hop₂ => .inr ⟨q.strict, ?_⟩) ((hr.new x (by simp)).imp_right .inl)
    rw [Option.some.inj (hop₂.symm.trans hop₁), hkind₁, hkind]
  have hzs' : ∀ z ∈ zs ++ [x], z ∈ x :: (p :: ys).map Prod.fst := fun z hz => by
    rcases List.mem_append.1 hz with hz | hz
    · exact hzs hz
    · rw [List.mem_singleton.1 hz]
      exact List.mem_cons_self
  -- what the other operations stand for, and the new ones
  have hrole : ∀ {c' m pending}, (∀ y ∈ c', y ∈ cs.flatten ++ D) → Role must q t.builder.body R pending c' m →
      Role must q b' R' pending c' m := fun {c' m pending} hc' hrole => by
    have hapart := fun y hy => hown.apart hq hr (hc' y hy)
    refine hclears'.role (hrole.since hb hwr.since (fun _ y hy => ?_) ?_) fun z hz hzc => hapart z hzc (hzs' z hz)
    · exact Nat.le_of_eq (hold (hr.apart (hc' y hy)).1).symm
    · rintro y op v - - - ⟨⟨z, hz, hread⟩, -⟩
      exact ⟨z, fun hzc => hapart z hzc hz, hread⟩
  have hnewRole : ∀ {c' m}, (∀ y ∈ c', y ∈ N) → Role must q s.body (fun _ => R x - 2) true c' m →
      Role must q b' R' true c' m := fun {c' m} hc' hrole => by
    refine hclears'.role (hrole.since hsb (.start hsb : s.body.Since (fun _ => False) [] s.body) (fun hm y hy => ?_) nofun)
      fun z hz hzc => ?_
    · rw [hnew (hc' y hy)]
      split <;> omega
    · have := hx.known (hzs' z hz)
      rw [hwr.since.fresh z (hc' z hzc)] at this
      cases this
  have hidle : ∀ {y op pending}, t'.builder.body.op? y = some op → op.erased = true ∨ y = x →
      Role must q b' R' pending [y] [] := fun {y op pending} hy hmark => by
    have hy' := he'.op? y
    rw [hy, Option.map_some] at hy'
    split at hy'
    next => exact .idle hy' (.inl rfl)
    next hne => exact .idle hy' (.inl (hmark.resolve_right hne))
  refine ⟨hclears'.keeps (h.since hb hwr.since ?_), fun hmust {y z} hy hz => ?_, ?_⟩
  · rintro v ⟨⟨z, -, hz⟩, -⟩
    exact ⟨z, hz⟩
  · have := hpos hmust
    rw [hclears'.outlives.inner] at hz
    rcases List.mem_append.1 hy with hy | hy
    · have hsome := hr.tidy.known y (by rw [← List.append_assoc]; simp only [List.mem_append] at hy ⊢; tauto)
      have hlt := fun {z} => h.nested hmust (x := y) (y := z) (List.mem_append_left _ hy)
      rw [hold hsome]
      rcases hwr.prefixed.mem_inner hs hsome hz with hz | ⟨hz, hxy⟩
      · obtain ⟨-, opz, -, hopz, -⟩ := hb.op?_of_mem_inner hz
        rw [hold (by rw [hopz]; rfl)]
        exact hlt hz
      · have := hlt hxy
        rw [hnew hz]
        split <;> omega
    · obtain ⟨hzN, hplain⟩ := hwr.inner hy hz
      have hguard : s.body.guardedBlocks y ≠ [] := fun hnil => by
        rw [inner_eq_guardedBlocks, hnil] at hz
        cases hz
      rw [hnew hy, hnew hzN, if_pos hplain, if_neg hguard]
      omega
  · obtain ⟨cs', rfl, hcs'⟩ := hwr.roles
    refine ⟨cs ++ (c.map fun y => [y]) ++ cs', m₁ ++ [] ++ (expand ((p :: ys).map Prod.snd)).map e.under, m₂, by simpa using hm,
      ?_, ((h₁.mono fun c' hcs m hm => ?_).append (.none fun c' hc' => ?_)).append (hcs'.mono fun c' hcs m hm => ?_),
      .skip (hidle hop₁ (.inr rfl)) (h₂.mono fun c' hcD m hm => ?_)⟩
    · rw [List.flatten_append, List.flatten_append, ← List.flatMap_def, List.flatMap_singleton']
    · exact hrole (fun y hy => List.mem_append_left _ (List.mem_flatten.2 ⟨c', hcs, hy⟩)) hm
    · obtain ⟨y, hy, rfl⟩ := List.mem_map.1 hc'
      obtain ⟨op₂, hop₂, hmark⟩ := herased y hy
      exact hidle hop₂ (.inl hmark)
    · exact hnewRole (fun y hy => List.mem_flatten.2 ⟨c', hcs, hy⟩) hm
    · refine hrole (fun y hy => ?_) hm
      obtain ⟨z, hz, rfl⟩ := List.mem_map.1 hcD
      rw [List.mem_singleton.1 hy]
      exact List.mem_append_right _ hz

/-- A connection is expanded, or leads to one element. -/
theorem Expanding.connect_layer {op : Operation} (hq : q.Sound) (hr : q.body.Region q.op t.builder.body (P ++ [x]) D)
    (h : Expanding must q t.builder.body R (P ++ [x]) D) (hop : t.builder.body.op? x = some op)
    (hk : op.kind = .connect q.strict) (he : op.erased = false) (hs : t.builder.body.slotsOf k = A ++ x :: B)
    (hp : t.builder.point = ⟨k, A.length⟩) :
    Runs must (Lower.connect x q.strict) t fun replaced t' =>
      if replaced then Layer must (Expanding must q) t.builder.body R x k A B P D t'
      else t'.builder.body = t.builder.body ∧ Expanding must q t.builder.body R P (x :: D) := by
  obtain ⟨cs, c, m₁, m, m₂, hm, rfl, h₁, hc, h₂⟩ := h.last
  obtain ⟨e, ys, as, hx, hhead, has, he', hown, hR, rfl, -⟩ := hc.exists_drives hop (by rw [hk]; rfl) he
  unfold Lower.connect
  cases ys with
  | cons p ys =>
    refine (write_layer hq (by simpa using hr) h hm h₁ h₂ hx (hhead p rfl) has he' hown hR hs hp).bind ?_
    rintro _ t' ⟨rfl, hlayer⟩
    exact .pure hlayer
  | nil =>
    obtain ⟨zs, u, g, hzs, hway, hu, hmk⟩ := hx.way
    obtain ⟨op', hop', -, hops, -⟩ := id hmk
    obtain rfl := Option.some.inj (hop.symm.trans hop')
    rw [List.append_nil] at hway
    unfold Lower.writePath
    rw [bind_assoc]
    refine Runs.bind_body (P := ([] = ·)) (.of_eq_ok (hway.writePath_fixed hr.coherent (h.root hq hr.edited) hop
      (by rw [hops]; rfl) hzs) rfl) ?_
    rintro _ rfl
    rw [List.getLast?_nil, pure_bind, if_neg Bool.false_ne_true]
    refine Body.bind_operand hop (v := u) (by rw [hops]; rfl) ?_
    refine Body.bind_operand hop (v := q.src) (by rw [hops]; rfl) ?_
    refine Body.bind_typeOf hu ?_
    obtain rfl : c = [] := by
      rcases hown with ⟨hc, -⟩ | ⟨-, hc, -⟩
      · exact hc
      · exact hc
    exact Runs.pure (a := false) ⟨rfl, h.settle hm h₁ h₂ (.write (c := []) hx hhead has he' hown hR fun _ => rfl)⟩

/-- What the operations stand for is kept in each layer. -/
theorem Expanding.step_runs {op : Operation} (hq : q.Sound) (hr : q.body.Region q.op t.builder.body (P ++ [x]) D)
    (h : Expanding must q t.builder.body R (P ++ [x]) D) (hop : t.builder.body.op? x = some op) (he : op.erased = false)
    (hblocks : op.kind.blocks = []) (hs : t.builder.body.slotsOf k = A ++ x :: B) (hp : t.builder.point = ⟨k, A.length⟩) :
    Runs must (Lower.step cx x op.kind) t fun replaced t' =>
      if replaced then Layer must (Expanding must q) t.builder.body R x k A B P D t'
      else t'.builder.body = t.builder.body ∧ Expanding must q t.builder.body R P (x :: D) := by
  obtain ⟨cs, c, m₁, m, m₂, hm, rfl, h₁, hc, h₂⟩ := h.last
  generalize hl : c ++ [x] = l at hc
  cases hc with
  | @write x' e ys as c' hx =>
    obtain ⟨-, hxx⟩ := List.append_inj' hl rfl
    obtain rfl := (List.cons.inj hxx).1
    obtain ⟨op', hop', hk, -⟩ := hx.makes
    rw [← Option.some.inj (hop.symm.trans hop')] at hk
    rw [hk]
    exact h.connect_layer hq hr hop hk he hs hp
  | @literal x' u w i op' hx hop' hk hself hR =>
    obtain ⟨-, rfl⟩ := concat_eq_singleton hl
    rw [← Option.some.inj (hop.symm.trans hop')] at hk
    rw [hk]
    refine (h.literal_layer hq hr hx hop hk hself hR hs hp).mono ?_
    rintro _ t' ⟨rfl, hlayer⟩
    exact hlayer
  | @idle x' op' hop' hk =>
    obtain ⟨-, rfl⟩ := concat_eq_singleton hl
    obtain rfl := Option.some.inj (hop.symm.trans hop')
    have hidle := hk.resolve_left (by simp [he])
    obtain rfl : c = [] := (concat_eq_singleton hl).1
    have hsettled := h.settle hm h₁ h₂ (.idle hop hk)
    cases hkind : op.kind <;> rw [hkind] at hidle hblocks <;> first
      | exact absurd hidle Bool.false_ne_true
      | exact absurd hblocks (List.cons_ne_nil _ _)
      | exact Runs.pure (a := false) ⟨rfl, hsettled⟩

theorem Expanding.kept (hq : q.Sound) : KeptByLayers must cx q.body q.op (Expanding must q) where
  nested hm {_ _ _ _ _ _} h hx hx' := h.nested hm hx hx'
  settle _ h hop hpass := by
    obtain ⟨cs, c, m₁, m, m₂, hm, rfl, h₁, hc, h₂⟩ := h.last
    obtain ⟨rfl, hx⟩ := hc.passed hop hpass
    exact h.settle hm h₁ h₂ hx
  step hr h hop he hblocks hs hp := h.step_runs hq hr hop he hblocks hs hp

/-- At first the connection stands for all elements. -/
theorem Expanding.start (hq : q.Sound) (hR : must → 2 * (lengths q.accesses).length + 2 ≤ R q.op) :
    Expanding must q q.body R [q.op] [] := by
  obtain ⟨is, zs, ys, hway, hzs, hys⟩ := exists_fixed_prefix q.way
  have has : q.accesses = is.map .fixed ++ ys.map Prod.snd := by rw [accesses, hway, List.map_append, hzs]
  obtain ⟨u, g, hu, hg, hmk⟩ := hq.way
  have hlen : lengths q.accesses = lengths (ys.map Prod.snd) := by rw [has, lengths_fixed_append]
  obtain ⟨op, hop, hbare, -⟩ := id hmk
  refine ⟨.start, fun _ {x y} hx hy => ?_, [[q.op]], expand q.accesses, [], (List.append_nil _).symm, rfl, .single ?_, .nil⟩
  · rw [List.mem_singleton.1 hx, inner_eq_nil hop (OpKind.blocks_eq_of_bare_eq hbare)] at hy
    cases hy
  · rw [has, expand_fixed_append]
    refine .write (x := q.op) (c := []) ⟨⟨q.block, hq.lies, .self⟩, zs, u, g, hzs, hway ▸ hu, hg, hmk⟩ hys has ?_
      (.inr ⟨rfl, rfl, hway ▸ List.subset_append_right zs ys⟩) (fun hm => hlen ▸ hR hm) nofun
    rw [expand_fixed]
    exact List.mem_singleton_self _

/-! ## Connections to the end -/

/-- What a connection behind computed accesses gave way to: in front of it stands `C`, which unfolds to the operations `N`,
and among these one connection for each tuple of positions. -/
structure Expanded (q : Write) (A B C N : List OpId) (b : Body) : Prop where
  slots : b.slotsOf q.block = A ++ C ++ q.op :: B
  unfolds : Unfolds b (C ++ [q.op]) N
  writes : List.Forall₂ (fun x is => q.Drives b x (choose q.accesses is) []) (N.filter b.connects) (tuples (lengths q.accesses))
  order : (tuples (lengths q.accesses)).Pairwise (List.Lex (· < ·))
  count : (N.filter b.connects).length = (lengths q.accesses).prod
  empty : 0 ∈ lengths q.accesses → N.filter b.connects = []
  new : ∀ {x}, x ∈ N → x = q.op ∨ q.body.op? x = none
  all : ∀ {x}, b.Walked x → q.body.op? x = none → x ∈ N
  others : ∀ {x op}, x ≠ q.op → x ∉ q.way.map Prod.fst → q.body.op? x = some op → b.op? x = some op
  blocks : ∀ {k blk}, k ≠ q.block → q.body.block? k = some blk → b.block? k = some blk
  shared : ∀ {z v xs}, z ≠ q.op → z ∉ q.way.map Prod.fst → q.body.Reads z v → q.body.Way q.root xs v →
    b.Reads z v ∧ b.Way q.root xs v

/-- Once nothing is pending, each connection stands for one element. -/
theorem Role.connects {x : OpId} (h : Role must q b R false [x] m) :
    (b.connects x = true ∧ ∃ e, m = [e] ∧ q.Drives b x e []) ∨ (b.connects x = false ∧ m = []) := by
  generalize hl : [x] = l at h
  cases h with
  | @write x' e ys as c hx hhead has he hown hR hdone =>
    obtain ⟨-, rfl⟩ := concat_eq_singleton hl.symm
    obtain rfl := hdone rfl
    obtain ⟨op, hop, hk, he⟩ := hx.makes
    exact .inl ⟨by simp [Body.connects, hop, he, hk, OpKind.isConnect], e, by simp [expand], hx⟩
  | literal _ _ _ _ _ hdone => cases hdone
  | @idle x' op hop hk =>
    obtain rfl := (List.cons.inj hl).1
    refine .inr ⟨?_, rfl⟩
    simp only [Body.connects, hop, Option.any_some]
    rcases hk with hk | hk
    · simp [hk]
    · cases hkind : op.kind <;> simp_all [OpKind.isConnect, OpKind.isIdle]

/-- Once nothing is pending, there is one connection for each tuple of positions. -/
theorem Expanding.writes (h : Expanding must q b R [] N) :
    List.Forall₂ (fun x is => q.Drives b x (choose q.accesses is) []) (N.filter b.connects) (tuples (lengths q.accesses)) := by
  obtain ⟨cs, m₁, m₂, hm, hcs, h₁, h₂⟩ := h.bears
  obtain rfl : cs = [] := by
    cases cs with
    | nil => rfl
    | cons c cs =>
      obtain ⟨m, hc⟩ := h₁.exists_of_mem List.mem_cons_self
      obtain ⟨c', x, rfl⟩ := hc.exists_last
      simp at hcs
  rw [h₁.of_nil, List.nil_append, expand_eq] at hm
  obtain ⟨ms, h₂, rfl⟩ := h₂
  have hall : StandFor (fun x m => Role must q b R false [x] m) N ((tuples (lengths q.accesses)).map (choose q.accesses)) :=
    ⟨ms, List.forall₂_map_left_iff.1 h₂, hm.symm⟩
  have hwrites : List.Forall₂ (fun x e => q.Drives b x e []) (N.filter b.connects) _ := hall.filter fun x _ m hx => hx.connects
  exact List.forall₂_map_right_iff.1 hwrites

end Write

namespace Lower

/-- A connection of ground values behind computed accesses is lowered to one connection for each tuple of positions, in
lexicographic order. Each drives the element at these positions with the same source, behind one guard for each of them. -/
theorem connect_expands (cx : Context) (fuel : Nat) {A B : List OpId} {t : LowerState} {q : Write} (hq : q.Sound)
    (hbody : q.body = t.builder.body) (hw : q.body.Walked q.op) (hs : q.body.slotsOf q.block = A ++ q.op :: B) :
    Runs (2 * (lengths q.accesses).length + 2 < fuel) (lowerOp cx fuel q.block A.length) t fun _ t' =>
      ∃ C N, q.Expanded A B C N t'.builder.body := by
  obtain ⟨u, g, hway, hg, hmk⟩ := id hq.way
  obtain ⟨op, hop, hbare, hops, hres, he⟩ := id hmk
  have hk : op.kind = .connect q.strict := (OpKind.eq_of_bare_eq hbare.symm rfl).symm
  have hplain : op.kind.blocks = [] := by rw [hk]; rfl
  have hkept : KeptByLayers (2 * (lengths q.accesses).length + 2 < fuel) cx t.builder.body q.op (Write.Expanding _ q) :=
    hbody ▸ Write.Expanding.kept hq
  have hstart : Write.Expanding (2 * (lengths q.accesses).length + 2 < fuel) q q.body
      (fun _ => 2 * (lengths q.accesses).length + 2) [q.op] [] := .start hq fun _ => Nat.le_refl _
  have hruns := Region.lowerOp_runs hkept (hbody ▸ hq.coherent) (hbody ▸ hop) hplain (hbody ▸ hw) (hbody ▸ hs) (hbody ▸ hstart) id
  rw [← hbody] at hruns
  refine hruns.mono ?_
  rintro - t' ⟨C, N, R', hC, hexp⟩
  have hcount : (N.filter t'.builder.body.connects).length = (lengths q.accesses).prod := by
    rw [hexp.writes.length_eq, length_tuples]
  have hothers : ∀ {x op}, x ≠ q.op → x ∉ q.way.map Prod.fst → q.body.op? x = some op → t'.builder.body.op? x = some op :=
    fun hne hmem hop => (hexp.old hne hop).resolve_right fun h => hmem h.1
  have hempty : 0 ∈ lengths q.accesses → N.filter t'.builder.body.connects = [] := fun h0 => by
    have hlen := hexp.writes.length_eq
    rw [tuples_eq_nil h0] at hlen
    exact List.length_eq_zero_iff.1 hlen
  refine ⟨C, N, hC.slots, hC.unfolds, hexp.writes, sorted_tuples _, hcount, hempty, fun {x} hx => hC.region.new x (by simpa using hx),
    hC.mem_of_walked hq.coherent hs (by rw [guardedBlocks_eq hop, hplain]), hothers, fun {k blk} hne hblk => ?_,
    fun {z v xs} hne hmem hr hxs => ?_⟩
  · refine hC.untouched.block? hblk (by simpa using hne) fun x hx => ?_
    rw [List.mem_singleton.1 hx, guardedBlocks_eq hop, hplain]
    exact List.not_mem_nil
  · obtain ⟨opz, hopz, hv⟩ := hr
    have hread : t'.builder.body.Reads z v := ⟨opz, hothers hne hmem hopz, hv⟩
    exact ⟨hread, hexp.way hq hC.region.edited hxs ⟨z, hread⟩⟩

end Lower

/-- A port of two elements, one for a position and one for an element. -/
def portTys : List Ty := [.vector (.uint 1) 2, .uint 1, .uint 1]

/-- The element at the position is written to. -/
def elementBody : Body where
  values := #[⟨.vector (.uint 1) 2, .argument, [⟨⟨0⟩, 0⟩]⟩, ⟨.uint 1, .argument, [⟨⟨0⟩, 1⟩]⟩, ⟨.uint 1, .argument, [⟨⟨1⟩, 1⟩]⟩,
    ⟨.uint 1, .result ⟨0⟩ 0, [⟨⟨1⟩, 0⟩]⟩]
  ops := #[⟨.subaccess, [⟨0⟩, ⟨1⟩], [⟨3⟩], Body.entry, false⟩, ⟨.connect true, [⟨3⟩, ⟨2⟩], [], Body.entry, false⟩]
  blocks := #[⟨[⟨0⟩, ⟨1⟩], none⟩]
  args := [⟨0⟩, ⟨1⟩, ⟨2⟩]

/-- This write, with the one access on the way. -/
def elementWrite : Write := ⟨elementBody, ⟨1⟩, Body.entry, true, ⟨0⟩, ⟨2⟩, [(⟨0⟩, .computed ⟨1⟩ 2)]⟩

theorem elementWrite_sound : elementWrite.Sound where
  coherent := by
    have hbuilt : Builder.Built portTys ⟨elementBody, ⟨Body.entry, 2⟩⟩ :=
      .call (.connect true ⟨3⟩ ⟨2⟩) (.call (.subaccess ⟨0⟩ ⟨1⟩) (.start ⟨Body.entry, 0⟩ rfl) rfl) rfl
    exact hbuilt.reachable.coherent
  root := ⟨rfl, nofun⟩
  lies := rfl
  way := by
    refine ⟨⟨3⟩, _, .single (.computed ⟨_, rfl, rfl, rfl, rfl, rfl⟩ rfl (.inr ?_) rfl), rfl, ⟨_, rfl, rfl, rfl, rfl, rfl⟩⟩
    rintro l ⟨d, i, op, ho, -⟩
    cases ho

theorem Lower.connect_expands_element : ∃ r,
    (lowerOp ⟨{}, []⟩ 5 Body.entry 1).run ⟨⟨elementBody, ⟨Body.entry, 2⟩⟩, ⟨"M", {}, [], {}, [], 0⟩⟩ = .ok r ∧
      ∃ C N, elementWrite.Expanded [⟨0⟩] [] C N r.2.builder.body := by
  generalize ht : (⟨⟨elementBody, _⟩, _⟩ : LowerState) = t
  have hends := Lower.connect_expands ⟨{}, []⟩ 5 (A := [⟨0⟩]) (B := []) (t := t) elementWrite_sound (ht ▸ rfl)
    (.entry (by decide) (by decide)) rfl
  exact hends.exists_ok (by decide)

end Scalarize
