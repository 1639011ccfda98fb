import Scalarize.Lower.Connect
import Scalarize.Proofs.Step.Write

/-!
# Connections

* `Lowering.accesses` : every computed access on the way to a value makes its type shallower;
* `Start.connectPart_runs` : one part of two aggregates is connected;
* `Start.connect_runs` : connections of aggregates give way to connections of their parts.
-/

namespace Scalarize

open Body Lower

/-- There are at most as many computed accesses on the way to a value as the deepest type has layers
more than its own. -/
theorem Lowering.accesses {q : Setting} {b : Body} {R : OpId → Nat} {Q Z D : List OpId}
    (h : Lowering q b R Q Z D) (hm : q.must) (hZ : ∀ x ∈ Q, x ∉ Z) {v : ValueId}
    (hv : b.MadeBy Q v) (hs : ∀ {d i op}, b.origin? v = some (.result d i) → b.op? d = some op →
      op.erased = false) :
    ∃ n t, b.ty? v = some t ∧ b.Accesses v n ∧ n + t.depth ≤ q.depth := by
  suffices hpre : ∀ Q₁ Q₂, Q = Q₁ ++ Q₂ → ∀ v, b.MadeBy Q₁ v →
      (∀ {d i op}, b.origin? v = some (.result d i) → b.op? d = some op → op.erased = false) →
      ∃ n t, b.ty? v = some t ∧ b.Accesses v n ∧ n + t.depth ≤ q.depth by
    exact hpre Q [] (List.append_nil Q).symm v hv hs
  intro Q₁
  have hplain : ∀ {v t}, b.ty? v = some t → b.Accesses v 0 →
      ∃ n t, b.ty? v = some t ∧ b.Accesses v n ∧ n + t.depth ≤ q.depth := fun {v t} ht ha =>
    ⟨0, t, ht, ha, by simpa using (h.sized hm ht).2⟩
  induction Q₁ using List.reverseRecOn with
  | nil =>
    rintro Q₂ - v (ha | ⟨d, hd, -⟩) -
    · obtain ⟨x, hx, hr⟩ := origin?_eq_some_iff.1 ha
      exact hplain (ty?_eq_some_iff.2 ⟨x, hx, rfl⟩) (.argument ha)
    · cases hd
  | append_singleton Q₁ x ih =>
    rintro Q₂ hQ v hv hs
    have hQ' : Q = Q₁ ++ ([x] ++ Q₂) := by rw [hQ, List.append_assoc]
    rcases hv with ha | ⟨d, hd, i, hr⟩
    · exact ih _ hQ' v (.inl ha) hs
    rcases List.mem_append.1 hd with hd | hd
    · exact ih _ hQ' v (.inr ⟨d, hd, i, hr⟩) hs
    obtain rfl := List.mem_singleton.1 hd
    obtain ⟨op, hop, hres⟩ := h.coherent.origin hr
    have he := hs hr hop
    have hmem : d ∈ Q := by
      rw [hQ]
      simp
    obtain ⟨ins, outs, hins, houts, hsh⟩ := h.typed (hZ d hmem) hop he
    obtain ⟨t, -, ht⟩ := houts.getElem? hres
    -- what an accessor reads is reached in the same way
    have hread : ∀ u ∈ op.operands, ∃ n t, b.ty? u = some t ∧ b.Accesses u n ∧
        n + t.depth ≤ q.depth := fun u hu =>
      ih _ hQ' u (h.closed (q.ordered_of_must hm) hQ' hop hu) fun {d i opd} hd hopd =>
        h.not_read_of_erased ⟨op, hop, hu⟩ hd hopd
    cases hacc : op.kind.isAccessor with
    | false => exact hplain ht (.result hr hop hacc)
    | true =>
      obtain ⟨u, hu⟩ := exists_input_of_isAccessor hacc hins hsh
      obtain ⟨n, tu, htu, hn, hle⟩ := hread u (List.mem_of_getElem? hu)
      obtain ⟨t', c, hreach⟩ := exists_reached h.coherent hr hop hacc hu hins houts (hsh.mono False.elim)
      cases hreach with
      | fixed hk hops hu' hv' hr' =>
        rw [htu] at hu'
        obtain rfl := Option.some.inj hu'
        have := Ty.depth_lt_of_child? hr'.1
        exact ⟨n, c, hv', .fixed hr hop hk hops hn, by omega⟩
      | computed hk hops hu' hy hv' =>
        rw [htu] at hu'
        obtain rfl := Option.some.inj hu'
        have : (Ty.vector c ‹Nat›).depth = c.depth + 1 := rfl
        exact ⟨n + 1, c, hv', .computed hr hop hk hops hn, by omega⟩

namespace Start

variable {q : Setting} {b₀ : Body} {R₀ : OpId → Nat} {P D N : List OpId} {o : OpId} {k : BlockId}
  {A B : List OpId} {op : Operation} {dest src : ValueId} {s : Builder}

/-- A value that may be read is reached through few computed accesses. -/
theorem accesses (h : Start q b₀ R₀ P o D k A B) (hm : q.must) {v : ValueId} {t : Ty}
    (hv : b₀.Readable q P v) (ht : b₀.ty? v = some t) : ∃ n, b₀.Accesses v n ∧ n + t.depth ≤ q.depth := by
  obtain ⟨-, hmade, hstands⟩ := hv
  have hns : ∀ {d i op}, b₀.origin? v = some (.result d i) → b₀.op? d = some op →
      op.erased = false := fun hr hop => by
    obtain ⟨op', hop', he⟩ := hstands hr
    rw [hop] at hop'
    rw [Option.some.inj hop', he]
  have hnot : ∀ x ∈ P, x ∉ [o] := fun x hx hmem => h.not_mem (List.mem_singleton.1 hmem ▸ hx)
  obtain ⟨n, t', ht', hn, hle⟩ := h.holds.begin.accesses hm hnot (hmade (q.ordered_of_must hm)) hns
  rw [ht] at ht'
  rw [Option.some.inj ht']
  exact ⟨n, hn, hle⟩

/-- One part of two aggregates is connected. -/
theorem connectPart_runs (h : Start q b₀ R₀ P o D k A B) {strict : Bool} {t : Ty} {ps : List Part}
    {p : Part} (hdest : b₀.Readable q P dest) (hsrc : b₀.Readable q P src)
    (htd : b₀.ty? dest = some t) (hts : q.must → b₀.ty? src = some t) (hps : t.PartsOf ps) (hp : p ∈ ps)
    (hrank : q.must → t.depth * (2 * q.depth + 2) + q.depth + 3 ≤ R₀ o)
    (hF : Front q b₀ R₀ P o D k A B N s) (hext : Extends b₀ s.body) :
    Runs q.must (connectPart strict dest src p) s fun _ s' =>
      ∃ N', Grew (Front q b₀ R₀ P o D k A B) N s N' s' := by
  have hc := hps.child_index hp
  have hlt := Ty.depth_lt_of_child? hc
  have hpos : q.must → 0 < R₀ o := fun hm => by
    have := hrank hm
    omega
  unfold connectPart
  refine (h.grows.part_runs hF (.inl hsrc) (.part (fun hm {_ _} hu => hF.sized hm hu) hpos src _)
    fun hm => ⟨t, p.ty, hext.ty?_some (hts hm), hc⟩).bind fun w s₁ hnew₁ => ?_
  obtain ⟨N₁, hg₁, hw, hwpart⟩ := hnew₁.partOf
  refine (h.grows.part_runs hg₁.holds (.inl hdest)
    (.part (fun hm {_ _} hu => hg₁.holds.sized hm hu) hpos dest _)
    fun hm => ⟨t, p.ty, (hext.trans hg₁.body).ty?_some htd, hc⟩).bind fun v s₂ hnew₂ => ?_
  obtain ⟨N₂, hg₂, hv, hvpart⟩ := hnew₂.partOf
  have hb₂ := h.grows.coherent hg₂.holds
  have hext₂ := (hext.trans hg₁.body).trans hg₂.body
  have hwat := (hw.mono hg₂.body fun _ => hg₂.mem).atHand (S := b₀.Readable q P) hb₂
  have hvat := hv.atHand (S := b₀.Readable q P) hb₂
  have hwpart₂ := hwpart.mono hg₂.body
  -- either part may be the one that is driven
  suffices hmake : ∀ {x y a c}, b₀.Readable q P a → (q.must → b₀.ty? a = some t) →
      s₂.body.PartOf a p.index x → s₂.body.PartOf c p.index y →
      (q.must → b₀.ty? c = some t) →
      AtHand (b₀.Readable q P) N₂ s₂.body x → AtHand (b₀.Readable q P) N₂ s₂.body y →
      Runs q.must (Build.connect strict x y) s₂ fun _ s' =>
        ∃ N', Grew (Front q b₀ R₀ P o D k A B) N s N' s' by
    split
    · exact Runs.bind (hmake hsrc hts hwpart₂ hvpart (fun _ => htd) hwat hvat) fun _ _ hq => .pure hq
    · exact Runs.bind (hmake hdest (fun _ => htd) hvpart hwpart₂ hts hvat hwat) fun _ _ hq => .pure hq
  intro x y a c ha hta hx hy htc hxat hyat
  obtain ⟨tx, htx⟩ : ∃ tx, s₂.body.ty? x = some tx := by
    obtain ⟨-, _, cx, -, -, hcx⟩ := hx
    exact ⟨cx, hcx⟩
  obtain ⟨ty, hty⟩ : ∃ ty, s₂.body.ty? y = some ty := by
    obtain ⟨-, _, cy, -, -, hcy⟩ := hy
    exact ⟨cy, hcy⟩
  refine (h.grows.connect_runs hg₂.holds hxat hyat htx hty fun hm => ?_).mono fun d s' hg₃ =>
    ⟨N₂ ++ [d], (hg₁.trans hg₂).trans hg₃⟩
  rw [hx.ty? (hext₂.ty?_some (hta hm)) hc] at htx
  rw [hy.ty? (hext₂.ty?_some (htc hm)) hc] at hty
  obtain rfl := Option.some.inj htx
  obtain rfl := Option.some.inj hty
  obtain ⟨n, hn, hle⟩ := h.accesses hm ha (hta hm)
  refine ⟨rfl, n, hx.accesses hb₂ (hn.agrees (hext₂.agrees h.holds.coherent) ha.1), ?_⟩
  have hmul : (p.ty.depth + 1) * (2 * q.depth + 2) ≤ t.depth * (2 * q.depth + 2) :=
    Nat.mul_le_mul_right _ hlt
  rw [Nat.succ_mul] at hmul
  have := hrank hm
  omega

/-- Connections through computed accesses or of aggregates give way; others stay. -/
theorem connect_runs (h : Start q b₀ R₀ P o D k A B) {y : Symbols} (htr : b₀.Tracked y)
    (hop : b₀.op? o = some op) (he : op.erased = false) {strict : Bool} (hk : op.kind = .connect strict) :
    Runs q.must (Lower.connect o strict) ⟨⟨b₀, ⟨k, A.length⟩⟩, y⟩
      (Stepped q.must (Lowering.stage q) b₀ R₀ k A o B P D) := by
  obtain ⟨ins, outs, hins, houts, hsh⟩ := h.shaped hop he
  have hready := fun hm => h.ready hm hop he houts
  rw [hk] at hsh hready
  obtain ⟨t, ts, rfl, rfl⟩ := hsh
  obtain ⟨dest, src, htd, hts, hops⟩ := hins.pair
  rw [hops] at hready
  have hres : op.results = [] := List.forall₂_nil_right_iff.1 houts
  have hdest : b₀.Readable q P dest := h.readable hop (by simp [hops])
  have hsrc : b₀.Readable q P src := h.readable hop (by simp [hops])
  have hsame : q.must → ts = t := fun hm => by
    obtain ⟨ins', hins', t', rfl, -⟩ := (hready hm).1.types
    rw [← hops] at hins'
    obtain ⟨rfl, rfl⟩ : t = t' ∧ ts = t' := by simpa using hins.unique hins'
    rfl
  unfold Lower.connect
  refine (h.writePath_runs htr hop he hk).bind fun replaced t' ht' => ?_
  cases replaced with
  | true => exact .pure ht'
  | false =>
    obtain rfl : t' = _ := ht'
    rw [if_neg (by simp)]
    refine Body.bind_operand hop (v := dest) (by rw [hops]; rfl) ?_
    refine Body.bind_operand hop (v := src) (by rw [hops]; rfl) ?_
    refine Body.bind_typeOf htd ?_
    refine Runs.bind_except (Ty.peel_ends fun hm => (h.holds.sized hm htd).1) fun r hr => ?_
    cases r with
    | none =>
      have hground : t.isGround := by simpa using hr
      refine .pure (h.kept rfl htr (fun {op'} hop' _ => ?_) fun hm {op' v tv} hop' hv htv hg => ?_)
      · rw [hop] at hop'
        obtain rfl := Option.some.inj hop'
        refine ⟨[t, ts], [], hins, houts, by rw [hk]; exact ⟨t, ts, rfl, rfl⟩, ?_⟩
        rw [hk]
        intro u hu
        obtain rfl : t = u := by simpa using hu
        exact hground
      · rw [hop] at hop'
        obtain rfl := Option.some.inj hop'
        obtain ⟨i, hi⟩ := List.mem_iff_getElem?.1 hv
        obtain ⟨u, hu, hvu⟩ := hins.getElem? hi
        rw [htv] at hvu
        obtain rfl := Option.some.inj hvu
        rw [hsame hm] at hu
        have : tv ∈ [t, t] := List.mem_of_getElem? hu
        obtain rfl : tv = t := by simpa using this
        rw [hground] at hg
        cases hg
    | some ps =>
      obtain ⟨hps, -⟩ := hr
      have hrank : q.must → t.depth * (2 * q.depth + 2) + q.depth + 3 ≤ R₀ o := fun hm => by
        obtain ⟨n, -, hle⟩ := (hready hm).2 dest t rfl htd
        omega
      refine Runs.bind (Runs.forM (fun _ t => t.symbols = y ∧
        ∃ N, Grew (Front q b₀ R₀ P o D k A B) [] ⟨b₀, ⟨k, A.length⟩⟩ N t.builder) ps
        ⟨rfl, [], .refl h.front⟩ ?_) ?_
      · rintro done p rest t' hl ⟨hy, N, hg⟩
        refine Runs.build ((h.connectPart_runs hdest hsrc htd (fun hm => by rw [hts, hsame hm]) hps
          (by rw [hl]; simp) hrank hg.holds hg.body).mono ?_)
        rintro _ s' ⟨N', hg'⟩
        exact ⟨hy, N', hg.trans hg'⟩
      rintro _ t' ⟨hy, N, hg⟩
      obtain ⟨⟨H, hH⟩, R, hR⟩ := hg.holds
      refine .pure (h.stepped hH hR ?_ (.refl _) hR.holds ?_ fun _ => ?_)
      · rw [guardedBlocks_eq hop, hk]
        rfl
      · rw [hy]
        exact htr.persists hg.body.persists
      · rintro ⟨op', v, x, hop', hv, -⟩
        obtain ⟨op₁, hop₁, -, -, hres₁, -⟩ := hg.body.op? hop
        rw [hop'] at hop₁
        rw [Option.some.inj hop₁, hres₁, hres] at hv
        cases hv

end Start

end Scalarize
