import Scalarize.Lower.Connect
import Scalarize.Proofs.Reachable
import Scalarize.Proofs.Region.Access

/-!
# Connections of aggregates

A connection of two aggregates, reached by static accessors, is lowered to one connection for each leaf. Each
operation on the way stands for some of the leaves, and all together always stand for all of them, in order.

* `Body.Joins` : the leaves for which an operation stands;
* `Body.Split` : what holds between two layers;
* `Body.connectPart_runs`, `Body.Split.step_runs` : one part, and one layer;
* `Lower.connect_leaves` : the connections that are left join the leaves, one for each and in pre-order, against the
  flow where the way to the leaf is turned round.
-/

namespace Scalarize

open Body Lower

/-- Connects two values. -/
def OpKind.isConnect : OpKind → Bool
  | connect _ => true
  | _ => false

namespace Body

variable {must : Prop} {cx : Context} {b₀ b b' : Body} {o x : OpId} {strict : Bool} {dest src u w : ValueId}
  {T c : Ty} {R R' : OpId → Nat} {k : BlockId} {A B P D N : List OpId} {ls : List Leaf} {op : Operation}
  {path : List Nat} {turned : Bool}

/-- A connection that stands. -/
def connects (b : Body) (x : OpId) : Bool := (b.op? x).any fun op => !op.erased && op.kind.isConnect

/-- The leaves of `T` which the operation joins: it connects what lies at the end of one path on either side, and
has the other side driven where the path is turned round. Accessors join nothing. -/
inductive Joins (must : Prop) (strict : Bool) (dest src : ValueId) (T : Ty) (R : OpId → Nat) (b : Body) (x : OpId) :
    List Leaf → Prop
  | connect {path : List Nat} {turned : Bool} {c : Ty} {u w : ValueId} (hc : T.sub? path = some c)
      (hu : b.At dest path u) (hw : b.At src path w)
      (hx : b.Makes x (.connect strict) (if turned then [w, u] else [u, w]) []) (hR : must → c.depth ≤ R x) :
      Joins must strict dest src T R b x (c.leaves.map (Leaf.below path turned))
  | access {kind : OpKind} {i : Nat} {u v : ValueId} (hk : kind.fixedIndex? = some i) (hx : b.Makes x kind [u] [v]) :
      Joins must strict dest src T R b x []
  | erased {op : Operation} (hop : b.op? x = some op) (he : op.erased) (hk : op.kind = .connect strict) :
      Joins must strict dest src T R b x []

theorem Joins.mono (h : Joins must strict dest src T R b x ls) (hb : Extends b b') (hR : R' x = R x) :
    Joins must strict dest src T R' b' x ls := by
  cases h with
  | connect hc hu hw hx hle => exact .connect hc (hu.mono hb) (hw.mono hb) (hx.mono hb) fun hm => by rw [hR]; exact hle hm
  | access hk hx => exact .access hk (hx.mono hb)
  | erased hop he hk =>
    obtain ⟨op', hop', hbare, -, -, -, he'⟩ := hb.op? hop
    exact .erased hop' (by rw [he', he]) ((OpKind.eq_of_bare_eq hbare.symm (by rw [hk]; rfl)).symm.trans hk)

/-- Only a connection is erased, and nothing else is changed. -/
theorem Joins.after_erased (h : Joins must strict dest src T R b x ls) (he : Erased b o b') (hne : x ≠ o)
    (ho : ∀ op, b.op? o = some op → op.kind.isAccessor = false) : Joins must strict dest src T R b' x ls := by
  have hmakes : ∀ {kind vs rs}, b.Makes x kind vs rs → b'.Makes x kind vs rs := fun ⟨op, hop, hrest⟩ =>
    ⟨op, by rw [he.op?, hop, Option.map_some, if_neg hne], hrest⟩
  cases h with
  | connect hc hu hw hx hle => exact .connect hc (hu.erased he ho) (hw.erased he ho) (hmakes hx) hle
  | access hk hx => exact .access hk (hmakes hx)
  | erased hop her hk => exact .erased (by rw [he.op?, hop, Option.map_some, if_neg hne]) her hk

/-- The operations `P ++ D` join all leaves of `T`, in order, and what is done joins leaves one by one. Everything else
is as it was in `b₀`. -/
structure Split (must : Prop) (strict : Bool) (dest src : ValueId) (T : Ty) (b₀ : Body) (o : OpId) (b : Body)
    (R : OpId → Nat) (P D : List OpId) : Prop where
  others : ∀ {x op}, x ≠ o → b₀.op? x = some op → b.op? x = some op
  driven : b.ty? dest = some T ∧ b.Static dest
  driver : b.ty? src = some T ∧ b.Static src
  leaves : StandFor (Joins must strict dest src T R b) (P ++ D) T.leaves
  ground : ∀ {x op v}, x ∈ D → b.op? x = some op → op.erased = false → op.kind.isConnect = true →
    op.operands[0]? = some v → ∃ g, b.ty? v = some (.ground g)

/-! ## One part -/

/-- Two values of one type are connected part by part. -/
theorem connectPart_runs {I : List OpId → Builder → Prop} {Q : OpKind → List Ty → Prop} {s : Builder} {ps : List Part}
    {p : Part} {a d : ValueId} (hgrows : Grows (fun _ => True) (fun _ _ _ _ => True) Q I) (hI : I N s)
    (ha : s.body.ty? a = some c) (hd : s.body.ty? d = some c) (hps : c.PartsOf ps) (hp : p ∈ ps) :
    Runs must (connectPart strict a d p) s fun _ s' => ∃ x y z u w, Grew I N s (N ++ [x, y, z]) s' ∧
      s'.body.PartOf a p.index u ∧ s'.body.PartOf d p.index w ∧
      (∃ kind i, kind.fixedIndex? = some i ∧ s'.body.Makes x kind [d] [w]) ∧
      (∃ kind i, kind.fixedIndex? = some i ∧ s'.body.Makes y kind [a] [u]) ∧
      s'.body.Makes z (.connect strict) (if p.flip then [w, u] else [u, w]) [] := by
  have hchild := hps.child_index hp
  unfold connectPart
  refine (hgrows.part_runs hI (.inl trivial) (fun _ _ _ _ _ => trivial)
    fun _ => ⟨c, p.ty, hd, hchild⟩).bind fun w s₁ ⟨t₁, c₁, kind₁, ht₁, hr₁, x, hg₁, hx, hwty, _⟩ => ?_
  refine (hgrows.part_runs hg₁.holds (.inl trivial) (fun _ _ _ _ _ => trivial)
    fun _ => ⟨c, p.ty, hg₁.body.ty?_some ha, hchild⟩).bind fun u s₂ ⟨t₂, c₂, kind₂, ht₂, hr₂, y, hg₂, hy, huty, _⟩ => ?_
  have hw : s₂.body.PartOf d p.index w :=
    ⟨⟨x, kind₁, hr₁.fixedIndex?, hx.mono hg₂.body⟩, t₁, c₁, (hg₁.body.trans hg₂.body).ty?_some ht₁, hr₁.1,
      hg₂.body.ty?_some hwty⟩
  have hu : s₂.body.PartOf a p.index u :=
    ⟨⟨y, kind₂, hr₂.fixedIndex?, hy⟩, t₂, c₂, hg₂.body.ty?_some ht₂, hr₂.1, huty⟩
  have hwty' := hg₂.body.ty?_some hwty
  have hmake : ∀ {e r te tr}, s₂.body.ty? e = some te → s₂.body.ty? r = some tr →
      [e, r] = (if p.flip then [w, u] else [u, w]) → Runs must (Build.connect strict e r) s₂ fun _ s' =>
      ∃ x y z u w, Grew I N s (N ++ [x, y, z]) s' ∧ s'.body.PartOf a p.index u ∧
        s'.body.PartOf d p.index w ∧ (∃ kind i, kind.fixedIndex? = some i ∧ s'.body.Makes x kind [d] [w]) ∧
        (∃ kind i, kind.fixedIndex? = some i ∧ s'.body.Makes y kind [a] [u]) ∧
        s'.body.Makes z (.connect strict) (if p.flip then [w, u] else [u, w]) [] := by
    intro e r te tr he hr hops
    have hshaped : (OpKind.connect strict).Shaped True [te, tr] [] := ⟨te, tr, rfl, rfl⟩
    refine (hgrows.create_runs hg₂.holds rfl (fun _ _ => .inl trivial) (.cons he (.cons hr .nil)) hshaped
      trivial).mono fun z s₃ ⟨hg₃, hz, _⟩ => ?_
    have hlist : N ++ [x] ++ [y] ++ [z] = N ++ [x, y, z] := by simp
    rw [hlist] at hg₃
    rw [hops] at hz
    exact ⟨x, y, z, u, w, (hg₁.trans hg₂).trans hg₃, hu.mono hg₃.body, hw.mono hg₃.body,
      ⟨kind₁, _, hr₁.fixedIndex?, hx.mono (hg₂.body.trans hg₃.body)⟩, ⟨kind₂, _, hr₂.fixedIndex?, hy.mono hg₃.body⟩,
      hz⟩
  by_cases hf : p.flip
  · rw [if_pos hf]
    exact Runs.bind (hmake hwty' huty (by rw [if_pos hf])) fun _ _ hq => .pure hq
  · rw [if_neg hf]
    exact Runs.bind (hmake huty hwty' (by rw [if_neg hf])) fun _ _ hq => .pure hq

/-! ## One layer -/

/-- The operations made for each part join what the whole joined. -/
theorem Split.parts_runs {t : LowerState} {ps : List Part} {a d : ValueId} {Q : OpId → Nat}
    (hs : t.builder.body.slotsOf k = A ++ x :: B) (hp : t.builder.point = ⟨k, A.length⟩)
    (hb : t.builder.body.Coherent) (hps : c.PartsOf ps) (hc : T.sub? path = some c)
    (ha : t.builder.body.At (if turned then src else dest) path a)
    (hd : t.builder.body.At (if turned then dest else src) path d)
    (hat : t.builder.body.ty? a = some c) (hdt : t.builder.body.ty? d = some c)
    (hR : must → ∀ y, t.builder.body.op? y = none → c.depth ≤ Q y + 1) :
    Runs must (ps.forM fun part => (connectPart strict a d part : Lower Unit)) t fun _ t' => ∃ N,
      Grew (t.builder.body.Prefixed x k A B) [] t.builder N t'.builder ∧
      StandFor (Joins must strict dest src T Q t'.builder.body) N (c.leaves.map (Leaf.below path turned)) := by
  have hstart := Prefixed.start hb hs hp
  rw [hps.leaves_below]
  refine Runs.forM (fun done (t' : LowerState) => ∃ N, Grew (t.builder.body.Prefixed x k A B) [] t.builder N t'.builder ∧
    StandFor (Joins must strict dest src T Q t'.builder.body) N
      (done.flatMap fun p => p.ty.leaves.map (Leaf.below (path ++ [p.index]) (turned ^^ p.flip)))) ps
    ⟨[], .refl hstart, .nil⟩ ?_
  rintro done p rest t' hl ⟨N, hg, hjoins⟩
  have hpmem : p ∈ ps := by simp [hl]
  refine Runs.build ((connectPart_runs (Prefixed.grows _ x k A B) hg.holds (hg.body.ty?_some hat) (hg.body.ty?_some hdt) hps
    hpmem).mono ?_)
  rintro - s' ⟨x₁, y, z, u, w, hg', hu, hw, ⟨_, _, hk₁, hx₁⟩, ⟨_, _, hk₂, hy⟩, hz⟩
  have hext := hg.body.trans hg'.body
  refine ⟨N ++ [x₁, y, z], hg.trans hg', ?_⟩
  rw [List.flatMap_append, List.flatMap_singleton]
  refine (hjoins.mono fun _ _ _ h => h.mono hg'.body rfl).append
    (.skip (.access hk₁ hx₁) (.skip (.access hk₂ hy) (.single ?_)))
  have hdepth : must → p.ty.depth ≤ Q z := fun hm => by
    have hnew : t.builder.body.op? z = none := hg'.holds.fresh z (by simp)
    have := hR hm z hnew
    have := hps.depth_lt hpmem
    omega
  -- a part that is turned round is driven from the other side
  have hsub := Ty.sub?_concat hc (hps.child_index hpmem)
  have ha' := (ha.mono hext).part hu
  have hd' := (hd.mono hext).part hw
  cases turned with
  | true => exact .connect hsub hd' ha' (by cases hf : p.flip <;> simpa [hf] using hz) hdepth
  | false => exact .connect hsub ha' hd' (by cases hf : p.flip <;> simpa [hf] using hz) hdepth

/-- Whatever joins leaves guards nothing. -/
theorem Joins.plain (h : Joins must strict dest src T R b x ls) (hop : b.op? x = some op) : op.kind.blocks = [] := by
  cases h with
  | connect _ _ _ hx =>
    obtain ⟨op', hop', hbare, -⟩ := hx
    rw [Option.some.inj (hop.symm.trans hop'), OpKind.blocks_eq_of_bare_eq hbare]
    rfl
  | access hk hx =>
    obtain ⟨op', hop', hbare, -⟩ := hx
    rw [← OpKind.fixedIndex?_eq_of_bare_eq hbare, ← Option.some.inj (hop.symm.trans hop')] at hk
    cases hkind : op.kind <;> simp_all [OpKind.fixedIndex?, OpKind.blocks]
  | erased hop' _ hk =>
    rw [Option.some.inj (hop.symm.trans hop'), hk]
    rfl

/-- An operation is done if what it connects, should it stand, is ground. -/
theorem Split.settle (h : Split must strict dest src T b₀ o b R (P ++ [x]) D)
    (hx : ∀ {op v}, b.op? x = some op → op.erased = false → op.kind.isConnect = true → op.operands[0]? = some v →
      ∃ g, b.ty? v = some (.ground g)) : Split must strict dest src T b₀ o b R P (x :: D) where
  others := h.others
  driven := h.driven
  driver := h.driver
  leaves := by simpa using h.leaves
  ground hy hop he hk hv := by
    rcases List.mem_cons.1 hy with rfl | hy
    · exact hx hop he hk hv
    · exact h.ground hy hop he hk hv

/-- A connection is replaced by connections of the parts, and erased. -/
theorem Split.stepped {s₀ s : Builder} {vs : List ValueId} {m₁ m₂ : List Leaf} (hr : b₀.Region o s₀.body (P ++ [x]) D)
    (h : Split must strict dest src T b₀ o s₀.body R (P ++ [x]) D) (hx : s₀.body.Makes x (.connect strict) vs [])
    (hg : Grew (s₀.body.Prefixed x k A B) [] s₀ N s) (hR : ∀ y, (s₀.body.op? y).isSome → R' y = R y)
    (hleaves : T.leaves = m₁ ++ ls ++ m₂) (hP : StandFor (Joins must strict dest src T R s₀.body) P m₁)
    (hN : StandFor (Joins must strict dest src T R' s.body) N ls)
    (hD : StandFor (Joins must strict dest src T R s₀.body) D m₂) (he : Erased s.body x b') :
    Split must strict dest src T b₀ o b' R' (P ++ N) (x :: D) := by
  obtain ⟨b, p⟩ := s₀
  have hext : Extends b s.body := hg.body
  have hb : b.Coherent := hr.coherent
  have hsb := hg.holds.coherent
  obtain ⟨opx, hopx, hbarex, -, hresx, -⟩ := hx.mono hext
  have hkx : opx.kind = .connect strict := (OpKind.eq_of_bare_eq hbarex.symm rfl).symm
  have hacc : ∀ op, s.body.op? x = some op → op.kind.isAccessor = false := fun op hop => by
    rw [Option.some.inj (hop.symm.trans hopx), hkx]
    rfl
  have hold : ∀ {y op}, y ≠ x → b.op? y = some op → b'.op? y = some op := fun {y op} hne hop => by
    rw [he.op?, hg.holds.op?_old hext hop, Option.map_some, if_neg hne]
  have hnew : ∀ {y}, b₀.op? y ≠ none → y ≠ o → y ≠ x := by
    rintro y hy hyo rfl
    rcases hr.new y (by simp) with rfl | hnone
    · exact hyo rfl
    · exact hy hnone
  -- a connection makes nothing that could be on a way
  have hstatic : ∀ {v}, b.Static v → b'.Static v := fun {v} hv => by
    have hv' := hv.agrees hb hsb (hext.agrees hb) (isSome_value?.1 hv.isSome)
    refine hv'.agrees hsb (he.coherent hsb) (he.dropped.agrees rfl hsb he.unread) fun i hi => ?_
    obtain ⟨op, hop, hres⟩ := hsb.origin hi
    rw [Option.some.inj (hop.symm.trans hopx), hresx] at hres
    cases hres
  have hmem : ∀ y ∈ P ++ [x] ++ D, (b.op? y).isSome := hr.tidy.known
  have hnd := hr.tidy.nodup
  refine ⟨fun {y op} hne hy => hold (hnew (by simp [hy]) hne) (h.others hne hy), ?_, ?_, ?_, ?_⟩
  · exact ⟨by rw [he.outlives.ty?, hext.ty?_some h.driven.1], hstatic h.driven.2⟩
  · exact ⟨by rw [he.outlives.ty?, hext.ty?_some h.driver.1], hstatic h.driver.2⟩
  · rw [hleaves]
    refine hP.expand hD (fun y hy ls hls => ?_) (hN.mono fun y hy ls hls => hls.after_erased he ?_ hacc) ?_
    · have hne : y ≠ x := by
        rintro rfl
        rw [List.append_assoc, List.singleton_append, List.nodup_middle, List.nodup_cons] at hnd
        exact hnd.1 hy
      refine (hls.mono hext (hR y (hmem y ?_))).after_erased he hne hacc
      simp only [List.mem_append, List.mem_singleton] at hy ⊢
      tauto
    · rintro rfl
      have hx := hmem y (by simp)
      rw [show b.op? y = none from hg.holds.fresh y hy] at hx
      cases hx
    · have hopx' : b'.op? x = some { opx with operands := [], erased := true } := by
        rw [he.op?, hopx, Option.map_some, if_pos rfl]
      exact .erased hopx' rfl hkx
  · rintro y op v hy hop her hk hv
    have hne : y ≠ x := by
      rintro rfl
      rw [he.op?, hopx, Option.map_some, if_pos rfl] at hop
      rw [← Option.some.inj hop] at her
      cases her
    have hyD : y ∈ D := (List.mem_cons.1 hy).resolve_left hne
    obtain ⟨opy, hopy⟩ := Option.isSome_iff_exists.1 (hmem y (by simp [hyD]))
    obtain rfl := Option.some.inj (hop.symm.trans (hold hne hopy))
    obtain ⟨g, hv'⟩ := h.ground hyD hopy her hk hv
    exact ⟨g, by rw [he.outlives.ty?, hext.ty?_some hv']⟩

/-- What joins leaves is passed, or gives way to what joins the same leaves. -/
theorem Split.step_runs {t : LowerState} {opx : Operation} (hm : must → T.lastId?.isSome)
    (hr : b₀.Region o t.builder.body (P ++ [x]) D)
    (h : Split must strict dest src T b₀ o t.builder.body R (P ++ [x]) D)
    (hop : t.builder.body.op? x = some opx) (he : opx.erased = false)
    (hs : t.builder.body.slotsOf k = A ++ x :: B) (hp : t.builder.point = ⟨k, A.length⟩) :
    Runs must (Lower.step cx x opx.kind) t fun replaced t' =>
      if replaced then Layer must (Split must strict dest src T b₀ o) t.builder.body R x k A B P D t'
      else t'.builder.body = t.builder.body ∧ Split must strict dest src T b₀ o t.builder.body R P (x :: D) := by
  have hleaves := h.leaves
  rw [List.append_assoc, List.singleton_append] at hleaves
  obtain ⟨m₁, ls, m₂, hT, hP, hls, hD⟩ := hleaves.middle
  have hb := hr.coherent
  cases hls with
  | erased hop' he' hk =>
    rw [Option.some.inj (hop.symm.trans hop'), he'] at he
    cases he
  | access hk hx =>
    obtain ⟨op', hop', hbare, -⟩ := hx
    rw [← OpKind.fixedIndex?_eq_of_bare_eq hbare, ← Option.some.inj (hop.symm.trans hop')] at hk
    have hsettled := h.settle fun {op v} hop₁ _ hc _ => by
      rw [← Option.some.inj (hop.symm.trans hop₁)] at hc
      cases hkind : opx.kind <;> simp_all [OpKind.isConnect, OpKind.fixedIndex?]
    cases hkind : opx.kind <;> rw [hkind] at hk <;> cases hk
    all_goals exact Runs.pure (a := false) ⟨rfl, hsettled⟩
  | @connect path turned c u w hc hu hw hx hR =>
    have hx' := hx
    obtain ⟨op', hop', hbare, hops, -⟩ := hx
    obtain rfl := Option.some.inj (hop.symm.trans hop')
    have hk : opx.kind = .connect strict := (OpKind.eq_of_bare_eq hbare.symm rfl).symm
    -- the two operands, from the side that is driven to the other one
    obtain ⟨a, d, had, ha, hd, hat, hdt⟩ : ∃ a d, opx.operands = [a, d] ∧
        t.builder.body.At (if turned then src else dest) path a ∧
        t.builder.body.At (if turned then dest else src) path d ∧
        t.builder.body.ty? a = some c ∧ t.builder.body.ty? d = some c := by
      obtain ⟨c₁, hc₁, htu⟩ := hu.ty? h.driven.1
      obtain ⟨c₂, hc₂, htw⟩ := hw.ty? h.driver.1
      obtain rfl := Option.some.inj (hc.symm.trans hc₁)
      obtain rfl := Option.some.inj (hc.symm.trans hc₂)
      cases turned
      · exact ⟨u, w, hops, hu, hw, htu, htw⟩
      · exact ⟨w, u, hops, hw, hu, htw, htu⟩
    have hstatic : t.builder.body.Static a := by
      cases turned
      · exact h.driven.2.at hb ha
      · exact h.driver.2.at hb ha
    rw [hk]
    change Runs must (Lower.connect x strict) t _
    unfold Lower.connect Lower.writePath
    rw [bind_assoc]
    refine Runs.bind_body (P := ([] = ·)) (.of_eq_ok (hstatic.writePath_eq hop (by rw [had]; rfl)) rfl) ?_
    rintro _ rfl
    rw [List.getLast?_nil, pure_bind, if_neg Bool.false_ne_true]
    refine Body.bind_operand hop (v := a) (by rw [had]; rfl) ?_
    refine Body.bind_operand hop (v := d) (by rw [had]; rfl) ?_
    refine Body.bind_typeOf hat (Runs.bind_except (Ty.peel_ends fun hmust => Ty.isSome_lastId?_sub (hm hmust) hc) ?_)
    intro r hr'
    cases r with
    | none =>
      have hground : c.isGround := by simpa using hr'
      refine .pure ⟨rfl, h.settle fun {op v} hop₁ _ _ hv => ?_⟩
      rw [← Option.some.inj (hop.symm.trans hop₁), had] at hv
      obtain rfl : a = v := Option.some.inj hv
      cases c with
      | ground g => exact ⟨g, hat⟩
      | _ => cases hground
    | some ps =>
      have hps := hr'.1
      let R' : OpId → Nat := fun y => if (t.builder.body.op? y).isSome then R y else c.depth - 1
      refine (Split.parts_runs (Q := R') hs hp hb hps hc ha hd hat hdt fun _ y hy => ?_).bind ?_
      · simp only [R', hy, Option.isSome_none, Bool.false_eq_true, if_false]
        omega
      rintro - t' ⟨N, hg, hjoins⟩
      have hhad : [a, d] = if turned then [w, u] else [u, w] := had ▸ hops
      refine .pure ⟨N, R', hg.holds, fun y hy => if_pos hy, fun hmust => ⟨fun y hy => ?_, ?_⟩, fun b' he' => ?_⟩
      · have hlt := hR hmust
        have := Ty.depth_pos hps.aggregate
        simp only [R', hg.holds.fresh y hy, Option.isSome_none, Bool.false_eq_true, if_false]
        omega
      · rintro ⟨op₁, v, r, hop₁, hv, -⟩
        obtain ⟨op₂, hop₂, -, -, hres, -⟩ := hx'.mono hg.body
        rw [Option.some.inj (hop₁.symm.trans hop₂), hres] at hv
        cases hv
      · exact h.stepped hr hx' hg (fun y hy => if_pos hy) hT hP hjoins hD he'

/-- Every layer keeps what the operations join. -/
theorem Split.kept (hm : must → T.lastId?.isSome) :
    KeptByLayers must cx b₀ o (Split must strict dest src T b₀ o) where
  nested _ {b R P D x x'} h hx hx' := by
    obtain ⟨op, hop, k, hk, -⟩ := mem_inner.1 hx'
    obtain ⟨ls, hls⟩ := h.leaves.exists_of_mem (List.mem_append_left D hx)
    rw [hls.plain hop] at hk
    cases hk
  settle {b R P D x opx} _ h hop hpass := by
    obtain ⟨ls, hls⟩ := h.leaves.exists_of_mem (a := x) (by simp)
    have he := hpass.resolve_right (not_not.2 (hls.plain hop))
    refine h.settle fun {op v} hop' he' _ _ => ?_
    rw [← Option.some.inj (hop.symm.trans hop'), he] at he'
    cases he'
  step hr h hop he _ hs hp := h.step_runs hm hr hop he hs hp

/-- The operation connects what lies at the leaf on either side, and nothing else: the source drives the
destination, or the other way round if the way to the leaf is turned round. -/
def ConnectsAt (b : Body) (strict : Bool) (dest src : ValueId) (x : OpId) (l : Leaf) : Prop :=
  ∃ u w, b.At dest l.path u ∧ b.At src l.path w ∧ b.ty? u = some (.ground l.ground) ∧
    b.ty? w = some (.ground l.ground) ∧ b.Makes x (.connect strict) (if l.flip then [w, u] else [u, w]) []

/-- Once nothing is pending, each connection joins one leaf. -/
theorem Split.joins (h : Split must strict dest src T b₀ o b R [] N) :
    List.Forall₂ (b.ConnectsAt strict dest src) (N.filter b.connects) T.leaves := by
  refine h.leaves.filter fun x hx ls hls => ?_
  cases hls with
  | @connect path turned c u w hc hu hw hmk _ =>
    left
    obtain ⟨c₁, hc₁, htu⟩ := hu.ty? h.driven.1
    obtain ⟨c₂, hc₂, htw⟩ := hw.ty? h.driver.1
    obtain rfl := Option.some.inj (hc.symm.trans hc₁)
    obtain rfl := Option.some.inj (hc.symm.trans hc₂)
    obtain ⟨op, hop, hbare, hops, -, he⟩ := id hmk
    have hk : op.kind.isConnect := by rw [← OpKind.eq_of_bare_eq hbare.symm rfl]; rfl
    obtain ⟨g, rfl⟩ : ∃ g, c = .ground g := by
      cases turned with
      | true =>
        obtain ⟨g, hg⟩ := h.ground hx hop he hk (v := w) (by rw [hops]; rfl)
        exact ⟨g, Option.some.inj (htw.symm.trans hg)⟩
      | false =>
        obtain ⟨g, hg⟩ := h.ground hx hop he hk (v := u) (by rw [hops]; rfl)
        exact ⟨g, Option.some.inj (htu.symm.trans hg)⟩
    refine ⟨by simp [connects, hop, he, hk], (Leaf.below path turned ⟨[], false, g⟩), rfl, u, w, ?_⟩
    simpa [Leaf.below] using ⟨hu, hw, htu, htw, hmk⟩
  | access hk hmk =>
    right
    obtain ⟨op, hop, hbare, -⟩ := hmk
    rw [← OpKind.fixedIndex?_eq_of_bare_eq hbare] at hk
    refine ⟨?_, rfl⟩
    cases hkind : op.kind <;> simp_all [connects, OpKind.isConnect, OpKind.fixedIndex?]
  | erased hop he _ => exact .inr ⟨by simp [connects, hop, he], rfl⟩

end Body

/-- `C` stands in front of `o` for the connection of `T` that `o` was: one connection for each leaf, and accessors. -/
structure Body.Connected (b : Body) (strict : Bool) (dest src : ValueId) (T : Ty) (o : OpId) (k : BlockId)
    (A B C : List OpId) (b' : Body) : Prop where
  slots : b'.slotsOf k = A ++ C ++ o :: B
  leaves : List.Forall₂ (b'.ConnectsAt strict dest src) ((C ++ [o]).filter b'.connects) T.leaves
  accessors : ∀ {x op}, x ∈ C → b'.op? x = some op → op.kind = .connect strict ∨ op.kind.fixedIndex?.isSome
  new : ∀ {x}, x ∈ C → b.op? x = none
  others : ∀ {x op}, x ≠ o → b.op? x = some op → b'.op? x = some op
  blocks : ∀ {k' blk}, k' ≠ k → b.block? k' = some blk → b'.block? k' = some blk

namespace Lower

/-- A connection of two values of one type, each reached without computed accesses, is lowered to one connection of
the same kind for each leaf of the type, in pre-order. Only too many field IDs stop it. -/
theorem connect_leaves (cx : Context) (fuel : Nat) {k : BlockId} {A B : List OpId} {t : LowerState} {o : OpId}
    {op : Operation} {strict : Bool} {dest src : ValueId} {T : Ty} (hb : t.builder.body.Coherent)
    (hw : t.builder.body.Walked o) (hs : t.builder.body.slotsOf k = A ++ o :: B)
    (hop : t.builder.body.op? o = some op) (hk : op.kind = .connect strict) (hops : op.operands = [dest, src])
    (hres : op.results = []) (htd : t.builder.body.ty? dest = some T) (hts : t.builder.body.ty? src = some T)
    (hdest : t.builder.body.Static dest) (hsrc : t.builder.body.Static src) :
    Runs (T.lastId?.isSome ∧ T.depth < fuel) (lowerOp cx fuel k A.length) t fun _ t' =>
      ∃ C, t.builder.body.Connected strict dest src T o k A B C t'.builder.body := by
  have he := erased_of_stands hop hw.stands
  have hplain : op.kind.blocks = [] := by rw [hk]; rfl
  have hmk : t.builder.body.Makes o (.connect strict) [dest, src] [] := ⟨op, hop, by rw [hk], hops, hres, he⟩
  have hstart : Split (T.lastId?.isSome ∧ T.depth < fuel) strict dest src T t.builder.body o t.builder.body
      (fun _ => T.depth) [o] [] := by
    refine ⟨fun _ h => h, ⟨htd, hdest⟩, ⟨hts, hsrc⟩, .single ?_, by simp⟩
    have hjoins : Joins (T.lastId?.isSome ∧ T.depth < fuel) strict dest src T (fun _ => T.depth) t.builder.body o
        (T.leaves.map (Leaf.below [] false)) := .connect rfl .self .self hmk fun _ => Nat.le_refl _
    simpa using hjoins
  refine (Region.lowerOp_runs (Split.kept fun h => h.1) hb hop hplain hw hs hstart fun h => h.2).mono ?_
  rintro - t' ⟨C, N, R', hC, hsplit⟩
  -- nothing that joins leaves guards anything
  obtain rfl : N = C ++ [o] := hC.unfolds.eq_of_plain fun x hx op' hop' => by
    obtain ⟨ls, hls⟩ := hsplit.leaves.exists_of_mem (hC.unfolds.subset hx)
    exact hls.plain hop'
  have hnd := hC.region.tidy.nodup
  refine ⟨C, hC.slots, hsplit.joins, fun {x op'} hx hop' => ?_, fun {x} hx => ?_, hsplit.others, ?_⟩
  · obtain ⟨ls, hls⟩ := hsplit.leaves.exists_of_mem (a := x) (by simp [hx])
    cases hls with
    | connect _ _ _ hmk =>
      obtain ⟨op₁, hop₁, hbare, -⟩ := hmk
      rw [Option.some.inj (hop'.symm.trans hop₁)]
      exact .inl (OpKind.eq_of_bare_eq hbare.symm rfl).symm
    | access hfix hmk =>
      obtain ⟨op₁, hop₁, hbare, -⟩ := hmk
      rw [Option.some.inj (hop'.symm.trans hop₁), OpKind.fixedIndex?_eq_of_bare_eq hbare, hfix]
      exact .inr rfl
    | erased hop₁ _ hk' =>
      rw [Option.some.inj (hop'.symm.trans hop₁)]
      exact .inl hk'
  · refine (hC.region.new x (by simp [hx])).resolve_left ?_
    rintro rfl
    rw [List.nil_append, List.nodup_append] at hnd
    exact hnd.2.2 x hx x (by simp) rfl
  · intro k' blk hne hblk
    refine hC.untouched.block? hblk (by simpa using hne) fun x hx => ?_
    rw [List.mem_singleton.1 hx, guardedBlocks_eq hop, hplain]
    exact List.not_mem_nil

end Lower

/-- A field of each direction. -/
def pairTy : Ty := .bundle [⟨"a", false, .uint 1⟩, ⟨"b", true, .uint 2⟩]

/-- Two ports of that type, one connected to the other. -/
def pairBody : Body where
  values := #[⟨pairTy, .argument, [⟨⟨0⟩, 0⟩]⟩, ⟨pairTy, .argument, [⟨⟨0⟩, 1⟩]⟩]
  ops := #[⟨.connect false, [⟨0⟩, ⟨1⟩], [], Body.entry, false⟩]
  blocks := #[⟨[⟨0⟩], none⟩]
  args := [⟨0⟩, ⟨1⟩]

theorem pairBody_coherent : pairBody.Coherent := by
  have hbuilt : Builder.Built [pairTy, pairTy] ⟨pairBody, ⟨Body.entry, 1⟩⟩ :=
    .call (.connect false ⟨0⟩ ⟨1⟩) (.start ⟨Body.entry, 0⟩ rfl) rfl
  exact hbuilt.reachable.coherent

theorem Lower.connect_leaves_pair : ∃ r,
    (lowerOp ⟨{}, []⟩ 2 Body.entry 0).run ⟨⟨pairBody, ⟨Body.entry, 1⟩⟩, ⟨"M", {}, [], {}, [], 0⟩⟩ = .ok r ∧
      ∃ C, pairBody.Connected false ⟨0⟩ ⟨1⟩ pairTy ⟨0⟩ Body.entry [] [] C r.2.builder.body := by
  -- the state is kept closed, so that nothing is run here
  generalize ht : (⟨⟨pairBody, _⟩, _⟩ : LowerState) = t
  have hb : t.builder.body = pairBody := ht ▸ rfl
  rw [← hb]
  have hop : t.builder.body.op? ⟨0⟩ = some ⟨.connect false, [⟨0⟩, ⟨1⟩], [], Body.entry, false⟩ := hb ▸ rfl
  have hs : t.builder.body.slotsOf Body.entry = [] ++ ⟨0⟩ :: [] := hb ▸ rfl
  have hty : ∀ v ∈ [⟨0⟩, ⟨1⟩], t.builder.body.ty? v = some pairTy ∧ t.builder.body.Static v := by
    rw [hb]
    intro v hv
    rcases List.mem_pair.1 hv with rfl | rfl <;> exact ⟨rfl, .argument rfl⟩
  have hends := Lower.connect_leaves ⟨{}, []⟩ 2 (hb ▸ pairBody_coherent) (hb ▸ .entry (by decide) (by decide)) hs hop rfl
    rfl rfl (hty _ (by simp)).1 (hty _ (by simp)).1 (hty _ (by simp)).2 (hty _ (by simp)).2
  exact hends.exists_ok ⟨by decide, by decide⟩

end Scalarize
