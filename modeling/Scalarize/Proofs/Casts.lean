import Scalarize.Proofs.Built
import Scalarize.Proofs.Region.CastLayer

/-!
# Casts keep every bit

A cast of an aggregate, or to an aggregate, is lowered to the end. Every leaf of the new type is made of the bits of the
operand that lie where the leaf lies.

* `Body.CastsAt`, `Body.CastOut` : before and after;
* `Body.HoldsLeaf` : what a leaf is made of;
* `Lower.cast_keeps_bits` : the main result.
-/

namespace Scalarize

open Body

namespace Body

variable {must : Prop} {b₀ b : Body} {o y : OpId} {S T : Ty} {R : OpId → Nat} {k : BlockId} {L B C N : List OpId}
  {x r w : ValueId} {n : Nat}

/-! ## Before -/

/-- In block `k`, between `L` and `B`, the operation `o` casts `x` of type `S` to `r` of type `T`, which both take `n` bits.
The operations of the body are shaped as the builder makes them, and read what is in scope. -/
structure CastsAt (b : Body) (k : BlockId) (L : List OpId) (o : OpId) (B : List OpId) (x r : ValueId) (S T : Ty) (n : Nat) :
    Prop where
  coherent : b.Coherent
  inScope : b.InScope
  typed : b.Typed (OpKind.Shaped False)
  walked : b.Walked o
  slots : b.slotsOf k = L ++ o :: B
  makes : b.Makes o .bitcast [x] [r]
  operand : b.ty? x = some S
  result : b.ty? r = some T
  aggregate : (S.isGround && T.isGround) = false
  width_operand : S.width = some n
  width_result : T.width = some n
  lt : n < UInt32.size
  ids_operand : S.lastId?.isSome
  ids_result : T.lastId?.isSome

/-- In the beginning, the cast itself is pending. -/
theorem CastsAt.start (h : b.CastsAt k L o B x r S T n) (hopen : must → b.ReadInParts r) :
    Casting must T r x n (b.At r) b b (fun _ => S.depth + T.depth) [o] [] := by
  have hb := h.coherent
  have hmk := h.makes
  have hnot : ∀ {p u}, b.Reads o u → ¬b.At r p u := h.inScope.not_at hb h.walked hmk
  have hresult : ∀ {kind vs u}, b.Makes o kind vs [u] → u = r := fun hu => (hmk.same hu).2.2
  have hchart : Charted must b r T (b.At r) b [o] [] :=
    .start hb hmk rfl h.result h.typed hopen hnot
  refine ⟨hchart, fun z hz => ?_, by simp, by simp [h.operand], fun {z kind vs} hz hx => ?_,
    fun {p u c n' bits} hu hp hc hw hne hlen => ?_, fun l _ => ?_, fun {p u z a} hu hp hz hcast => ?_, fun {z op} hz _ hop _ => ?_⟩
  · rw [List.mem_singleton.1 hz]
    exact .cast hmk h.operand h.result h.width_operand h.width_result h.lt h.ids_operand h.ids_result (fun _ => Nat.le_refl _)
      (fun _ => ⟨[], .self⟩) False.elim
  · obtain rfl : z = o := by simpa using hz
    refine hnot (p := []) (u := x) (hmk.reads.2 (by simp)) ?_
    rw [hresult hx]
    exact .self
  · -- of what is charted, the cast made the root alone
    obtain ⟨z, hz, kind, vs, -, hu'⟩ := hp
    obtain rfl : z = o := by simpa using hz
    obtain rfl := hresult hu'
    obtain rfl := hchart.unique hu .self
    obtain rfl := Option.some.inj hc
    obtain rfl : n' = n := Option.some.inj (hw.symm.trans h.width_result)
    rw [Ty.offset, ← hlen, cut_zero]
    exact .unary (f := id) (by simp) hmk h.operand rfl (by rw [hlen, h.width_operand]) (.given ⟨rfl, rfl⟩)
  · exact ⟨[], r, List.nil_prefix, .self, o, by simp, .bitcast, [x], fun _ => rfl, hmk, by simp⟩
  · obtain rfl : z = o := by simpa using hz
    obtain rfl := hresult hcast
    exact absurd (hchart.unique hu .self) hp
  · obtain rfl : z = o := by simpa using hz
    obtain ⟨op', hop', -, hops, -⟩ := hmk
    rw [Option.some.inj (hop.symm.trans hop'), hops]

/-! ## What is cast -/

/-- What fixed accessors reach holds the bits of its node. -/
theorem At.evaluates {p : List Nat} {u : ValueId} {c : Ty} {bits : List Bool} {m : Nat} (h : b.At x p u)
    (hS : b.ty? x = some S) (hw : S.width = some bits.length) (hc : S.sub? p = some c) (hm : c.width = some m) :
    b.Evaluates (Holding x bits) (fun _ => True) u (cut bits (S.offset p) m) := by
  induction h generalizing c m with
  | self =>
    obtain rfl := Option.some.inj hc
    obtain rfl : bits.length = m := Option.some.inj (hw.symm.trans hm)
    rw [Ty.offset, cut_zero]
    exact .given ⟨rfl, rfl⟩
  | @part p v w i hv hpart ih =>
    obtain ⟨d, hd, hchild⟩ := Ty.sub?_of_concat hc
    obtain ⟨d', hd', hty⟩ := hv.ty? hS
    obtain rfl := Option.some.inj (hd.symm.trans hd')
    obtain ⟨m', hm', hle⟩ := Ty.offset_add_le hw hd
    obtain ⟨y, kind, hfix, hmk⟩ := hpart.made
    have hlen : (cut bits (S.offset p) m').length = m' := length_cut hle
    have hu : b.Evaluates (Holding x bits) (fun _ => True) w
        (cut (cut bits (S.offset p) m') (d.bitsBefore i) (c.width.getD 0)) :=
      .unary (f := fun bits => cut bits (d.bitsBefore i) (c.width.getD 0)) trivial hmk hty
        ((OpKind.onBits_of_fixedIndex? hfix d).trans (congrArg _ hchild)) (by rw [hlen, hm']) (ih hd hm')
    rwa [hm, Option.getD_some, cut_cut (Ty.bitsBefore_add_le hchild hm hm'), ← Ty.offset_concat hd] at hu

/-- Bits that are strung together are those of the leaves: what reaches a leaf holds what this leaf holds. -/
theorem At.evaluates_leaf {u : ValueId} {l : Leaf} {m₁ m₂ : List Leaf} {vals₁ vals₂ : List (List Bool)} {bits : List Bool}
    (h : b.At x l.path u) (hS : b.ty? x = some S) (hw : S.width = some n) (hid : S.lastId?.isSome)
    (hl : S.leaves = m₁ ++ l :: m₂) (h₁ : List.Forall₂ (fun bits l => bits.length = l.width) vals₁ m₁)
    (hbits : bits.length = l.width) (h₂ : List.Forall₂ (fun bits l => bits.length = l.width) vals₂ m₂) :
    b.Evaluates (Holding x (vals₁ ++ bits :: vals₂).flatten) (fun _ => True) u bits := by
  have hsub := (Ty.mem_leaves.1 (hl ▸ List.mem_append_right m₁ List.mem_cons_self : l ∈ S.leaves)).1
  have hvals : List.Forall₂ (fun bits l => bits.length = l.width) (vals₁ ++ bits :: vals₂) S.leaves :=
    hl ▸ List.rel_append h₁ (.cons hbits h₂)
  obtain ⟨m, hm, -⟩ := Ty.offset_add_le hw hsub
  obtain rfl : l.width = m := congrArg (Option.getD · 0) hm
  have hu := h.evaluates hS (by rw [Ty.length_flatten_leaves hw hvals, hw]) hsub hm
  rw [Ty.offset_leaf hid hw hl, ← Ty.length_flatten h₁, ← hbits] at hu
  simpa [cut] using hu

/-! ## After -/

/-- The value is the leaf `l` of what `x`, of type `S`, was cast to, where the leaves `before` lie in front of it. Whatever the
leaves of `x` hold, the value holds those of these bits, strung together with the first leaf lowest, that begin behind as many
as there are in front of `l`; this is what the operations `C` compute. -/
def HoldsLeaf (b : Body) (C : List OpId) (x : ValueId) (S : Ty) (before : List Leaf) (l : Leaf) (w : ValueId) : Prop :=
  b.ty? w = some (.ground l.ground) ∧ ∀ {vals : List (List Bool)} {bits : List Bool},
    List.Forall₂ (fun bits l => bits.length = l.width) vals S.leaves → l.width ≠ 0 →
      (b.Evaluates (Holding x vals.flatten) (· ∈ C) w bits ↔ bits = cut vals.flatten (total (before.map (·.width))) l.width)

/-- Once nothing is pending, the values in the chart are leaves of the cast. -/
theorem Casting.holdsLeaf {F : List Nat → ValueId → Prop} {m₁ m₂ : List Leaf} {l : Leaf}
    (h : Casting must T r x n F b₀ b R [] (C ++ [o])) (hb : b.Coherent) (ho : ∀ {op}, b.op? o = some op → op.erased = true)
    (hS : S.width = some n) (hT : T.width = some n) (hid : T.lastId?.isSome) (hl : T.leaves = m₁ ++ l :: m₂)
    (hw : F l.path w) (hmade : ProducedIn T (C ++ [o]) b w) : b.HoldsLeaf C x S m₁ l w := by
  have hsub := (Ty.mem_leaves.1 (hl ▸ List.mem_append_right m₁ List.mem_cons_self : l ∈ T.leaves)).1
  obtain ⟨c, hc, hty⟩ := h.chart.typed hw
  obtain rfl := Option.some.inj (hsub.symm.trans hc)
  refine ⟨hty, fun {vals bits} hvals hne => ?_⟩
  obtain ⟨u, hu, -⟩ := Ty.offset_add_le hT hsub
  obtain rfl : l.width = u := congrArg (Option.getD · 0) hu
  have hholds := h.holds hw hmade hsub hu hne (Ty.length_flatten_leaves hS hvals)
  rw [Ty.offset_leaf hid hT hl] at hholds
  -- what is erased makes nothing
  have hstands : b.Evaluates (Holding x vals.flatten) (· ∈ C) w (cut vals.flatten (total (m₁.map (·.width))) l.width) := by
    refine hholds.carried (f := id) (Q := fun _ => True) (fun _ => rfl) id (fun {y kind vs w'} hy hmk _ =>
      ⟨fun _ _ => trivial, .inl ⟨(List.mem_append.1 hy).resolve_right fun hy => ?_, by simpa using hmk⟩⟩) trivial
    obtain ⟨op, hop, -, -, -, he⟩ := hmk
    rw [List.mem_singleton.1 hy] at hop
    rw [ho hop] at he
    cases he
  refine ⟨fun hbits => ?_, fun hbits => hbits ▸ hstands⟩
  refine hbits.unique hb (fun hg hg' => hg.2.trans hg'.2.symm) (fun {v l y kind vs} hg hy hmk => ?_) hstands
  exact h.free (z := y) (by simp [hy]) (hg.1 ▸ hmk)

/-- `C` stands in front of `o` for the cast from `S` to `T` that `o` was: operations that compute the leaves of `T`, which
whoever read a leaf reads now. What they cast is ground, and they select bits that there are. -/
structure CastOut (b : Body) (k : BlockId) (L : List OpId) (o : OpId) (B : List OpId) (x r : ValueId) (S T : Ty)
    (C : List OpId) (b' : Body) : Prop where
  slots : b'.slotsOf k = L ++ C ++ o :: B
  new : ∀ {y}, y ∈ C → b.op? y = none
  erased : ∀ {op}, b'.op? o = some op → op.erased = true
  casts : ∀ {y v w}, y ∈ C → b'.Makes y .bitcast [v] [w] →
    ∃ s t, b'.ty? v = some s ∧ b'.ty? w = some t ∧ s.isGround ∧ t.isGround
  bits : ∀ {y op hi lo}, y ∈ C → b'.op? y = some op → op.kind = .prim (.bits hi lo) →
    lo ≤ hi ∧ ∃ v t n, op.operands = [v] ∧ b'.ty? v = some t ∧ t.width = some n ∧ hi < n
  leaves : ∀ {m₁ l m₂}, T.leaves = m₁ ++ l :: m₂ → ∃ w, b'.HoldsLeaf C x S m₁ l w
  readers : ∀ {m₁ l m₂ u y i}, T.leaves = m₁ ++ l :: m₂ → b.At r l.path u → b.Slot y i u →
    ∃ w, b'.Slot y i w ∧ b'.HoldsLeaf C x S m₁ l w

end Body

namespace Lower

/-- A cast to or from an aggregate, of which fixed accessors alone read the parts, is lowered to the end without a failure, and
no bit moves: each leaf of the result that has any bits holds those that lie at its place in the operand. -/
theorem cast_keeps_bits (cx : Context) (fuel : Nat) {k : BlockId} {L B : List OpId} {t : LowerState} {o : OpId}
    {x r : ValueId} {S T : Ty} {n : Nat} (hkeep : cx.options.preserveAggregate = false)
    (h : t.builder.body.CastsAt k L o B x r S T n) :
    Runs (S.depth + T.depth < fuel ∧ t.builder.body.ReadInParts r) (lowerOp cx fuel k L.length) t fun _ t' => ∃ C,
      t.builder.body.CastOut k L o B x r S T C t'.builder.body := by
  set must := S.depth + T.depth < fuel ∧ t.builder.body.ReadInParts r with hmust
  obtain ⟨op, hop, hbare, hops, hres, he⟩ := id h.makes
  have hk : op.kind = .bitcast := (OpKind.eq_of_bare_eq hbare.symm rfl).symm
  have hplain : op.kind.blocks = [] := by rw [hk]; rfl
  have hstart : Recast must T r x n t.builder.body t.builder.body (fun _ => S.depth + T.depth) [o] [] :=
    ⟨_, h.start fun hm => hm.2⟩
  refine (Region.lowerOp_runs (Recast.kept hkeep) h.coherent hop hplain h.walked h.slots hstart fun hm => hm.1).mono ?_
  rintro - t' ⟨C, N, R', hC, F, hF⟩
  have hb := hC.region.coherent
  -- no step of a cast guards anything
  obtain rfl : N = C ++ [o] := hC.unfolds.eq_of_plain fun y hy op' hop' => (hF.done y (hC.unfolds.subset hy)).plain hop'
  have hnd := hC.region.tidy.nodup
  rw [List.nil_append, List.nodup_append] at hnd
  have herased : ∀ {op'}, t'.builder.body.op? o = some op' → op'.erased = true := fun {op'} hop' => by
    obtain ⟨op'', hop'', hkind, hresults, -⟩ := hC.region.edited.op? hop
    obtain rfl := Option.some.inj (hop'.symm.trans hop'')
    by_contra hstands
    rw [Bool.not_eq_true] at hstands
    -- it would cast `x` still
    have hsource := hF.source (z := o) (by simp) (by simp [hop]) hop' hstands
    obtain ⟨s, u, hs, hu, hsg, hug⟩ := (hF.done o (by simp)).ground_of_cast
      ⟨op', hop', by rw [hkind, hk], hsource, hresults.trans hres, hstands⟩
    obtain rfl := Option.some.inj ((hC.region.edited.ty? h.operand).symm.trans hs)
    obtain rfl := Option.some.inj ((hC.region.edited.ty? h.result).symm.trans hu)
    have := h.aggregate
    rw [hsg, hug] at this
    cases this
  refine ⟨C, hC.slots, fun {y} hy => ?_, herased, fun {y v w} hy hmk => ?_, fun {y op' hi lo} hy hop' hk' => ?_,
    fun {m₁ l m₂} hl => ?_, fun {m₁ l m₂ u y i} hl hu hs => ?_⟩
  · refine (hC.region.new y (by simp [hy])).resolve_left ?_
    rintro rfl
    exact hnd.2.2 y hy y (by simp) rfl
  · exact (hF.done y (by simp [hy])).ground_of_cast hmk
  · exact (hF.done y (by simp [hy])).inRange hop' hk'
  · have hmem : l ∈ T.leaves := hl ▸ List.mem_append_right m₁ List.mem_cons_self
    obtain ⟨p, w, -, hw, y, hy, kind, vs, hfix, hmk, hdone⟩ := hF.covers l hmem
    rw [List.nil_append] at hy
    exact ⟨w, hF.holdsLeaf hb herased h.width_operand h.width_result h.ids_result hl (hdone hy ▸ hw)
      ⟨y, hy, kind, vs, hfix, hmk⟩⟩
  · have hsub := (Ty.mem_leaves.1 (hl ▸ List.mem_append_right m₁ List.mem_cons_self : l ∈ T.leaves)).1
    obtain ⟨w, hs', hw, hmade⟩ := hF.chart.slot_leaf hb hu hsub hs
    exact ⟨w, hs', hF.holdsLeaf hb herased h.width_operand h.width_result h.ids_result hl hw hmade⟩

end Lower

/-! ### Two bits as two fields -/

def bitPairTy : Ty := .vector (.uint 1) 2

def fieldPairTy : Ty := .bundle [⟨"a", false, .uint 1⟩, ⟨"b", false, .sint 1⟩]

/-- A port is cast, and a node reads the second field. -/
def pairCastBody : Body where
  values := #[⟨bitPairTy, .argument, [⟨⟨0⟩, 0⟩]⟩, ⟨fieldPairTy, .result ⟨0⟩ 0, [⟨⟨1⟩, 0⟩]⟩,
    ⟨.sint 1, .result ⟨1⟩ 0, [⟨⟨2⟩, 0⟩]⟩, ⟨.sint 1, .result ⟨2⟩ 0, []⟩]
  ops := #[⟨.bitcast, [⟨0⟩], [⟨1⟩], Body.entry, false⟩, ⟨.subfield 1, [⟨1⟩], [⟨2⟩], Body.entry, false⟩,
    ⟨.node {}, [⟨2⟩], [⟨3⟩], Body.entry, false⟩]
  blocks := #[⟨[⟨0⟩, ⟨1⟩, ⟨2⟩], none⟩]
  args := [⟨0⟩]

theorem pairCastBody_built : Builder.Built [bitPairTy] ⟨pairCastBody, ⟨Body.entry, 3⟩⟩ :=
  .call (.node ⟨2⟩ {}) (.call (.subfield ⟨1⟩ 1) (.call (.bitcast fieldPairTy ⟨0⟩) (.start ⟨Body.entry, 0⟩ rfl) rfl) rfl) rfl

theorem pairCastBody_casts : pairCastBody.CastsAt Body.entry [] ⟨0⟩ [⟨1⟩, ⟨2⟩] ⟨0⟩ ⟨1⟩ bitPairTy fieldPairTy 2 where
  coherent := pairCastBody_built.reachable.coherent
  inScope := by
    intro x op v hw hop hv
    have hlt : x.index < 3 := lt_of_op? hop
    match x, hlt with
    | ⟨0⟩, _ =>
      obtain rfl := Option.some.inj hop
      obtain rfl := List.mem_singleton.1 hv
      exact .inl (by decide)
    | ⟨1⟩, _ =>
      obtain rfl := Option.some.inj hop
      obtain rfl := List.mem_singleton.1 hv
      exact .inr ⟨⟨0⟩, 0, rfl, by decide, .here (k := Body.entry) (by decide)⟩
    | ⟨2⟩, _ =>
      obtain rfl := Option.some.inj hop
      obtain rfl := List.mem_singleton.1 hv
      exact .inr ⟨⟨1⟩, 0, rfl, by decide, .here (k := Body.entry) (by decide)⟩
  typed := pairCastBody_built.sound.shaped False.elim
  walked := .entry (by decide) (by decide)
  slots := rfl
  makes := ⟨_, rfl, rfl, rfl, rfl, rfl⟩
  operand := rfl
  result := rfl
  aggregate := rfl
  width_operand := by decide
  width_result := by decide
  lt := by decide
  ids_operand := by decide
  ids_result := by decide

theorem pairCastBody_readInParts : pairCastBody.ReadInParts ⟨1⟩ := by
  intro p u c x op hp hu hg hx hop
  have hlt : x.index < 3 := lt_of_op? hop
  obtain ⟨op', hop', hmem⟩ := id hx
  obtain rfl := Option.some.inj (hop.symm.trans hop')
  match x, hlt with
  | ⟨0⟩, _ =>
    exact absurd hp (pairCastBody_casts.inScope.not_at pairCastBody_casts.coherent pairCastBody_casts.walked pairCastBody_casts.makes hx)
  | ⟨1⟩, _ =>
    obtain rfl := Option.some.inj hop
    rfl
  | ⟨2⟩, _ =>
    obtain rfl := Option.some.inj hop
    obtain rfl := List.mem_singleton.1 hmem
    obtain rfl := Option.some.inj hu
    cases hg

theorem Lower.cast_keeps_bits_pair :
    ∃ r, (lowerOp ⟨{}, []⟩ 5 Body.entry 0).run ⟨⟨pairCastBody, ⟨Body.entry, 3⟩⟩, ⟨"M", {}, [], {}, [], 0⟩⟩ = .ok r ∧
      ∃ C, pairCastBody.CastOut Body.entry [] ⟨0⟩ [⟨1⟩, ⟨2⟩] ⟨0⟩ ⟨1⟩ bitPairTy fieldPairTy C r.2.builder.body := by
  generalize ht : (⟨⟨pairCastBody, _⟩, _⟩ : LowerState) = t
  have hb : t.builder.body = pairCastBody := ht ▸ rfl
  rw [← hb]
  have hcasts : t.builder.body.CastsAt Body.entry [] ⟨0⟩ [⟨1⟩, ⟨2⟩] ⟨0⟩ ⟨1⟩ bitPairTy fieldPairTy 2 := hb ▸ pairCastBody_casts
  exact (cast_keeps_bits ⟨{}, []⟩ 5 rfl hcasts).exists_ok ⟨by decide, hb ▸ pairCastBody_readInParts⟩

end Scalarize
