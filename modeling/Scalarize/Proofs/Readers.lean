import Scalarize.Proofs.Edits.Ports
import Scalarize.Proofs.Region.Chart

/-!
# Readers of nodes

Some values stand for nodes of types, and fixed accessors lead from them to the nodes below.

* `Body.Denotes` : a value is a node;
* `Body.Hands` : operations that still stand read a value for the same node as before; `Hands.trans`,
  `Hands.grown`, `Hands.replaced`, `Hands.erased` : what single edits leave;
* `Body.Primary`, `At.unique_of_primary` : ways that start at values which no fixed accessor makes;
* `Body.Portioned`, `GivesWay.hands`, `Body.rewire_hands` : the readers of a value give way to the values of its parts;
* `Body.splitArgument_hands` : so do those of an argument when it is split.
-/

namespace Scalarize.Body

variable {ι : Type} {b b' b'' b₁ : Body} {R R' R'' : ValueId → ι → List Nat → Prop} {u v w a old r : ValueId}
  {x y z : OpId} {k : ι} {i j : Nat} {p q : List Nat} {op : Operation}

/-- The value is the node of `k` at the end of path `q`: `R` says which values stand for which nodes. -/
def Denotes (R : ValueId → ι → List Nat → Prop) (b : Body) (u : ValueId) (k : ι) (q : List Nat) : Prop :=
  ∃ a p₀ p, R a k p₀ ∧ b.At a p u ∧ p₀ ++ p = q

/-- A part of a node is the node below it. -/
theorem Denotes.below (h : b.Denotes R u k q) (hw : b.PartOf u i w) : b.Denotes R w k (q ++ [i]) := by
  obtain ⟨a, p₀, p, ha, hat, rfl⟩ := h
  exact ⟨a, p₀, p ++ [i], ha, .part hat hw, by rw [List.append_assoc]⟩

theorem Denotes.mono (h : b.Denotes R u k q) (hb : Extends b b') (hR : ∀ {a k p}, R a k p → R' a k p) :
    b'.Denotes R' u k q := by
  obtain ⟨a, p₀, p, ha, hat, hq⟩ := h
  exact ⟨a, p₀, p, hR ha, hat.mono hb, hq⟩

/-- Operations of `b'` stood in `b`, and those that read a node still read a value for it. -/
structure Hands (R : ValueId → ι → List Nat → Prop) (b : Body) (R' : ValueId → ι → List Nat → Prop) (b' : Body) :
    Prop where
  stands : ∀ {x op}, b.op? x = some op → b'.stands x → b.stands x
  slot : ∀ {x j u k q}, b'.stands x → b.Slot x j u → b.Denotes R u k q → ∃ u', b'.Slot x j u' ∧ b'.Denotes R' u' k q

namespace Hands

theorem refl (R : ValueId → ι → List Nat → Prop) (b : Body) : Hands R b R b where
  stands _ hs := hs
  slot _ hu hd := ⟨_, hu, hd⟩

theorem trans (h : Hands R b R' b') (h' : Hands R' b' R'' b'') (hop : ∀ {x}, (b.op? x).isSome → (b'.op? x).isSome) :
    Hands R b R'' b'' where
  stands hx hs := by
    obtain ⟨op', hx'⟩ := Option.isSome_iff_exists.1 (hop (Option.isSome_iff_exists.2 ⟨_, hx⟩))
    exact h.stands hx (h'.stands hx' hs)
  slot {x j u k q} hs hu hd := by
    obtain ⟨op, hx, -⟩ := id hu
    obtain ⟨op', hx'⟩ := Option.isSome_iff_exists.1 (hop (Option.isSome_iff_exists.2 ⟨_, hx⟩))
    obtain ⟨u', hu', hd'⟩ := h.slot (h'.stands hx' hs) hu hd
    exact h'.slot hs hu' hd'

/-- What grows takes nothing back. More values may stand for nodes, and values to which nothing leads for fewer. -/
theorem grown (hb : Extends b b') (hR : ∀ {x j u a k p₀ p}, b.Slot x j u → b.At a p u → R a k p₀ → R' a k p₀) :
    Hands R b R' b' where
  stands hx hs := by
    obtain ⟨op', hop', -, -, -, -, he⟩ := hb.op? hx
    rw [stands_eq, hop'] at hs
    simpa [stands_eq, hx, he] using hs
  slot _ hu hd := by
    obtain ⟨a, p₀, p, ha, hat, hq⟩ := hd
    exact ⟨_, hu.mono hb, a, p₀, p, hR hu hat ha, hat.mono hb, hq⟩

end Hands

/-! ## Values that no accessor makes -/

/-- No fixed accessor makes the value. -/
def Primary (b : Body) (v : ValueId) : Prop :=
  ∀ z i op, b.origin? v = some (.result z i) → b.op? z = some op → op.kind.fixedIndex? = none

namespace Primary

theorem of_argument (h : b.origin? v = some .argument) : b.Primary v := fun _ _ _ hv _ => by
  rw [h] at hv
  cases hv

theorem outlives (h : b.Primary v) (ho : Outlives b b') : b'.Primary v := fun z i op' hv hop => by
  obtain ⟨op, hop₀, hk, -⟩ := ho.op?_some' hop
  rw [hk]
  exact h z i op (by rwa [ho.origin?] at hv) hop₀

theorem of_makes {kind : OpKind} {vs ws : List ValueId} (hb : b.Coherent) (h : b.Makes z kind vs ws)
    (hk : kind.fixedIndex? = none) (hv : v ∈ ws) : b.Primary v := fun z' j op ho hop => by
  obtain ⟨n, hn⟩ := List.mem_iff_getElem?.1 hv
  obtain ⟨rfl, -⟩ := Origin.result.inj (Option.some.inj ((h.origin? hb hn).symm.trans ho))
  obtain ⟨op', hop', hbare, -⟩ := h
  rw [Option.some.inj (hop.symm.trans hop'), OpKind.fixedIndex?_eq_of_bare_eq hbare, hk]

end Primary

/-- A value that no accessor makes is reached from itself only. -/
theorem At.eq_of_primary (h : b.At a p v) (hb : b.Coherent) (hv : b.Primary v) : a = v ∧ p = [] := by
  cases h with
  | self => exact ⟨rfl, rfl⟩
  | part _ hw =>
    obtain ⟨z, kind, hfix, hmk⟩ := hw.made
    have hr := hmk.origin? hb (i := 0) rfl
    obtain ⟨op, hop, hbare, -⟩ := hmk
    rw [← OpKind.fixedIndex?_eq_of_bare_eq hbare, hv _ _ _ hr hop] at hfix
    cases hfix

/-- A value is reached from at most one such value, and along one path. -/
theorem At.unique_of_primary (h : b.At a p u) (h' : b.At v q u) (hb : b.Coherent) (ha : b.Primary a) (hv : b.Primary v) :
    a = v ∧ p = q := by
  induction h generalizing q with
  | self =>
    obtain ⟨rfl, rfl⟩ := h'.eq_of_primary hb ha
    exact ⟨rfl, rfl⟩
  | @part p u w i hat hw ih =>
    generalize hy : w = y at h'
    cases h' with
    | self =>
      subst hy
      exact absurd ((At.part hat hw).eq_of_primary hb hv).2 (by simp)
    | @part q' u' w' i' hat' hw' =>
      subst hy
      obtain ⟨z, kind, hfix, hmk⟩ := hw.made
      obtain ⟨z', kind', hfix', hmk'⟩ := hw'.made
      obtain ⟨-, hbare, hops⟩ := hmk.unique hmk' hb
      obtain rfl : u = u' := by simpa using hops
      rw [OpKind.fixedIndex?_eq_of_bare_eq hbare, hfix', Option.some.injEq] at hfix
      obtain ⟨rfl, rfl⟩ := ih hat'
      rw [hfix]
      exact ⟨rfl, rfl⟩

/-- What is reached from a value that nothing reads is this value. -/
theorem At.eq_of_unread (h : b.At a p u) (hu : ∀ x, ¬b.Reads x a) : u = a := by
  induction h with
  | self => rfl
  | part _ hw ih =>
    obtain ⟨z, kind, -, hmk⟩ := hw.made
    exact absurd (hmk.reads.2 (by simp [ih])) (hu z)

/-- Ways to what is still read outlive an operation that is erased. -/
theorem At.erased_of_reads (h : b.At a p u) (hb : b.Coherent) (he : Erased b x b') (hu : b.Reads y u) : b'.At a p u := by
  induction h generalizing y with
  | self => exact .self
  | part _ hw ih =>
    obtain ⟨⟨z, kind, hfix, hmk⟩, t, c, ht, hc, hw⟩ := hw
    have hz : z ≠ x := by
      rintro rfl
      exact he.not_reads hb (hmk.origin? hb (i := 0) rfl) hu
    refine .part (ih (hmk.reads.2 (List.mem_singleton_self _))) ⟨⟨z, kind, hfix, hmk.erased he hz⟩, t, c, ?_, hc, ?_⟩
    · rw [he.outlives.ty?, ht]
    · rw [he.outlives.ty?, hw]

/-- A value that no accessor makes gives way to one of its type. -/
theorem At.replaced (h : b.At a p u) (hb : b.Coherent) (hr : Replaced b v w b') (hv : b.Primary v)
    (hty : b.ty? w = b.ty? v) : b'.At (if a = v then w else a) p (if u = v then w else u) := by
  induction h with
  | self => exact .self
  | @part p u y i _ hw ih =>
    have hne : y ≠ v := by
      rintro rfl
      exact absurd ((At.part .self hw).eq_of_primary hb hv).2 (by simp)
    obtain ⟨⟨z, kind, hfix, hmk⟩, t, c, ht, hc, hy⟩ := hw
    rw [if_neg hne]
    refine .part ih ⟨⟨z, kind, hfix, by simpa using hmk.replaced hr⟩, t, c, ?_, hc, ?_⟩
    · rw [hr.outlives.ty?]
      split
      next he => rw [hty, ← he, ht]
      next => exact ht
    · rw [hr.outlives.ty?, hy]

namespace Hands

/-- A value gives way to one that stands for the same nodes. -/
theorem replaced (hb : b.Coherent) (hr : Replaced b v w b') (hv : b.Primary v) (hty : b.ty? w = b.ty? v)
    (hR : ∀ {a k p}, R a k p → R' (if a = v then w else a) k p) : Hands R b R' b' where
  stands _ hs := by rwa [hr.stands] at hs
  slot _ hu hd := by
    obtain ⟨a, p₀, p, ha, hat, hq⟩ := hd
    exact ⟨_, hu.replaced hr, _, p₀, p, hR ha, hat.replaced hb hr hv hty, hq⟩

/-- An operation is erased, and what it made may stand for nothing any more. -/
theorem erased (hb : b.Coherent) (he : Erased b x b')
    (hR : ∀ {a k p}, R a k p → (∀ i, b.origin? a ≠ some (.result x i)) → R' a k p) : Hands R b R' b' where
  stands {y op} hy hs := by
    rw [stands_eq, he.op?, hy] at hs
    rw [stands_eq, hy]
    by_cases hyx : y = x
    · simp [hyx] at hs
    · simpa [hyx] using hs
  slot {y j u k q} hs hu hd := by
    obtain ⟨a, p₀, p, ha, hat, hq⟩ := hd
    have hne : y ≠ x := by
      rintro rfl
      obtain ⟨op, hop, -⟩ := hu
      simp [stands_eq, he.op?, hop] at hs
    refine ⟨u, hu.erased he hne, a, p₀, p, hR ha fun i hi => ?_, hat.erased_of_reads hb he hu.reads, hq⟩
    -- what the operation made is read by nothing, and leads nowhere
    have hua : u = a := hat.eq_of_unread fun y => he.not_reads hb hi
    exact he.not_reads hb hi (hua ▸ hu.reads)

end Hands

/-! ## Values of parts -/

/-- Values, among them `old`, of type `t`, and those of its parts, stand for nodes. -/
structure Portioned (R : ValueId → ι → List Nat → Prop) (old : ValueId) (t : Ty) (values : List ValueId) (b : Body) :
    Prop where
  primary : ∀ {a k p}, R a k p → b.Primary a
  whole : b.Primary old
  ty? : b.ty? old = some t
  fresh : ∀ {w}, w ∈ values → (b.value? w).isSome ∧ w ≠ old ∧ b.Primary w
  types : ∀ {i w c}, values[i]? = some w → t.child? i = some c → b.ty? w = some c
  parts : ∀ {k p i w}, R old k p → values[i]? = some w → R w k (p ++ [i])

theorem Portioned.outlives {t : Ty} {values : List ValueId} (h : Portioned R old t values b) (ho : Outlives b b') :
    Portioned R old t values b' where
  primary ha := (h.primary ha).outlives ho
  whole := h.whole.outlives ho
  ty? := by rw [ho.ty?, h.ty?]
  fresh hw := ⟨by rw [ho.isSome_value?]; exact (h.fresh hw).1, (h.fresh hw).2.1, (h.fresh hw).2.2.outlives ho⟩
  types hw hc := by rw [ho.ty?, h.types hw hc]
  parts := h.parts

namespace GivesWay

variable {t : Ty} {values : List ValueId} {part : ValueId}

/-- What stands for a node does so once accessor `y`, which reaches part `i`, gave way; what `y` made gives way to the
value of this part. -/
theorem denotes (hs : Portioned R old t values b) (hb : b.Coherent) (hy : b.op? y = some op) (hold : old ∈ op.operands)
    (hfix : op.kind.fixedIndex? = some i) (hr : op.results[0]? = some r) (hpart : values[i]? = some part)
    (hrep : Replaced b r part b₁) (he : Erased b₁ y b') (ha : R a k q) (h : b.At a p u) :
    b'.Denotes R (if u = r then part else u) k (q ++ p) ∧ b'.ty? (if u = r then part else u) = b.ty? u := by
  have hor : b.origin? r = some (.result y 0) := hb.result hy hr
  have hne : ∀ {v}, b.Primary v → v ≠ r := by
    rintro v hv rfl
    rw [hv _ _ _ hor hy] at hfix
    cases hfix
  have hty : ∀ v, b'.ty? v = b.ty? v := fun v => by rw [he.outlives.ty?, hrep.outlives.ty?]
  induction h with
  | self =>
    rw [if_neg (hne (hs.primary ha))]
    exact ⟨⟨a, q, [], ha, .self, rfl⟩, hty a⟩
  | @part p u w i' hat hw ih =>
    obtain ⟨⟨z, kind, hfix', hmk⟩, tu, c, htu, hc, htw⟩ := hw
    have hzw := hmk.origin? hb (i := 0) rfl
    by_cases hwr : w = r
    · -- the accessor is `y` itself, so it reads the whole
      subst hwr
      obtain ⟨rfl, -⟩ := Origin.result.inj (Option.some.inj (hzw.symm.trans hor))
      obtain ⟨op', hop', hbare, hops, -⟩ := hmk
      obtain rfl := Option.some.inj (hy.symm.trans hop')
      obtain rfl : old = u := by simpa [hops] using hold
      rw [← OpKind.fixedIndex?_eq_of_bare_eq hbare, hfix, Option.some.injEq] at hfix'
      subst hfix'
      obtain ⟨rfl, rfl⟩ := hat.eq_of_primary hb hs.whole
      obtain rfl := Option.some.inj (hs.ty?.symm.trans htu)
      rw [if_pos rfl]
      exact ⟨⟨part, q ++ [i], [], hs.parts ha hpart, .self, by simp⟩, by rw [hty, hs.types hpart hc, htw]⟩
    · have hzy : z ≠ y := by
        rintro rfl
        obtain ⟨op', hop', -, -, hres, -⟩ := hmk
        obtain rfl := Option.some.inj (hy.symm.trans hop')
        exact hwr (by simpa [hres] using hr)
      obtain ⟨⟨a', q', p', ha', hat', hpath⟩, htu'⟩ := ih
      rw [if_neg hwr]
      refine ⟨⟨a', q', p' ++ [i'], ha', .part hat' ⟨⟨z, kind, hfix', ?_⟩, tu, c, ?_, hc, ?_⟩, ?_⟩, hty w⟩
      · exact (hmk.replaced hrep).erased he hzy
      · rw [htu', htu]
      · rw [hty, htw]
      · rw [← List.append_assoc, hpath, List.append_assoc]

/-- One reader of a value gives way to the value of a part. -/
theorem hands (h : GivesWay b old values y b') (hs : Portioned R old t values b) (hb : b.Coherent) : Hands R b R b' := by
  obtain ⟨op, i, r, part, b₁, hop, hold, hfix, hr, hpart, hrep, he⟩ := h.way
  have hstands : ∀ {x}, b'.stands x → x ≠ y ∧ b.stands x := fun {x} hx => by
    rw [stands_eq, he.op?] at hx
    have hxy : x ≠ y := by
      rintro rfl
      cases hop₁ : b₁.op? x <;> simp [hop₁] at hx
    refine ⟨hxy, ?_⟩
    rw [← hrep.stands, stands_eq]
    simpa [hxy] using hx
  exact {
    stands := fun _ hx => (hstands hx).2
    slot := fun {x j u k q} hx hu ⟨a, p₀, p, ha, hat, hq⟩ => by
      subst hq
      exact ⟨_, (hu.replaced hrep).erased he (hstands hx).1, (denotes hs hb hop hold hfix hr hpart hrep he ha hat).1⟩ }

end GivesWay

/-- The readers of a value give way to the values of its parts. -/
theorem rewire_hands {t : Ty} {values : List ValueId} (hs : Portioned R old t values b) (hb : b.Coherent) :
    Ends False (b.rewire old values) fun b' =>
      Rearranged b b' ∧ Outlives b b' ∧ Hands R b R b' ∧ ∀ x, ¬b'.Reads x old := by
  have hsome : ∀ {c}, b.ty? old = some c → (b.value? old).isSome := fun h => isSome_value?.2 (lt_of_ty? h)
  refine (rewire_ends (J := fun b₂ => Rearranged b b₂ ∧ Outlives b b₂ ∧ Hands R b R b₂) (fun _ h => h.1.coherent)
    ⟨.refl hb, .refl b, .refl R b⟩ (hsome hs.ty?) (fun w hw => ⟨(hs.fresh hw).1, (hs.fresh hw).2.1⟩)
    (fun d i op hd hop => hs.whole d i op hd hop) (fun x op r _ hop hfix hr w hw hrw => ?_)
    (fun {b₂ b₃ y} ⟨hb₂, hout, hh⟩ _ _ _ hway => ?_) (nofun : False → _)).mono
    fun b₂ ⟨⟨hb₂, hout, hh⟩, _, hunread⟩ => ⟨hb₂, hout, hh, hunread⟩
  · subst hrw
    rw [(hs.fresh hw).2.2 _ _ _ (hb.result hop hr) hop] at hfix
    cases hfix
  · obtain ⟨op, i, r, part, b₂', hop, -, hfix, hr, hpart, hrep, he⟩ := hway.way
    have hor := hb₂.coherent.result hop hr
    obtain ⟨hsomep, -, hprimary⟩ := hs.fresh (List.mem_of_getElem? hpart)
    have hne : r ≠ part := by
      rintro rfl
      rw [hprimary.outlives hout _ _ _ hor hop] at hfix
      cases hfix
    have hsomep' : (b₂.value? part).isSome := by rwa [hout.isSome_value?]
    have hcoh := hb₂.coherent.replaced hrep (isSome_of_origin? hor) hsomep' hne
    have hacc : ∀ op', b₂'.op? y = some op' → op'.kind.isAccessor = true := fun op' hop' => by
      rw [hrep.op?, hop] at hop'
      rw [← Option.some.inj hop']
      cases hk : op.kind <;> rw [hk] at hfix <;> first | rfl | cases hfix
    refine ⟨(hb₂.trans (.replaced hrep hcoh)).trans (.dropped he.dropped (he.coherent hcoh) hacc),
      (hout.trans hrep.outlives).trans he.outlives, ?_⟩
    refine hh.trans (hway.hands (hs.outlives hout) hb₂.coherent) fun hx => ?_
    obtain ⟨op, hop⟩ := Option.isSome_iff_exists.1 hx
    obtain ⟨op', hop', -⟩ := hout.op?_some hop
    rw [hop']
    rfl

/-! ## Arguments -/

/-- An argument gives way to those of its parts: meanwhile values stand for nodes as `Q` says. -/
theorem splitArgument_hands {S T : List Ty} {t : Ty} {ps : List Part} {N : Body → ValueId → ι → List Nat → Prop}
    (hb : b.Coherent) (hargs : b.Types b.args (S ++ t :: T))
    (hQ : ∀ {A old values B b₁}, Widened b S t T (ps.map (·.ty)) A old values B b₁ →
      ∃ Q : ValueId → ι → List Nat → Prop, Portioned Q old t values b₁ ∧ (∀ {a k p}, R a k p → Q a k p) ∧
        ∀ {b₃ : Body}, b₃.args = A ++ values ++ B → ∀ {a k p}, a ≠ old → Q a k p → N b₃ a k p) :
    Ends False (b.splitArgument S.length (ps.map (·.ty))) fun b' =>
      b'.Types b'.args (S ++ ps.map (·.ty) ++ T) ∧ Hands R b (N b') b' := by
  refine hb.splitArgument_ends hargs _ fun {A old values B b₁} hw => ?_
  obtain ⟨Q, hportioned, hstart, hend⟩ := hQ hw
  refine (rewire_hands hportioned hw.coherent).mono fun b₂ ⟨hre, hout, hh, hunread⟩ =>
    ⟨hout.args, fun {b₃} hr₃ _ hargs₃ => ⟨hw.narrowed (fun {v u} hv => (hout.ty? v).trans hv) hr₃ hargs₃, ?_⟩⟩
  have hlast : Hands Q b₂ (N b₃) b₃ := .grown hr₃.toExtends fun {x j u a k p₀ p} hu hat ha => by
    refine hend hargs₃ ?_ ha
    rintro rfl
    exact hunread x (hat.eq_of_unread hunread ▸ hu.reads)
  refine ((Hands.grown hw.reargs.toExtends fun _ _ => hstart).trans hh fun hx => ?_).trans hlast fun hx => ?_
  · rwa [hw.reargs.op?]
  · rw [← hw.reargs.op?] at hx
    obtain ⟨op, hop⟩ := Option.isSome_iff_exists.1 hx
    obtain ⟨op', hop', -⟩ := hre.op? hop
    rw [hop']
    rfl

end Scalarize.Body
