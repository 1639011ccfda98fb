import Scalarize.Proofs.Body.Rewiring
import Scalarize.Proofs.InFront
import Scalarize.Proofs.Meaning.Drafts

/-!
# Operations that give way

* `Contributes` : effects of new operations, whatever else is edited without effects;
* `Interpreted.rewired` : the readers of a split value give way to its parts;
* `Due`, `Supplants` : an operation is reached, and operations with its effects stand in front of it;
* `Supplants.erased` : once it is erased, the body has the effects that it had.
-/

namespace Scalarize

open Body

variable {I : Interpretation} {idle : OpId → Prop} {P Q : List OpId} {S S' : ValueId → Sense} {b b' b₀ : Body}
  {o x : OpId} {op : Operation} {k t : BlockId} {A B H N : List OpId} {v w : ValueId} {E E' : List Effect}

/-! ## What new operations contribute -/

namespace Body

theorem Silent.effectsAt_eq (h : Silent idle b S b' S') (hact : b.Active idle x op) (hk : op.kind.blocks = []) :
    b'.effectsAt S' x = b.effectsBy S x := by
  obtain ⟨op', hop', ⟨he, hbare, hown, -⟩ | ⟨he, -, hown⟩⟩ := h.stay hact
  · have hbelow := effectsBelow_eq_nil (S := S') hop' ((OpKind.blocks_eq_of_bare_eq hbare).trans hk)
    simp [effectsAt, stands_eq, hop', he, hown, hbelow]
  · simp [effectsAt, stands_eq, hop', he, hown]

/-- Slots of block `k` have these effects, whatever else is edited without effects. -/
def Contributes (idle : OpId → Prop) (b : Body) (S : ValueId → Sense) (k : BlockId) (H : List OpId)
    (E : List Effect) : Prop :=
  ∀ b' S', Silent idle b S b' S' → b'.Coherent →
    (∀ k' ≠ k, (b.block? k').isSome → b'.slotsOf k' = b.slotsOf k') → H.flatMap (b'.effectsAt S') = E

namespace Contributes

theorem nil : Contributes idle b S k [] [] := fun _ _ _ _ _ => rfl

theorem append (h : Contributes idle b S k H E) (h' : Contributes idle b S k N E') :
    Contributes idle b S k (H ++ N) (E ++ E') := fun b' S' hq hb hs => by
  rw [List.flatMap_append, h b' S' hq hb hs, h' b' S' hq hb hs]

theorem silent (h : Contributes idle b S k H E) (hq : Silent idle b S b' S')
    (hs : ∀ k' ≠ k, (b.block? k').isSome → (b'.block? k').isSome ∧ b'.slotsOf k' = b.slotsOf k') :
    Contributes idle b' S' k H E := fun _ _ hq' hb' hs' => h _ _ (hq.trans hq') hb' fun k' hne hk' =>
  (hs' k' hne (hs k' hne hk').1).trans (hs k' hne hk').2

/-- Operations without blocks. -/
theorem plain (h : ∀ x ∈ H, ∃ op, b.Active idle x op ∧ op.kind.blocks = []) :
    Contributes idle b S k H (H.flatMap (b.effectsBy S)) := fun _ _ hq _ _ =>
  List.flatMap_congr fun x hx =>
    let ⟨_, hact, hk⟩ := h x hx
    hq.effectsAt_eq hact hk

/-- A guard of operations without blocks. -/
theorem guard {w : OpId} (hact : b.Active idle w op) (hkind : op.kind = .when t none) (ht : t ≠ k)
    (hsome : (b.block? t).isSome) (h : ∀ x ∈ b.slotsOf t, ∃ op, b.Active idle x op ∧ op.kind.blocks = []) :
    Contributes idle b S k [w] (Effect.sieve (b.holds S w) ((b.slotsOf t).flatMap (b.effectsBy S))) :=
  fun b' S' hq hb' hs => by
  have hnone : ∀ {b : Body} {S op'}, b.op? w = some op' → op'.kind = .when t none → b.effectsBy S w = [] := by
    intro b S op' hop' hk'
    rw [effectsBy_eq hop', hk']
    rfl
  have hin : b'.effectsIn S' t = (b.slotsOf t).flatMap (b.effectsBy S) := by
    rw [hb'.effectsIn_slots, hs t ht hsome]
    exact Contributes.plain (k := k) h _ _ hq hb' hs
  obtain ⟨op', hop', ⟨he, hbare, -, hruns⟩ | ⟨-, hblocks, -⟩⟩ := hq.stay hact
  · have hk' := (OpKind.eq_iff_of_bare_eq hbare rfl).2 hkind
    have hbelow : b'.effectsBelow S' w = Effect.sieve (b'.holds S' w) (b'.effectsIn S' t) := by
      unfold effectsBelow
      rw [kind?_eq, hop', Option.map_some, hk']
      simp
    rw [List.flatMap_singleton, ← hin, ← hruns, ← hbelow, effectsAt, hnone hop' hk']
    simp [stands_eq, hop', he]
  · rw [hkind] at hblocks
    cases hblocks

end Contributes

/-! ## Readers of split values -/

/-- The value has the type and the sense of a part of `r`, and no accessor makes it. -/
structure PartValue (idle : OpId → Prop) (b : Body) (S : ValueId → Sense) (r v : ValueId) (p : Part) : Prop where
  ty? : b.ty? v = some p.ty
  sense : S v = (S r).part p.index
  rooted : b.Rooted idle v
  ne : v ≠ r

variable {r part : ValueId} {ty : Ty} {ps : List Part} {vs : List ValueId} {u : OpId} {i : Nat}

/-- What an accessor at a fixed position reaches gives way to the part of this position. -/
theorem Interpreted.cedes (h : b.Interpreted I idle Q S) (hr : b.ty? r = some ty) (hps : ty.PartsOf ps)
    (hvs : List.Forall₂ (b.PartValue idle S r) vs ps) (hop : b.op? u = some op) (hmem : r ∈ op.operands)
    (hfix : op.kind.fixedIndex? = some i) (hw : op.results[0]? = some w) (hpart : vs[i]? = some part)
    (hunread : u ∈ Q → ¬b.Active idle u op) : b.Cedes idle Q S w part := by
  have horigin := h.coherent.result hop hw
  have hacc := OpKind.isAccessor_of_fixedIndex? hfix
  have hreach : ∀ ins, op.kind.reach? ins = some i := fun ins => by
    cases hk : op.kind <;> rw [hk] at hfix <;> cases hfix <;> rfl
  obtain ⟨p, hp, hpv⟩ : ∃ p, ps[i]? = some p ∧ b.PartValue idle S r part p := by
    obtain ⟨hlt, rfl⟩ := List.getElem?_eq_some_iff.1 hpart
    have hlt' : i < ps.length := hvs.length_eq ▸ hlt
    exact ⟨ps[i], List.getElem?_eq_getElem hlt', by simpa using hvs.get hlt hlt'⟩
  have hindex := hps.index hp
  have howns : ∀ {x j}, b.origin? w = some (.result x j) → x = u ∧ j = 0 := fun hx => by
    simpa [eq_comm] using horigin.symm.trans hx
  -- an accessor that counts reads `r` only
  have hreads : b.Active idle u op → op.operands = [r] := fun hact => by
    obtain ⟨ins, outs, hins, -, hfits, -⟩ := (h.heeds hact).typed
    obtain ⟨t, c, rfl, -, -⟩ : ∃ t c, ins = [t] ∧ t.child? i = some c ∧ outs = [c] := by
      cases hk : op.kind <;> rw [hk] at hfix hfits <;> cases hfix <;> exact hfits
    obtain ⟨v, -, hv⟩ := hins.singleton
    rw [hv, List.mem_singleton] at hmem
    rw [hv, hmem]
  refine
    { ne := ?_, known := ⟨?_, ?_⟩, literal := ?_, owned := fun hw' => ?_, straight := fun hs => ?_ }
  · rintro rfl
    rw [hpv.rooted.not_accessor horigin hop] at hacc
    cases hacc
  · exact isSome_of_origin? horigin
  · exact isSome_value?.2 hpv.rooted.owned.lt
  · rintro n ⟨d, j, opd, hd, hopd, hk⟩
    obtain ⟨rfl, rfl⟩ := howns hd
    rw [Option.some.inj (hop.symm.trans hopd), hk] at hacc
    cases hacc
  · rcases hw' with harg | ⟨x, j, opx, hx, hact⟩
    · rw [harg] at horigin
      cases horigin
    obtain ⟨rfl, rfl⟩ := howns hx
    obtain rfl := Option.some.inj (hop.symm.trans hact.op?)
    obtain ⟨ins, outs, hins, houts, hfits, -⟩ := (h.heeds hact).typed
    have hty : b.ty? w = ty.child? i := Fitted.ty?_part ⟨ins, outs, hins, houts, hfits⟩ hfix hmem hr hw
    refine ⟨hpv.rooted.owned, ?_, by rw [hty, hps.child hp, hpv.ty?], ?_⟩
    · rintro (harg | ⟨d, hd, j, hd'⟩)
      · rw [harg] at horigin
        cases horigin
      · obtain ⟨rfl, -⟩ := howns hd'
        exact hunread hd hact
    · have hs : b.sense I S op.kind op.operands (b.tyOf w) = some ((S r).part i) := by
        unfold Body.sense
        rw [hreach, hreads hact]
        rfl
      rw [hpv.sense, hindex, (h.heeds hact).bits hw hs]
  · refine ⟨hpv.rooted.straight, ?_⟩
    obtain ⟨F, hF, hd⟩ := hs
    obtain ⟨op', hact⟩ := hd.active hF horigin
    obtain rfl := Option.some.inj (hop.symm.trans hact.op?)
    obtain ⟨v, j, hv, -, hj, hplace, -⟩ := hd.access hF horigin hact hacc
    rw [hreads hact] at hv
    obtain rfl : r = v := by simpa using hv
    obtain rfl : i = j := Option.some.inj ((hreach _).symm.trans hj)
    rw [hplace, hpv.sense, hindex]

/-- The readers of a split value give way to its parts. -/
theorem Interpreted.rewired (h : b.Interpreted I idle Q S) (hr : b.ty? r = some ty) (hps : ty.PartsOf ps)
    (hvs : List.Forall₂ (b.PartValue idle S r) vs ps)
    (hown : ∀ d i op, b.origin? r = some (.result d i) → b.op? d = some op → op.kind.fixedIndex? = none)
    (hunread : ∀ x ∈ Q, ∀ op, b.Active idle x op → r ∉ op.operands) :
    Ends False (b.rewire r vs) fun b' => b'.Interpreted I idle Q S ∧ Silent idle b S b' S ∧ Outlives b b' ∧
      ∀ v, b.Rooted idle v → b'.Rooted idle v := by
  have hpart : ∀ {v}, v ∈ vs → ∃ p, b.PartValue idle S r v p := fun hv =>
    let ⟨p, _, h⟩ := exists_of_forall₂ hvs.flip hv
    ⟨p, h⟩
  have hne : ∀ {b₁ : Body} {u op w}, b₁.op? u = some op → op.kind.isAccessor = true → op.results[0]? = some w →
      b₁.Coherent → ∀ part, b₁.Rooted idle part → w ≠ part := by
    rintro b₁ u op w hop hacc hw hb₁ part hpart rfl
    rw [hpart.not_accessor (hb₁.result hop hw) hop] at hacc
    cases hacc
  refine (rewire_ends (J := fun b₁ => b₁.Interpreted I idle Q S ∧ Silent idle b S b₁ S ∧
    ∀ v, b.Rooted idle v → b₁.Rooted idle v) (fun _ hJ => hJ.1.coherent) ⟨h, .refl _ _ _, fun _ => id⟩
    (isSome_value?.2 (isSome_ty?.1 (by rw [hr]; rfl))) (fun part hp => ?_) hown (fun u op w _ hop hfix hw part hp => ?_)
    (fun {b₁ b₂ u} hJ hout hu hu₀ hway => ?_) nofun).mono fun b' ⟨⟨h', hq, hrooted⟩, hout, _⟩ => ⟨h', hq, hout, hrooted⟩
  · obtain ⟨p, hpv⟩ := hpart hp
    exact ⟨isSome_value?.2 hpv.rooted.owned.lt, hpv.ne⟩
  · obtain ⟨i, hi⟩ := Option.isSome_iff_exists.1 hfix
    obtain ⟨p, hpv⟩ := hpart hp
    exact hne hop (OpKind.isAccessor_of_fixedIndex? hi) hw h.coherent part hpv.rooted
  obtain ⟨h₁, hq₁, hrooted⟩ := hJ
  have hvs₁ : List.Forall₂ (b₁.PartValue idle S r) vs ps := hvs.imp fun v p hpv =>
    ⟨(hout.ty? v).trans hpv.ty?, hpv.sense, hrooted v hpv.rooted, hpv.ne⟩
  obtain ⟨op, i, w, part, b₁', hop, hmem, hfix, hw, hpart', hrep, herase⟩ := hway.way
  have hacc := OpKind.isAccessor_of_fixedIndex? hfix
  -- what is pending does not read the value
  have hpending : u ∈ Q → ¬b₁.Active idle u op := fun hu hact => by
    obtain ⟨op₀, hop₀, hmem₀⟩ := hu₀
    exact hunread u hu op₀ ⟨hop₀, not_erased_of_reads h.coherent hop₀ hmem₀, hact.busy⟩ hmem₀
  have hy := h₁.cedes ((hout.ty? r).trans hr) hps hvs₁ hop hmem hfix hw hpart' hpending
  have hty : ∀ {x opx}, b₁.Active idle x opx → w ∈ opx.operands → b₁.ty? part = b₁.ty? w := fun hx hmem =>
    (hy.owned (h₁.scope hx hmem)).2.2.1
  obtain ⟨h₂, hq₂⟩ := h₁.replaced hrep hy
  have hspare : b₁'.Spare idle (fun _ => true) u := .inr ⟨rfl, herase.unread⟩
  have hplain : ∀ op', b₁'.op? u = some op' → op'.kind.blocks = [] ∧ b₁'.effectsBy S u = [] := fun op' hop' => by
    obtain rfl := Option.some.inj ((hrep.op?_some hop).symm.trans hop')
    refine ⟨OpKind.blocks_of_isAccessor hacc, ?_⟩
    rw [effectsBy_eq hop']
    cases hk : op.kind <;> rw [hk] at hacc <;> first | rfl | cases hacc
  refine ⟨h₂.dropped rfl herase.dropped hspare fun op' hop' => (hplain op' hop').1,
    (hq₁.trans hq₂).trans (Silent.dropped rfl herase.dropped hspare fun _ op' hop' => hplain op' hop'),
    fun v hv => ((hrooted v hv).replaced hrep hty).dropped rfl herase.dropped hspare fun j hj => ?_⟩
  rw [hrep.outlives.origin?] at hj
  rw [(hrooted v hv).not_accessor hj hop] at hacc
  cases hacc

end Body

/-! ## Places -/

/-- Operations are made between `A` and `B`, behind operations `H`, which unfold to `N`. -/
def MadeInFront (b₀ : Body) (k : BlockId) (A B H N M : List OpId) (s : Builder) : Prop :=
  InFront b₀ k A B (H ++ M) (N ++ M) s

instance : Site (MadeInFront b₀ k A B H N) where
  created {M s kind vs tys x b} h hb _ hc := by
    have hfront := InFront.created h hb hc
    unfold MadeInFront Builder.after
    rw [← List.append_assoc, ← List.append_assoc, h.point]
    rwa [← List.append_assoc A, List.length_append] at hfront
  declared f h := InFront.declared h f

/-- Operations are made in block `t`, which `w` guards, behind the operations `H` and `w`. -/
def MadeInGuard (b₀ : Body) (k : BlockId) (A B H : List OpId) (w : OpId) (t : BlockId) (N M : List OpId)
    (s : Builder) : Prop :=
  InGuard b₀ k A B H w t N M M s ∧ (N ++ w :: M).Nodup

instance {w : OpId} : Site (MadeInGuard b₀ k A B H w t N) where
  created {M s kind vs tys x b} h hb _ hc := by
    obtain ⟨h, hnd⟩ := h
    have hguard := h.created hb hnd hc
    refine ⟨?_, ?_⟩
    · unfold Builder.after
      rw [h.point]
      rwa [List.length_append] at hguard
    · rw [← List.cons_append, ← List.append_assoc, List.nodup_append]
      refine ⟨hnd, List.nodup_singleton x, fun y hy z hz => ?_⟩
      rintro rfl
      have := h.outer.known y hy
      rw [List.mem_singleton.1 hz] at this
      change (s.body.op? x).isSome at this
      rw [hc.fresh] at this
      cases this
  declared f h := ⟨h.1.declared f, h.2⟩

/-! ## Operations that are reached -/

/-- The last pending operation, in block `k` between `A` and `B`, is reached. -/
structure Due (I : Interpretation) (idle : OpId → Prop) (P : List OpId) (S : ValueId → Sense) (o : OpId)
    (op : Operation) (k : BlockId) (A B : List OpId) (s : Builder) : Prop where
  interpreted : s.body.Interpreted I idle (P ++ [o]) S
  busy : ∀ x, s.body.Walked x → ¬idle x
  active : s.body.Active idle o op
  plain : op.kind.blocks = []
  new : o ∉ P
  slots : s.body.slotsOf k = A ++ o :: B
  point : s.point = ⟨k, A.length⟩

/-- Since `b`, operations `H` were made in front of `o`, which unfold to `N` and have the effects of `o`. Nothing
else has changed its effects. -/
structure Supplants (I : Interpretation) (idle : OpId → Prop) (b : Body) (P : List OpId) (S : ValueId → Sense)
    (o : OpId) (k : BlockId) (A B H N : List OpId) (S' : ValueId → Sense) (s : Builder) : Prop where
  front : InFront b k A (o :: B) H N s
  interpreted : ∃ idle', (∀ x, idle x → idle' x) ∧ (∀ x, idle' x → idle x ∨ x = o) ∧
    s.body.Interpreted I idle' (P ++ N) S'
  silent : Silent (fun x => idle x ∨ x = o) b S s.body S'
  senses : ∀ v : ValueId, v.index < b.values.size → S' v = S v
  contributes : Contributes (fun x => idle x ∨ x = o) s.body S' k H (b.effectsBy S o)

/-- Once the operation is erased, the body has the effects that it had. -/
theorem Supplants.erased {s₀ s : Builder} (h : Supplants I idle s₀.body P S o k A B H N S' s)
    (hd : Due I idle P S o op k A B s₀) (he : Erased s.body o b') :
    b'.Interpreted I idle (P ++ N) S' ∧ b'.effects S' = s₀.body.effects S := by
  obtain ⟨idle', hidle, hidle', hi⟩ := h.interpreted
  have hlocal := h.front.untouched
  have hout := he.outlives
  obtain ⟨op', hop', hbare, -⟩ := hlocal.op? hd.active.op?
  have hi' := hi.dropped rfl he.dropped (.inr ⟨rfl, he.unread⟩) fun op₁ hop₁ => by
    rw [Option.some.inj (hop₁.symm.trans hop'), OpKind.blocks_eq_of_bare_eq hbare, hd.plain]
  have hq : Silent (fun x => idle x ∨ x = o) s.body S' b' S' :=
    Silent.dropped rfl he.dropped (.inl (.inr rfl)) fun hne => absurd (.inr rfl) hne
  have hgone : ∀ {op}, b'.op? o = some op → op.erased := fun hop => by
    rw [he.op?] at hop
    obtain ⟨op₁, -, rfl⟩ := Option.map_eq_some_iff.1 hop
    rw [if_pos rfl]
  refine ⟨hi'.reidle (fun {x op} hx => ⟨hx.op?, hx.erased, fun hx' => ?_⟩)
    (fun hx _ => ⟨hx.op?, hx.erased, fun hx' => hx.busy (hidle _ hx')⟩) fun x hx => ?_, ?_⟩
  · rcases hidle' x hx' with hx' | rfl
    · exact hx.busy hx'
    · have := hgone hx.op?
      rw [hx.erased] at this
      cases this
  · exact (hout.local [] []).isSome (hlocal.isSome (hd.interpreted.present (.inr hx)))
  · have hsame : ∀ v ∈ s₀.body.args, b'.holding S' .port v = s₀.body.holding S .port v := fun v hv => by
      have hlt := hd.interpreted.coherent.lt_of_arg hv
      refine holding_congr ?_ (h.senses v hlt) _
      rw [hout.ty?]
      obtain ⟨t, ht⟩ := Option.isSome_iff_exists.1 (isSome_ty?.2 hlt)
      rw [hlocal.ty? ht, ht]
    unfold effects
    rw [hout.args, hlocal.args, List.flatMap_congr hsame]
    congr 1
    obtain ⟨blk, hblk, -⟩ := hd.interpreted.coherent.entry
    refine (h.silent.trans hq).effectsIn_eq (H := H) hd.interpreted.coherent hi'.coherent hd.busy hd.active.op? hd.plain
      hd.active.erased hd.slots ?_ (fun {k'} hne hk' => ?_) ?_ ?_ (.inl rfl) (by rw [hblk]; rfl)
    · rw [hout.slotsOf, h.front.slots]
    · obtain ⟨blk', hblk'⟩ := Option.isSome_iff_exists.1 hk'
      rw [hout.slotsOf, hlocal.slotsOf hblk' (by simpa using hne) (by simp)]
    · obtain ⟨op₁, hop₁, -⟩ := hout.op?_some hop'
      simp [stands_eq, hop₁, hgone hop₁]
    · exact h.contributes _ _ hq hi'.coherent fun k' _ _ => hout.slotsOf k'

namespace Due

variable {s : Builder}

/-- Operations may be made in front of an operation other than a connection. -/
def draft (h : Due I idle P S o op k A B s) (hc : ∀ strict, op.kind ≠ .connect strict) :
    Draft I idle (MadeInFront s.body k A (o :: B) [] []) P where
  builder := s
  made := []
  senses := S
  site := by
    obtain ⟨blk, hblk⟩ := exists_block_of_mem_slotsOf (o := o) (b := s.body) (k := k) (by simp [h.slots])
    exact InFront.start h.interpreted.coherent h.slots (by rw [hblk]; rfl) h.point
  exposed := by
    rw [h.point]
    exact (h.interpreted.walked h.active).exposed h.interpreted.coherent (by simp [h.slots])
  interpreted := by
    rw [List.append_nil]
    refine h.interpreted.retire fun {x op'} hx hact strict hk => ?_
    obtain rfl := List.mem_singleton.1 hx
    exact absurd (Option.some.inj (hact.op?.symm.trans h.active.op?) ▸ hk) (hc strict)

theorem expects (h : Due I idle P S o op k A B s) : s.body.Expects I idle S P op :=
  h.interpreted.pending rfl h.active

theorem heeds (h : Due I idle P S o op k A B s) : s.body.Heeds I S op := h.interpreted.heeds h.active

/-- What the operation reads is at hand. -/
theorem has (h : Due I idle P S o op k A B s) (hc : ∀ strict, op.kind ≠ .connect strict) {ty : Ty}
    (hv : v ∈ op.operands) (ht : s.body.ty? v = some ty) : (h.draft hc).Has v ty (S v) where
  made := by
    change s.body.MadeBy (P ++ []) v
    rw [List.append_nil]
    exact h.expects.reads v hv
  owned := h.interpreted.scope h.active hv
  ty? := ht
  sense := rfl

/-- Operations with the effects of `o` were made, and then readers were handed over. -/
theorem supplants (h : Due I idle P S o op k A B s) {d : Draft I idle (MadeInFront s.body k A (o :: B) [] []) P}
    (hc : ∀ strict, op.kind ≠ .connect strict)
    (hd : (h.draft hc).Next (s.body.effectsBy S o) d) (hi : b'.Interpreted I idle (P ++ d.made) d.senses)
    (hq : Silent idle d.body d.senses b' d.senses) (hout : Outlives d.body b') :
    Supplants I idle s.body P S o k A B d.made d.made d.senses ⟨b', d.builder.point⟩ where
  front := InFront.outlives (s := d.builder) d.site hout
  interpreted := ⟨idle, fun _ => id, fun _ => .inl, hi⟩
  silent := ((Silent.extends h.interpreted.coherent hd.grows hd.senses).trans hq).mono fun _ => .inl
  senses := hd.senses
  contributes := by
    obtain ⟨N, hN, hplain, hE⟩ := hd.made
    obtain rfl : d.made = N := hN
    have hfresh := InFront.fresh d.site
    have hcon : Contributes (fun x => idle x ∨ x = o) d.body d.senses k d.made (s.body.effectsBy S o) := by
      rw [← hE]
      refine .plain fun x hx => ?_
      obtain ⟨opx, hact, hk⟩ := hplain x hx
      refine ⟨opx, ⟨hact.op?, hact.erased, fun hi => hi.elim hact.busy ?_⟩, hk⟩
      rintro rfl
      have := hfresh x hx
      rw [h.active.op?] at this
      cases this
    exact hcon.silent (hq.mono fun _ => .inl) fun k' _ hk' => ⟨by rwa [hout.block?], hout.slotsOf k'⟩

end Due

end Scalarize
