import Scalarize.Proofs.Edits.Pending
import Scalarize.Proofs.Readers

/-!
# Ways from given values

Lowering a block takes accessors away, but none on a way that still leads from a given value to a reader.

* `Body.From`, `Body.OnWay` : the values on such ways, and the operations that make them;
* `Body.Sourced` : the given values are arguments, or made without operands;
* `Body.Steady` : what is read along such ways is still read along them; `Steady.hands`;
* `Steady.created`, `Steady.declared`, `Steady.replaced`, `Steady.dropped`, `Steady.upheld` : this is kept while an
  operation that is on no way is lowered by one layer;
* `Steady.attends`, `Steady.lowerBlock_runs` : for arguments, it is kept throughout the walk.
-/

namespace Scalarize

open Body Lower

namespace Body

variable {b b₀ b₁ b' : Body} {a u v w : ValueId} {d o x z : OpId} {i : Nat} {p : List Nat} {W : OpId → Prop}
  {r : ValueId → Prop} {kind : OpKind} {op : Operation}

/-- Fixed accessors lead to the value from one that is given. -/
def From (r : ValueId → Prop) (b : Body) (u : ValueId) : Prop := ∃ a p, r a ∧ b.At a p u

/-- The operation makes a value to which fixed accessors lead from one that is given. -/
def OnWay (r : ValueId → Prop) (b : Body) (z : OpId) : Prop := ∃ u i, b.From r u ∧ b.origin? u = some (.result z i)

/-- Operations that make given values stand, and read nothing. -/
def Sourced (r : ValueId → Prop) (b : Body) : Prop :=
  ∀ v z i op, r v → b.origin? v = some (.result z i) → b.op? z = some op → op.operands = [] ∧ op.erased = false

/-- The value is an argument. -/
def IsArgument (b : Body) (v : ValueId) : Prop := b.origin? v = some .argument

theorem Sourced.of_arguments (h : ∀ v, r v → b.IsArgument v) : b.Sourced r := fun v z i op hv hz _ => by
  rw [show b.origin? v = some .argument from h v hv] at hz
  cases hz

/-- What is on a way stands. -/
theorem OnWay.stands (h : b.OnWay r z) (hb : b.Coherent) (hr : b.Sourced r) : b.stands z := by
  obtain ⟨u, i, ⟨a, p, ha, hat⟩, hu⟩ := h
  cases hat with
  | self =>
    obtain ⟨op, hop, -⟩ := hb.origin hu
    rw [stands_eq, hop]
    simpa using (hr _ _ _ _ ha hu hop).2
  | part _ hw =>
    obtain ⟨y, kind, -, hmk⟩ := hw.made
    obtain ⟨rfl, -⟩ := Origin.result.inj (Option.some.inj ((hmk.origin? hb (i := 0) rfl).symm.trans hu))
    obtain ⟨op, hop, -, -, -, he⟩ := hmk
    rw [stands_eq, hop]
    simpa using he

/-- Only fixed accessors are on ways from arguments. -/
theorem OnWay.fixed (h : b.OnWay r z) (hb : b.Coherent) (hr : ∀ v, r v → b.IsArgument v) (hop : b.op? z = some op) :
    ∃ i, op.kind.fixedIndex? = some i := by
  obtain ⟨u, i, ⟨a, p, ha, hat⟩, hu⟩ := h
  cases hat with
  | self =>
    rw [show b.origin? u = some .argument from hr u ha] at hu
    cases hu
  | part _ hw =>
    obtain ⟨y, kind, hfix, hmk⟩ := hw.made
    obtain ⟨rfl, -⟩ := Origin.result.inj (Option.some.inj ((hmk.origin? hb (i := 0) rfl).symm.trans hu))
    obtain ⟨op', hop', hbare, -⟩ := hmk
    exact ⟨_, by rw [Option.some.inj (hop.symm.trans hop'), OpKind.fixedIndex?_eq_of_bare_eq hbare, hfix]⟩

/-- A value on a way is in the place where it was, and what made it still stands. -/
def Holds (r : ValueId → Prop) (b₀ b : Body) (u u' : ValueId) : Prop :=
  b₀.From r u → u' = u ∧ ∀ z i, b₀.origin? u = some (.result z i) → b.stands z

/-- Operations of `b₀` that still stand read what they read along the ways, but for those in `W`. -/
structure Steady (r : ValueId → Prop) (b₀ : Body) (W : OpId → Prop) (b : Body) : Prop where
  args : b.args = b₀.args
  argument : ∀ {v}, b₀.origin? v = some .argument → b.origin? v = some .argument
  reads : ∀ {x op}, ¬W x → b₀.op? x = some op → b.stands x →
    ∃ op', b.op? x = some op' ∧ List.Forall₂ (b₀.Holds r b) op.operands op'.operands

/-- Where an operation has its results does not change. -/
theorem Edited.origin?_result (h : b₀.Edited b) (h₀ : b₀.Coherent) (hu : b₀.origin? u = some (.result z i)) :
    b.origin? u = some (.result z i) := by
  obtain ⟨op, hop, hres⟩ := h₀.origin hu
  obtain ⟨op', hop', -, hres', -⟩ := h.op? hop
  exact h.coherent.result hop' (hres' ▸ hres)

namespace Steady

theorem refl (hb : b.Coherent) (hr : b.Sourced r) (W : OpId → Prop) : b.Steady r W b where
  args := rfl
  argument h := h
  reads _ hop _ := ⟨_, hop, List.forall₂_same.2 fun u _ hfrom =>
    ⟨rfl, fun _ i hz => OnWay.stands ⟨u, i, hfrom, hz⟩ hb hr⟩⟩

/-- An operation that was reached is erased. -/
theorem done (h : b₀.Steady r (· = o) b) (ho : ¬b.stands o) : b₀.Steady r W b where
  args := h.args
  argument := h.argument
  reads _ hop hs := h.reads (fun hx => ho (hx ▸ hs)) hop hs

/-- Values have the origin that they had. -/
theorem origin?_old (h : b₀.Steady r W b) (he : b₀.Edited b) (h₀ : b₀.Coherent) (hu : (b₀.value? u).isSome)
    (hv : b.origin? u = some (.result z i)) : b₀.origin? u = some (.result z i) := by
  obtain ⟨x, hx⟩ := Option.isSome_iff_exists.1 hu
  have ho : b₀.origin? u = some x.origin := by rw [Body.origin?, hx]; rfl
  cases hr : x.origin with
  | argument =>
    rw [h.argument (ho.trans (by rw [hr]))] at hv
    cases hv
  | result y j =>
    rw [hr] at ho
    rw [ho, ← he.origin?_result h₀ ho, hv]

/-- The only operand of an accessor on a way. -/
theorem operand (h : b₀.Steady r W b) (hmk : b₀.Makes z kind [u] [w]) (hfrom : b₀.From r u) (hz : ¬W z)
    (hs : b.stands z) : ∃ op, b.op? z = some op ∧ op.operands = [u] ∧ ∀ y i, b₀.origin? u = some (.result y i) → b.stands y := by
  obtain ⟨op, hop, -, hops, -⟩ := hmk
  obtain ⟨op', hop', hreads⟩ := h.reads hz hop hs
  rw [hops] at hreads
  obtain ⟨u', rest, hu', hrest, hops'⟩ := List.forall₂_cons_left_iff.1 hreads
  obtain rfl := List.forall₂_nil_left_iff.1 hrest
  obtain ⟨rfl, hmakers⟩ := hu' hfrom
  exact ⟨op', hop', hops', hmakers⟩

/-- A way leads on to where it led, if what made the value at its end stands. -/
theorem reaches (h : b₀.Steady r W b) (he : b₀.Edited b) (h₀ : b₀.Coherent) (hW : ∀ z, b₀.OnWay r z → ¬W z) (hat : b₀.At a p u)
    (ha : r a) (hu : ∀ z i, b₀.origin? u = some (.result z i) → b.stands z) : b.At a p u := by
  induction hat with
  | self => exact .self
  | @part p u w i hat hpart ih =>
    obtain ⟨⟨z, kind, hfix, hmk⟩, t, c, ht, hc, hw⟩ := id hpart
    have hz : b.stands z := hu z 0 (hmk.origin? h₀ rfl)
    have hfrom : b₀.From r u := ⟨a, p, ha, hat⟩
    obtain ⟨op', hop', hops', hmakers⟩ := h.operand hmk hfrom (hW z ⟨w, 0, ⟨a, p ++ [i], ha, .part hat hpart⟩, hmk.origin? h₀ rfl⟩) hz
    refine .part (ih hmakers) ⟨⟨z, kind, hfix, op', hop', ?_⟩, t, c, he.ty? ht, hc, he.ty? hw⟩
    obtain ⟨op, hop, hbare, -, hres, -⟩ := hmk
    obtain ⟨op₁, hop₁, hk, hres', -⟩ := he.op? hop
    obtain rfl := Option.some.inj (hop'.symm.trans hop₁)
    exact ⟨hk ▸ hbare, hops', hres'.trans hres, erased_of_stands hop' hz⟩

theorem trans (h : b₀.Steady r (fun _ => False) b) (h' : b.Steady r (fun _ => False) b') (h₀ : b₀.Coherent)
    (he : b₀.Edited b) (he' : b.Edited b') : b₀.Steady r (fun _ => False) b' where
  args := h'.args.trans h.args
  argument ha := h'.argument (h.argument ha)
  reads {x op} _ hop hs := by
    obtain ⟨op₁, hop₁, -⟩ := he.op? hop
    obtain ⟨op', hop', hreads⟩ := h.reads id hop (he'.stands hs (by rw [hop₁]; rfl))
    obtain ⟨op'', hop'', hreads'⟩ := h'.reads id hop' hs
    refine ⟨op'', hop'', List.forall₂_iff_get.2 ⟨hreads.length_eq.trans hreads'.length_eq, fun i hi hi'' hfrom => ?_⟩⟩
    have hi' : i < op'.operands.length := hreads.length_eq ▸ hi
    obtain ⟨hu', hmakers⟩ := (List.forall₂_iff_get.1 hreads).2 i hi hi' hfrom
    obtain ⟨a, p, ha, hat⟩ := id hfrom
    have hfrom' : b.From r (op'.operands.get ⟨i, hi'⟩) :=
      ⟨a, p, ha, hu' ▸ h.reaches he h₀ (fun _ _ => id) hat ha hmakers⟩
    obtain ⟨hu'', hmakers'⟩ := (List.forall₂_iff_get.1 hreads').2 i hi' hi'' hfrom'
    exact ⟨hu''.trans hu', fun z j hr => hmakers' z j (hu' ▸ he.origin?_result h₀ hr)⟩

/-! ### Edits -/

variable {pt : Point} {vs : List ValueId} {tys : List Ty}

theorem created (h : b₀.Steady r W b) (he : b₀.Edited b) (hc : Created b pt kind vs tys x b') : b₀.Steady r W b' where
  args := hc.args.trans h.args
  argument ha := hc.extended.origin?_some (h.argument ha)
  reads {y op} hy hop hs := by
    obtain ⟨op', hop', -⟩ := he.op? hop
    rw [stands_eq, hc.op?_old hop', ← hop', ← stands_eq] at hs
    obtain ⟨op', hop', hreads⟩ := h.reads hy hop hs
    exact ⟨op', hc.op?_old hop', hreads.imp fun _ _ hu hfrom =>
      ⟨(hu hfrom).1, fun z i hr => hc.stands_old ((hu hfrom).2 z i hr)⟩⟩

theorem declared (h : b₀.Steady r W b) (hx : b₀.op? x = none) (f : Decl → Decl) : b₀.Steady r W (b.modifyDecl x f) where
  args := h.args
  argument := h.argument
  reads {y op} hy hop hs := by
    rw [stands_modifyDecl] at hs
    obtain ⟨op', hop', hreads⟩ := h.reads hy hop hs
    have hne : y ≠ x := by
      rintro rfl
      rw [hx] at hop
      cases hop
    refine ⟨op', by rw [op?_modifyDecl, hop', Option.map_some, if_neg hne], hreads.imp fun _ _ hu hfrom => ?_⟩
    exact ⟨(hu hfrom).1, fun z i hr => by rw [stands_modifyDecl]; exact (hu hfrom).2 z i hr⟩

/-- What is replaced is not made on a way. -/
theorem replaced (h : b₀.Steady r W b) (he : b₀.Edited b) (h₀ : b₀.Coherent) (hv : b.origin? v = some (.result d i))
    (hd : ¬b₀.OnWay r d) (hr : Replaced b v w b') : b₀.Steady r W b' where
  args := hr.args.trans h.args
  argument ha := by rw [hr.outlives.origin?, h.argument ha]
  reads {y op} hy hop hs := by
    rw [hr.stands] at hs
    obtain ⟨op', hop', hreads⟩ := h.reads hy hop hs
    refine ⟨_, hr.op?_some hop', List.forall₂_iff_get.2 ⟨by simpa using hreads.length_eq, fun n hn hn' hfrom => ?_⟩⟩
    have hn₁ : n < op'.operands.length := by simpa using hn'
    obtain ⟨hu, hmakers⟩ := (List.forall₂_iff_get.1 hreads).2 n hn hn₁ hfrom
    have hu' : op'.operands[n] = op.operands[n] := hu
    have hne : op'.operands[n] ≠ v := fun heq => by
      rw [← heq, hu'] at hv
      exact hd ⟨_, i, hfrom, h.origin?_old he h₀ (isSome_value?.2 (h₀.operand hop (List.getElem_mem hn))) hv⟩
    refine ⟨?_, fun z j hz => by rw [hr.stands]; exact hmakers z j hz⟩
    simp only [List.get_eq_getElem, List.getElem_map, if_neg hne]
    exact hu'

/-- What nothing reads any more may be erased. -/
theorem dropped {f : Bool → Bool} (h : b₀.Steady r W b) (he : b₀.Edited b) (h₀ : b₀.Coherent) (hf : f true = true)
    (hx : ¬W x → f false = true) (hread : f false = true → ¬b.ResultRead x) (hd : Dropped b x f b') :
    b₀.Steady r W b' where
  args := hd.args.trans h.args
  argument ha := by rw [(hd.outlives hf).origin?, h.argument ha]
  reads {y op} hy hop hs := by
    obtain ⟨op', hop', hreads⟩ := h.reads hy hop (hd.stands_of hf hs)
    have hne : y ≠ x := by
      rintro rfl
      rw [stands_eq, hd.op?, hop', Option.map_some, if_pos rfl] at hs
      cases he' : op'.erased <;> simp [he', hf, hx hy] at hs
    refine ⟨op', by rw [hd.op?, hop', Option.map_some, if_neg hne], ?_⟩
    refine List.forall₂_iff_get.2 ⟨hreads.length_eq, fun i hi hi' hfrom => ?_⟩
    obtain ⟨hu', hmakers⟩ := (List.forall₂_iff_get.1 hreads).2 i hi hi' hfrom
    refine ⟨hu', fun z j hz => hd.stands_ne (fun hft => ?_) (hmakers z j hz)⟩
    -- the operation that stands reads the value
    rintro rfl
    obtain ⟨opz, hopz, hres⟩ := he.coherent.origin (he.origin?_result h₀ hz)
    exact hread hft ⟨opz, _, y, hopz, List.mem_of_getElem? hres, op', hop', hu' ▸ List.get_mem _ _⟩

/-- What an operation makes that is on no way is read by none on a way. -/
theorem not_onWay_of_reads (h : b₀.Steady r (· = o) b) (he : b₀.Edited b) (h₀ : b₀.Coherent) (hr : b₀.Sourced r)
    (ho : ¬b₀.OnWay r o) (hv : b.origin? v = some (.result o i)) (hread : b.Reads x v) : ¬b₀.OnWay r x := by
  intro hx
  have hxo : x ≠ o := fun hxo => ho (hxo ▸ hx)
  obtain ⟨opx, hopx, hmem⟩ := hread
  have hs : b.stands x := by
    rw [stands_eq, hopx]
    simpa using not_erased_of_reads he.coherent hopx hmem
  obtain ⟨w, j, ⟨a, p, ha, hat⟩, hw⟩ := hx
  cases hat with
  | self =>
    -- what makes given values reads nothing
    obtain ⟨op₀, hop₀, -⟩ := h₀.origin hw
    obtain ⟨op', hop', hreads⟩ := h.reads hxo hop₀ hs
    rw [(hr _ _ _ _ ha hw hop₀).1, List.forall₂_nil_left_iff] at hreads
    rw [Option.some.inj (hopx.symm.trans hop'), hreads] at hmem
    cases hmem
  | @part p u _ k hat hwu =>
    obtain ⟨y, kind, -, hmk⟩ := hwu.made
    obtain ⟨rfl, -⟩ := Origin.result.inj (Option.some.inj ((hmk.origin? h₀ (i := 0) rfl).symm.trans hw))
    obtain ⟨op', hop', hops', -⟩ := h.operand hmk ⟨a, p, ha, hat⟩ hxo hs
    obtain rfl := Option.some.inj (hopx.symm.trans hop')
    obtain rfl : v = u := by simpa [hops'] using hmem
    obtain ⟨op₀, hop₀, -, hops₀, -⟩ := hmk
    exact ho ⟨v, i, ⟨a, p, ha, hat⟩, h.origin?_old he h₀ (isSome_value?.2 (h₀.operand hop₀ (by simp [hops₀]))) hv⟩

/-- All this is kept while an operation that is on no way is lowered by one layer. -/
theorem upheld (h₀ : b₀.Coherent) (hr : b₀.Sourced r) (hop : b₀.op? o = some op) (ho : ¬b₀.OnWay r o) :
    Upheld b₀ o op (fun b v => (b.value? v).isSome) (fun _ x => ¬b₀.OnWay r x)
      fun b => b₀.Edited b ∧ b₀.Steady r (· = o) b where
  operand hv := isSome_value?.2 (h₀.operand hop hv)
  through hX _ _ hopd hw := isSome_value?.2 (hX.1.coherent.operand hopd hw)
  see _ _ hc := ⟨fun v hv => by
    rw [hc.toJoined.old v (isSome_value?.1 hv), Option.isSome_map]
    exact hv, fun v i hr => isSome_of_origin? hr⟩
  declared hv := hv
  replaced _ hr := ⟨fun u hu => by rwa [hr.outlives.isSome_value?], fun _ => id⟩
  dropped _ _ hd := ⟨fun u hu => by rwa [(hd.outlives rfl).isSome_value?], fun _ => id⟩
  self _ := ho
  reader hX hv hread := hX.2.not_onWay_of_reads hX.1 h₀ hr ho hv hread
  create he hX _ hc := ⟨he.created hc, hX.2.created he hc⟩
  declare he hX hx := ⟨he.declared hx _, hX.2.declared hx _⟩
  replace he hX hne hv hw hr := by
    obtain ⟨d, i, opd, hrd, -, -, hd⟩ := hv
    exact ⟨he.replaced hr (isSome_of_origin? hrd) hw hne, hX.2.replaced he h₀ hrd hd hr⟩
  drop he hX hf hx hread hd :=
    ⟨he.dropped hf hd, hX.2.dropped he h₀ hf (fun hne => (hx hne).1) hread hd⟩

/-- Whoever reads a node still reads it. -/
theorem hands {ι : Type} {R : ValueId → ι → List Nat → Prop} (h : b₀.Steady r (fun _ => False) b) (h₀ : b₀.Coherent)
    (he : b₀.Edited b) (hR : ∀ {a k p}, R a k p → r a) : Hands R b₀ R b where
  stands hx hs := he.stands hs (by rw [hx]; rfl)
  slot {x j u i q} hs hu hd := by
    obtain ⟨a, p₀, p, ha, hat, hq⟩ := hd
    obtain ⟨op, hop, hj⟩ := hu
    obtain ⟨op', hop', hreads⟩ := h.reads id hop hs
    obtain ⟨hj₀, rfl⟩ := List.getElem?_eq_some_iff.1 hj
    have hj' : j < op'.operands.length := hreads.length_eq ▸ hj₀
    obtain ⟨hu', hmakers⟩ := (List.forall₂_iff_get.1 hreads).2 j hj₀ hj' ⟨a, p, hR ha, hat⟩
    refine ⟨op.operands[j], ⟨op', hop', ?_⟩, a, p₀, p, ha, h.reaches he h₀ (fun _ _ => id) hat (hR ha) hmakers, hq⟩
    rw [List.getElem?_eq_getElem hj']
    exact congrArg some hu'

end Steady

end Body

/-- A step over a fixed accessor replaces nothing. -/
theorem Lower.step_fixed {cx : Context} {o : OpId} {kind : OpKind} {i : Nat} {t : LowerState}
    (h : kind.fixedIndex? = some i) :
    Runs False (Lower.step cx o kind) t fun replaced t' => replaced = false ∧ t' = t := by
  cases kind <;> cases h <;> exact .pure ⟨rfl, rfl⟩

namespace Body.Steady

/-- Every step of the walk keeps what is read along ways from arguments. -/
theorem attends {cx : Context} {E : OpId → Prop} {b₀ : Body} (h₀ : b₀.Coherent) :
    Attends cx E fun b _ _ _ => b₀.Edited b ∧ b₀.Steady b₀.IsArgument (fun _ => False) b where
  skip _ h _ _ _ := h
  pass _ h _ _ _ := h
  stay _ h _ := h
  step {t P D o op k A B} hI h hop _ _ _ _ := by
    obtain ⟨he, hs⟩ := h
    have hargs : ∀ v, b₀.IsArgument v → t.builder.body.IsArgument v := fun v hv => hs.argument hv
    by_cases ho : t.builder.body.OnWay b₀.IsArgument o
    · obtain ⟨i, hfix⟩ := ho.fixed he.coherent hargs hop
      refine ⟨_, _, _, False, .blind _ o op, trivial, (Lower.step_fixed hfix).mono ?_, fun h => h.elim⟩
      exact fun replaced _ hfalse htrue => absurd (hfalse.1.symm.trans htrue) nofun
    · have hsourced := Sourced.of_arguments hargs
      refine ⟨_, _, _, True, upheld he.coherent hsourced hop ho, ⟨.refl he.coherent, .refl he.coherent hsourced _⟩,
        Ends.intro (fun _ _ _ => trivial) nofun, ?_⟩
      rintro t' N - ⟨he', hs'⟩ ⟨-, -, herased⟩
      have hgone : ¬t'.builder.body.stands o := fun hst => by
        obtain ⟨op', hop', -⟩ := he'.op? hop
        rw [stands_eq, hop', Option.any_some, herased hop'] at hst
        cases hst
      exact ⟨he.trans he', hs.trans (hs'.done hgone) h₀ he he'⟩

/-- Lowering a body keeps what is read along ways from arguments. -/
theorem lowerBlock_runs (cx : Context) {b : Body} (hb : b.Coherent) (n : Nat) (p : Point) (y : Symbols) :
    Runs False (lowerBlock cx n Body.entry) ⟨⟨b, p⟩, y⟩ fun _ t =>
      b.Edited t.builder.body ∧ b.Steady b.IsArgument (fun _ => False) t.builder.body := by
  obtain ⟨L, hL⟩ := hb.exists_unfolds_slotsOf Body.entry
  obtain ⟨blk, hblk, -⟩ := hb.entry
  obtain ⟨E, hI⟩ : ∃ E, b.Tidy E L [] := ⟨_, .start hb hL⟩
  have hattends : Attends cx E fun b' _ _ _ => b.Edited b' ∧ b.Steady b.IsArgument (fun _ => False) b' := attends hb
  have hstages := hattends.stages
  refine (hstages.lowerBlock_runs (t := ⟨⟨b, p⟩, y⟩) (P := []) (L := L) (D := []) (R := fun _ => 0)
    ⟨hI, .refl hb, .refl hb (.of_arguments fun _ => id) _⟩ (by simp [hblk]) (.inl rfl) hL nofun).mono ?_
  rintro _ t ⟨C, N, R', -, -, ⟨-, h⟩, -, -, -⟩
  exact h

end Body.Steady

end Scalarize
