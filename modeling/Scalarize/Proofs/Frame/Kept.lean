import Scalarize.Proofs.Arguments
import Scalarize.Proofs.Frame.Ahead

/-!
# What is kept

* `Body.GaveWay` : a result that nothing reads any more;
* `Frame` : whatever still stands is as it was, up to results that gave way, and what lowering leaves
  alone still stands;
* `Frame.created`, `Frame.declared`, `Frame.replaced`, `Frame.dropped`, `Frame.reargs` : every edit keeps
  it;
* `Frame.upheld`, `Frame.attends` : so does the walk.
-/

namespace Scalarize

open Body Lower

/-- In `b₀` the value is a result of an operation of a kind whose results may give way, and nothing in `b`
reads it. -/
structure Body.GaveWay (b₀ b : Body) (v : ValueId) : Prop where
  result : ∃ d i op, b₀.origin? v = some (.result d i) ∧ b₀.op? d = some op ∧ op.kind.givesWay = true
  unread : ∀ x, ¬b.Reads x v

/-- Edits lead from `b₀` to `b`. But for the operations with `W`, what still stands is as it was and reads
`σ v` where it read `v`, and what lowering leaves alone still stands. The operations with `R` have not
been reached yet. -/
structure Frame (cx : Context) (b₀ : Body) (R W : OpId → Prop) (σ : ValueId → ValueId) (b : Body) :
    Prop where
  edited : b₀.Edited b
  origin? : ∀ {v : ValueId}, v.index < b₀.values.size → b.origin? v = b₀.origin? v
  stands : ∀ {x op}, b₀.op? x = some op → op.erased = false → b₀.Spared cx op → ¬W x → b.stands x
  kept : ∀ {x op}, b₀.op? x = some op → ¬W x → b.stands x →
    b.op? x = some { op with operands := op.operands.map σ }
  moved : ∀ {v : ValueId}, v.index < b₀.values.size →
    σ v = v ∨ b₀.GaveWay b v ∧ ∀ {d i}, b₀.origin? v = some (.result d i) → ¬R d
  slots : ∀ k, (b₀.slotsOf k).Sublist (b.slotsOf k)

namespace Frame

variable {cx : Context} {b₀ b b' : Body} {R W : OpId → Prop} {σ : ValueId → ValueId} {o x : OpId}
  {v w : ValueId} {p : Point} {kind : OpKind} {vs : List ValueId} {tys : List Ty}

theorem start (hb : b.Coherent) (R W : OpId → Prop) : Frame cx b R W id b where
  edited := .refl hb
  origin? _ := rfl
  stands hop he _ _ := by simp [stands_eq, hop, he]
  kept hop _ _ := by rw [hop, List.map_id]
  moved _ := .inl rfl
  slots _ := List.Sublist.refl _

/-- Fewer operations of `b₀` are left to be reached. -/
theorem mono (h : Frame cx b₀ R W σ b) {R' : OpId → Prop} (hR : ∀ {d}, (b₀.op? d).isSome → R' d → R d) :
    Frame cx b₀ R' W σ b where
  edited := h.edited
  origin? := h.origin?
  stands := h.stands
  kept := h.kept
  moved hv := (h.moved hv).imp id fun ⟨hg, hreached⟩ => ⟨hg, fun {d i} hr hd => by
    obtain ⟨d', i', op, hr', hop, -⟩ := hg.result
    obtain ⟨rfl, -⟩ := Origin.result.inj (Option.some.inj (hr.symm.trans hr'))
    exact hreached hr (hR (by rw [hop]; rfl) hd)⟩
  slots := h.slots

/-- An operation is taken up. -/
theorem take (h : Frame cx b₀ R (fun _ => False) σ b) : Frame cx b₀ R W σ b where
  edited := h.edited
  origin? := h.origin?
  stands hop he hs _ := h.stands hop he hs id
  kept hop _ := h.kept hop id
  moved := h.moved
  slots := h.slots

/-- An operation that lowering does not leave alone is done once it is erased. -/
theorem done (h : Frame cx b₀ R (· = o) σ b) (ho : ¬b.stands o)
    (hs : ∀ op, b₀.op? o = some op → op.erased = false → ¬b₀.Spared cx op) :
    Frame cx b₀ R (fun _ => False) σ b where
  edited := h.edited
  origin? := h.origin?
  stands hop he hspared _ := h.stands hop he hspared fun hx => hs _ (hx ▸ hop) he hspared
  kept hop _ hstands := h.kept hop (fun hx => ho (hx ▸ hstands)) hstands
  moved := h.moved
  slots := h.slots

/-! ## Edits -/

/-- The values that new operations may read. -/
def Source (b₀ : Body) (R : OpId → Prop) (b : Body) (v : ValueId) : Prop :=
  ∀ d i, b.origin? v = some (.result d i) → R d ∨ b₀.op? d = none

/-- What may be read did not give way. -/
theorem Source.not_gaveWay (hv : Source b₀ R b v) (h : Frame cx b₀ R W σ b) (hg : b₀.GaveWay b v)
    (hreached : ∀ {d i}, b₀.origin? v = some (.result d i) → ¬R d) : False := by
  obtain ⟨d, i, op, hr, hop, -⟩ := hg.result
  rcases hv d i (h.origin? (isSome_value?.1 (isSome_of_origin? hr)) ▸ hr) with hd | hd
  · exact hreached hr hd
  · rw [hop] at hd
    cases hd

theorem created (h : Frame cx b₀ R W σ b) (hv : ∀ v ∈ vs, Source b₀ R b v)
    (hc : Created b p kind vs tys x b') : Frame cx b₀ R W σ b' where
  edited := h.edited.created hc
  origin? {v} hlt := by
    obtain ⟨y, hy⟩ := Option.isSome_iff_exists.1 (isSome_value?.2 hlt)
    have hr : b₀.origin? v = some y.origin := origin?_eq_some_iff.2 ⟨y, hy, rfl⟩
    rw [← h.origin? hlt] at hr ⊢
    exact hc.toJoined.origin?_old (isSome_value?.1 (isSome_of_origin? hr))
  stands hop he hs hW := by
    have := h.stands hop he hs hW
    rw [stands_eq, h.kept hop hW this] at this
    rwa [stands_eq, hc.toJoined.op?_old (h.kept hop hW (h.stands hop he hs hW))]
  kept {y op} hop hW hs := by
    obtain ⟨op', hop', -⟩ := h.edited.op? hop
    rw [stands_eq, hc.toJoined.op?_old hop', ← hop', ← stands_eq] at hs
    exact hc.toJoined.op?_old (h.kept hop hW hs)
  moved {v} hlt := (h.moved hlt).imp id fun ⟨hg, hreached⟩ => ⟨⟨hg.result, fun y ⟨op, hop, hmem⟩ => by
    rcases hc.toJoined.op?_cases hop with hop | ⟨rfl, rfl⟩
    · exact hg.unread y ⟨op, hop, hmem⟩
    · exact (hv v hmem).not_gaveWay h hg hreached⟩, hreached⟩
  slots k := (h.slots k).trans (hc.slotsOf_sublist k)

theorem declared (h : Frame cx b₀ R W σ b) (hx : b₀.op? x = none) (f : Decl → Decl) :
    Frame cx b₀ R W σ (b.modifyDecl x f) where
  edited := h.edited.declared hx f
  origin? := h.origin?
  stands hop he hs hW := by
    rw [stands_modifyDecl]
    exact h.stands hop he hs hW
  kept {y op} hop hW hs := by
    rw [stands_modifyDecl] at hs
    have hne : y ≠ x := by
      rintro rfl
      rw [hx] at hop
      cases hop
    rw [op?_modifyDecl, h.kept hop hW hs, Option.map_some, if_neg hne]
  moved hlt := (h.moved hlt).imp id fun ⟨hg, hreached⟩ => ⟨⟨hg.result, fun y ⟨op, hop, hmem⟩ => by
    obtain ⟨kind, hop', -⟩ := op?_of_modifyDecl hop
    exact hg.unread y ⟨_, hop', hmem⟩⟩, hreached⟩
  slots := h.slots

theorem replaced (h : Frame cx b₀ R W σ b) (h₀ : b₀.Coherent) (hne : v ≠ w) (hv : b.Loose (fun _ d => ¬R d) v)
    (hw : Source b₀ R b w) (hsome : (b.value? w).isSome) (hr : Replaced b v w b') :
    Frame cx b₀ R W (fun u => if σ u = v then w else σ u) b' where
  edited := by
    obtain ⟨d, i, opd, hrd, -⟩ := hv
    exact h.edited.replaced hr (isSome_of_origin? hrd) hsome hne
  origin? hlt := by rw [hr.outlives.origin?, h.origin? hlt]
  stands hop he hs hW := by
    rw [hr.stands]
    exact h.stands hop he hs hW
  kept hop hW hs := by
    rw [hr.stands] at hs
    rw [hr.op?_some (h.kept hop hW hs), List.map_map]
    rfl
  moved {u} hlt := by
    have hunread : ∀ x, ¬b'.Reads x v := fun x hx => by
      rcases hr.reads_iff.1 hx with ⟨-, hvv⟩ | ⟨hvw, -⟩
      · exact hvv rfl
      · exact hne hvw
    rcases h.moved hlt with hu | ⟨hg, hreached⟩
    · rw [hu]
      by_cases huv : u = v
      · subst huv
        obtain ⟨d, i, opd, hrd, hopd, hk, hd⟩ := hv
        rw [h.origin? hlt] at hrd
        obtain ⟨op, hop, -⟩ := h₀.origin hrd
        obtain ⟨op', hop', hkind, -⟩ := h.edited.op? hop
        obtain rfl := Option.some.inj (hopd.symm.trans hop')
        refine .inr ⟨⟨⟨d, i, op, hrd, hop, hkind ▸ hk⟩, hunread⟩, fun {d' i'} hr' => ?_⟩
        obtain ⟨rfl, -⟩ := Origin.result.inj (Option.some.inj (hrd.symm.trans hr'))
        exact hd
      · exact .inl (if_neg huv)
    · refine .inr ⟨⟨hg.result, fun x hx => ?_⟩, hreached⟩
      rcases hr.reads_iff.1 hx with ⟨hread, -⟩ | ⟨rfl, -⟩
      · exact hg.unread x hread
      · exact hw.not_gaveWay h hg hreached
  slots k := by
    rw [hr.outlives.slotsOf]
    exact h.slots k

theorem dropped (h : Frame cx b₀ R W σ b) {f : Bool → Bool} (hf : f true = true)
    (hx : ¬W x → f false = true ∧ ∀ op, b.op? x = some op → op.kind.isAccessor = true)
    (hd : Dropped b x f b') : Frame cx b₀ R W σ b' where
  edited := h.edited.dropped hf hd
  origin? hlt := by rw [(hd.outlives hf).origin?, h.origin? hlt]
  stands {y op} hop he hs hW := by
    have hkept := h.kept hop hW (h.stands hop he hs hW)
    have hne : y ≠ x := by
      rintro rfl
      have := (hx hW).2 _ hkept
      rw [hs.not_isAccessor] at this
      cases this
    rw [stands_eq, hd.op?, hkept, Option.map_some, if_neg hne]
    simp [he]
  kept {y op} hop hW hs := by
    rw [stands_eq, hd.op?] at hs
    obtain ⟨op', hop', -⟩ := h.edited.op? hop
    have hne : y ≠ x := by
      rintro rfl
      rw [hop', Option.map_some, if_pos rfl] at hs
      cases he : op'.erased <;> simp [he, hf, (hx hW).1] at hs
    rw [hop', Option.map_some, if_neg hne, ← hop', ← stands_eq] at hs
    rw [hd.op?, h.kept hop hW hs, Option.map_some, if_neg hne]
  moved hlt := (h.moved hlt).imp id fun ⟨hg, hreached⟩ => ⟨⟨hg.result, fun y ⟨op, hop, hmem⟩ => by
    rw [hd.op?] at hop
    obtain ⟨op', hop', rfl⟩ := Option.map_eq_some_iff.1 hop
    split at hmem
    · cases hmem
    · exact hg.unread y ⟨op', hop', hmem⟩⟩, hreached⟩
  slots k := by
    rw [(hd.outlives hf).slotsOf]
    exact h.slots k

/-- Arguments do not matter. -/
theorem reargs (h : Frame cx b₀ R W σ b) {new : List Ty} (hr : Reargs b b' new) (hb : b'.Coherent) :
    Frame cx b₀ R W σ b' where
  edited := h.edited.trans
    { coherent := hb
      op? := fun hop => ⟨_, (hr.op? _).trans hop, rfl, rfl, rfl, id⟩
      ty? := hr.toExtends.ty?_some }
  origin? {v} hlt := by
    obtain ⟨y, hy⟩ := Option.isSome_iff_exists.1 (isSome_value?.2 hlt)
    have hr₀ : b₀.origin? v = some y.origin := origin?_eq_some_iff.2 ⟨y, hy, rfl⟩
    rw [hr₀, hr.toExtends.origin?_some (h.origin? hlt ▸ hr₀)]
  stands hop he hs hW := by
    rw [stands_eq, hr.op?, ← stands_eq]
    exact h.stands hop he hs hW
  kept hop hW hs := by
    rw [stands_eq, hr.op?, ← stands_eq] at hs
    rw [hr.op?]
    exact h.kept hop hW hs
  moved hlt := (h.moved hlt).imp id fun ⟨hg, hreached⟩ =>
    ⟨⟨hg.result, fun x hx => hg.unread x (hr.reads_iff.1 hx)⟩, hreached⟩
  slots k := by
    unfold slotsOf
    rw [hr.block?]
    exact h.slots k

/-! ## The walk -/

variable {b₁ : Body} {P : List OpId} {op : Operation}

/-- What new operations may read while `P` are pending. -/
theorem source_of_stems (h₁ : b₀.Edited b₁) (hv : b.Stems (Ahead.Source b₁ P) v) :
    Source b₀ (· ∈ P) b v := by
  intro d i hr
  rcases hv with ha | ⟨d', i', hr', -, hd⟩
  · rw [ha] at hr
    cases hr
  · rw [hr'] at hr
    obtain ⟨rfl, -⟩ := Origin.result.inj (Option.some.inj hr)
    refine hd.imp id fun hnone => ?_
    cases hop : b₀.op? d' with
    | none => rfl
    | some op =>
      obtain ⟨op', hop', -⟩ := h₁.op? hop
      rw [hnone] at hop'
      cases hop'

/-- What holds while `o` is lowered by one layer. -/
def During (cx : Context) (b₀ b₁ : Body) (P : List OpId) (o : OpId) (b : Body) : Prop :=
  Ahead b₀ b₁ P b ∧ ∃ σ, Frame cx b₀ (· ∈ P) (· = o) σ b

/-- All this is kept while an operation is lowered by one layer. -/
theorem upheld (h₀ : b₀.Coherent) (h₁ : b₀.Edited b₁) (hA : Ahead b₀ b₁ (P ++ [o]) b₁)
    (hop : b₁.op? o = some op) (ho : o ∉ P) :
    Upheld b₁ o op (fun b => b.Stems (Ahead.Source b₁ P)) (fun _ => Ahead.Reached b₁ P)
      (During cx b₀ b₁ P o) where
  operand {v} hv := by
    rcases hA.closed rfl hop hv with ha | ⟨d, hd, i, hr⟩
    · exact .inl ha
    · exact .inr ⟨d, i, hr, hA.reads ⟨op, hop, hv⟩ hr, .inl hd⟩
  through {b v w d i opd} hX hv hr hopd hw := by
    refine hX.1.stems_operand hopd ?_ hw
    rcases hv with ha | ⟨d', i', hr', -, hd⟩
    · rw [ha] at hr
      cases hr
    · rw [hr'] at hr
      obtain ⟨rfl, -⟩ := Origin.result.inj (Option.some.inj hr)
      exact hd
  see {b p kind vs tys x b'} he _ hc := by
    refine ⟨fun v hv => ?_, fun v i hr => .inr ⟨x, i, hr, ?_, .inr (he.op?_fresh hc)⟩⟩
    · have hlt : ∀ {r : Origin}, b.origin? v = some r → v.index < b.values.size :=
        fun hr => isSome_value?.1 (isSome_of_origin? hr)
      refine hv.imp (fun ha => by rw [hc.toJoined.origin?_old (hlt ha), ha]) fun ⟨d, i, hr, hs, hd⟩ => ?_
      refine ⟨d, i, by rw [hc.toJoined.origin?_old (hlt hr), hr], ?_, hd⟩
      obtain ⟨opd, hopd, -⟩ := he.coherent.origin hr
      rwa [stands_eq, hc.toJoined.op?_old hopd, ← hopd, ← stands_eq]
    · rw [stands_eq, hc.toJoined.op?_self]
      rfl
  declared {b x f v} hv := hv.imp id fun ⟨d, i, hr, hs, hd⟩ => ⟨d, i, hr, by rwa [stands_modifyDecl], hd⟩
  replaced {b v w b'} _ hr := ⟨fun u hu => hu.imp (fun ha => by rw [hr.outlives.origin?, ha])
    fun ⟨d, i, hrd, hs, hd⟩ => ⟨d, i, by rw [hr.outlives.origin?, hrd], by rwa [hr.stands], hd⟩, fun _ => id⟩
  dropped {b x b'} _ hx hd := ⟨fun u hu => hu.imp (fun ha => by rw [(hd.outlives rfl).origin?, ha])
    fun ⟨d, i, hrd, hs, hdsrc⟩ => ⟨d, i, by rw [(hd.outlives rfl).origin?, hrd], by
      have hne : d ≠ x := fun he => hdsrc.not_reached (he ▸ hx)
      rw [stands_eq, hd.op?]
      cases hopd : b.op? d with
      | none => simp [stands_eq, hopd] at hs
      | some opd => simpa [hne, stands_eq, hopd] using hs, hdsrc⟩, fun _ => id⟩
  self _ := ⟨ho, by rw [hop]; rfl⟩
  reader {b i v u} hX hr hread := by
    by_contra hu
    refine hX.1.not_reads (x := u) ?_ hr ⟨ho, by rw [hop]; rfl⟩ hread
    by_cases huP : u ∈ P
    · exact .inl huP
    · refine .inr ?_
      cases hopu : b₁.op? u with
      | none => rfl
      | some opu => exact absurd ⟨huP, by rw [hopu]; rfl⟩ hu
  create {b p kind vs tys x b'} he hX hv hc := by
    obtain ⟨σ, hF⟩ := hX.2
    exact ⟨hX.1.created he hv hc, σ, hF.created (fun v hmem => source_of_stems h₁ (hv v hmem)) hc⟩
  declare {b x f} _ hX hx := by
    obtain ⟨σ, hF⟩ := hX.2
    refine ⟨hX.1.declared hx f, σ, hF.declared ?_ f⟩
    cases hop : b₀.op? x with
    | none => rfl
    | some op =>
      obtain ⟨op', hop', -⟩ := h₁.op? hop
      rw [hx] at hop'
      cases hop'
  replace {b v w b'} he hX hne hv hw hr := by
    obtain ⟨σ, hF⟩ := hX.2
    have hsome : (b.value? w).isSome := by
      rcases hw with ha | ⟨d, i, hrw, -⟩
      · exact isSome_of_origin? ha
      · exact isSome_of_origin? hrw
    refine ⟨hX.1.replaced hv hw hr, _, hF.replaced h₀ hne ?_ (source_of_stems h₁ hw) hsome hr⟩
    obtain ⟨d, i, opd, hrd, hopd, hk, hd⟩ := hv
    exact ⟨d, i, opd, hrd, hopd, hk, hd.1⟩
  drop {b x f b'} he hX hf hx hread hd := by
    obtain ⟨σ, hF⟩ := hX.2
    exact ⟨hX.1.dropped ho hf hx hread he.coherent hd, σ, hF.dropped hf hx hd⟩

/-- What holds between two steps. -/
def Stage (cx : Context) (b₀ : Body) (b : Body) (_ : Symbols) (P _ : List OpId) : Prop :=
  Ahead b₀ b P b ∧ ∃ σ, Frame cx b₀ (· ∈ P) (fun _ => False) σ b

theorem Stage.of_append {P' D D' : List OpId} {y : Symbols} (h : Stage cx b₀ b y (P ++ P') D) :
    Stage cx b₀ b y P D' := by
  obtain ⟨hA, σ, hF⟩ := h
  exact ⟨hA.of_append, σ, hF.mono fun _ hd => List.mem_append_left _ hd⟩

/-- Every step of the walk keeps it. -/
theorem attends {E : OpId → Prop} (h₀ : b₀.Coherent) : Attends cx E (Stage cx b₀) where
  skip _ h _ _ _ := h.of_append
  pass _ h _ _ _ := h.of_append
  stay _ h _ := h.of_append
  step {t P D o op k A B} hI h hop _ _ _ _ := by
    obtain ⟨hA, σ, hF⟩ := h
    have ho : o ∉ P := by
      have hnd := hI.nodup
      rw [List.append_assoc, List.nodup_append] at hnd
      exact fun hP => hnd.2.2 o hP o (by simp) rfl
    refine ⟨_, _, During cx b₀ t.builder.body P o,
      ∀ op₀, b₀.op? o = some op₀ → op₀.erased = false → ¬b₀.Spared cx op₀,
      upheld h₀ hF.edited hA hop ho, ⟨hA.of_append, σ, ?_⟩, ?_, ?_⟩
    · exact (hF.mono fun _ hd => List.mem_append_left _ hd).take
    · by_cases hdue : ∀ op₀, b₀.op? o = some op₀ → op₀.erased = false → ¬b₀.Spared cx op₀
      · exact Ends.intro (fun _ _ _ => hdue) nofun
      push Not at hdue
      obtain ⟨op₀, hop₀, -, hs⟩ := hdue
      obtain ⟨hop', hs'⟩ := hA.spared h₀ hF.edited hF.origin? (List.mem_append_right _ (List.mem_singleton_self o))
        hop₀ hs
      obtain rfl := Option.some.inj (hop.symm.trans hop')
      exact (step_spared hop hs').mono fun replaced _ hfalse htrue => absurd (hfalse.symm.trans htrue) nofun
    · rintro t' N hdue ⟨hA', σ', hF'⟩ ⟨⟨H, hfront⟩, hgrown, herased⟩
      refine ⟨hA'.next hF.edited hgrown hfront.fresh hfront.known, σ', ?_⟩
      refine (hF'.done (fun hs => ?_) hdue).mono fun {d} hd hmem => ?_
      · rw [stands_eq] at hs
        cases hop' : t'.builder.body.op? o with
        | none => rw [hop'] at hs; cases hs
        | some op' => rw [hop', Option.any_some, herased hop'] at hs; cases hs
      · rcases List.mem_append.1 hmem with hmem | hmem
        · exact hmem
        · obtain ⟨opd, hopd⟩ := Option.isSome_iff_exists.1 hd
          obtain ⟨opd', hopd', -⟩ := hF.edited.op? hopd
          have := hfront.fresh d hmem
          rw [this] at hopd'
          cases hopd'

end Frame

end Scalarize
