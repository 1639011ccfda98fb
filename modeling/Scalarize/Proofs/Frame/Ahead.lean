import Scalarize.Proofs.Body.Scope
import Scalarize.Proofs.Frame.Spared
import Scalarize.Proofs.Lowering

/-!
# Pending operations are as they were

An operation that is still pending reads only what operations made that are pending in front of it, and
only results of operations that were reached give way. So whatever is pending is as it was at first, but
for accessors that were erased because nothing reads them.

* `Body.Stems` : arguments, and results of standing operations;
* `Ahead`, `Ahead.created`, `Ahead.replaced`, `Ahead.dropped`, `Ahead.next` : what is known of the
  operations that are pending, through every edit and from one step to the next;
* `Ahead.spared` : an operation that lowering leaves alone is still one when it is reached.
-/

namespace Scalarize

open Body Lower

/-- The value is an argument, or a result of a standing operation with `R`. -/
def Body.Stems (b : Body) (R : OpId → Prop) (v : ValueId) : Prop :=
  b.origin? v = some .argument ∨ ∃ d i, b.origin? v = some (.result d i) ∧ b.stands d ∧ R d

/-- `P` are pending, in this order, in a body that edits lead to from `b₀` and then, since the last step,
from `b₁`. -/
structure Ahead (b₀ b₁ : Body) (P : List OpId) (b : Body) : Prop where
  known : ∀ x ∈ P, (b₁.op? x).isSome
  closed : b.Closed P
  reads : ∀ {x v d i}, b.Reads x v → b.origin? v = some (.result d i) → b.stands d
  same : ∀ {x op}, x ∈ P → b₀.op? x = some op →
    b.op? x = some op ∨ op.kind.isAccessor = true ∧ ¬b.stands x
  new : ∀ {x op v}, b₁.op? x = none → b.op? x = some op → v ∈ op.operands →
    b.origin? v = some .argument ∨ ∃ d i, b.origin? v = some (.result d i) ∧
      (d ∈ P ∨ b₁.op? d = none ∧ d.index < x.index)

namespace Ahead

variable {b₀ b₁ b b' : Body} {P N : List OpId} {o x y d : OpId} {v w : ValueId} {i : Nat} {p : Point}
  {kind : OpKind} {vs : List ValueId} {tys : List Ty} {cx : Context} {op : Operation}

/-- The operations whose results new operations may read. -/
def Source (b₁ : Body) (P : List OpId) (d : OpId) : Prop := d ∈ P ∨ b₁.op? d = none

/-- The operations whose results may give way. -/
def Reached (b₁ : Body) (P : List OpId) (d : OpId) : Prop := d ∉ P ∧ (b₁.op? d).isSome

theorem Source.not_reached (h : Source b₁ P d) : ¬Reached b₁ P d := by
  rintro ⟨hd, hsome⟩
  rcases h with h | h
  · exact hd h
  · rw [h] at hsome
    cases hsome

/-- Pending operations read nothing that may give way. -/
theorem not_reads (h : Ahead b₀ b₁ P b) (hx : x ∈ P ∨ b₁.op? x = none)
    (hv : b.origin? v = some (.result d i)) (hd : Reached b₁ P d) : ¬b.Reads x v := by
  rintro ⟨op, hop, hmem⟩
  rcases hx with hx | hx
  · rcases Closed.madeBy h.closed hx hop hmem with ha | ⟨d', hd', j, hr⟩
    · rw [hv] at ha
      cases ha
    · rw [hv] at hr
      obtain ⟨rfl, -⟩ := Origin.result.inj (Option.some.inj hr)
      exact hd.1 hd'
  · rcases h.new hx hop hmem with ha | ⟨d', j, hr, hd'⟩
    · rw [hv] at ha
      cases ha
    · rw [hv] at hr
      obtain ⟨rfl, -⟩ := Origin.result.inj (Option.some.inj hr)
      exact Source.not_reached (hd'.imp id And.left) hd

theorem of_append {Q : List OpId} (h : Ahead b₀ b (P ++ Q) b) : Ahead b₀ b P b where
  known x hx := h.known x (List.mem_append_left _ hx)
  closed := Closed.of_append h.closed
  reads := h.reads
  same hx := h.same (List.mem_append_left _ hx)
  new hx hop := by rw [hx] at hop; cases hop

/-! ## Edits -/

/-- What a pending or a new operation reads can be read in front of it. -/
theorem stems_operand (h : Ahead b₀ b₁ P b) (hop : b.op? x = some op)
    (hx : Source b₁ P x) (hv : v ∈ op.operands) : b.Stems (Source b₁ P) v := by
  have hmade : b.origin? v = some .argument ∨ ∃ d i, b.origin? v = some (.result d i) ∧ Source b₁ P d := by
    rcases hx with hx | hx
    · exact (Closed.madeBy h.closed hx hop hv).imp id fun ⟨d, hd, i, hr⟩ => ⟨d, i, hr, .inl hd⟩
    · exact (h.new hx hop hv).imp id fun ⟨d, i, hr, hd⟩ => ⟨d, i, hr, hd.imp id And.left⟩
  rcases hmade with ha | ⟨d, i, hr, hd⟩
  · exact .inl ha
  · exact .inr ⟨d, i, hr, h.reads ⟨op, hop, hv⟩ hr, hd⟩

theorem created (h : Ahead b₀ b₁ P b) (hb : b₁.Edited b) (hv : ∀ v ∈ vs, b.Stems (Source b₁ P) v)
    (hc : Created b p kind vs tys x b') : Ahead b₀ b₁ P b' := by
  have hfresh := hc.toJoined.fresh
  have hold : ∀ {y}, y ∈ P → b'.op? y = b.op? y := fun {y} hy => by
    obtain ⟨op₁, hop₁⟩ := Option.isSome_iff_exists.1 (h.known y hy)
    obtain ⟨op', hop', -⟩ := hb.op? hop₁
    rw [hc.toJoined.op?_old hop', hop']
  have hstands : ∀ {d}, b.stands d → b'.stands d := fun {d} hd => by
    cases hop : b.op? d with
    | none => simp [stands_eq, hop] at hd
    | some op => rwa [stands_eq, hc.toJoined.op?_old hop, ← hop, ← stands_eq]
  have horigin : ∀ {v : ValueId}, v.index < b.values.size → b'.origin? v = b.origin? v :=
    fun hlt => hc.toJoined.origin?_old hlt
  have hlt : ∀ {v : ValueId} {r : Origin}, b.origin? v = some r → v.index < b.values.size :=
    fun hr => isSome_value?.1 (isSome_of_origin? hr)
  have hread : ∀ {y op v}, b'.op? y = some op → v ∈ op.operands →
      b.op? y = some op ∨ y = x ∧ v ∈ vs := fun {y op v} hop hmem => by
    rcases hc.toJoined.op?_cases hop with hop | ⟨rfl, rfl⟩
    · exact .inl hop
    · exact .inr ⟨rfl, hmem⟩
  refine ⟨h.known, Closed.mono h.closed (fun hy hop' => ⟨_, hold hy ▸ hop', List.Subset.refl _⟩) horigin,
    ?_, fun hy hop => ?_, ?_⟩
  · rintro y v d i ⟨op, hop, hmem⟩ hr
    rcases hread hop hmem with hop | ⟨rfl, hmem⟩
    · rw [horigin (hb.coherent.operand hop hmem)] at hr
      exact hstands (h.reads ⟨op, hop, hmem⟩ hr)
    · rcases hv v hmem with ha | ⟨d', i', hr', hs, -⟩
      · rw [horigin (hlt ha), ha] at hr
        cases hr
      · rw [horigin (hlt hr'), hr'] at hr
        obtain ⟨rfl, -⟩ := Origin.result.inj (Option.some.inj hr)
        exact hstands hs
  · rw [stands_eq, hold hy, ← stands_eq]
    exact h.same hy hop
  · intro y op v hy hop hmem
    rcases hread hop hmem with hop | ⟨rfl, hmem⟩
    · rw [horigin (hb.coherent.operand hop hmem)]
      exact h.new hy hop hmem
    · rcases hv v hmem with ha | ⟨d, i, hr, hs, hd⟩
      · exact .inl (by rw [horigin (hlt ha), ha])
      · refine .inr ⟨d, i, by rw [horigin (hlt hr), hr], hd.imp id fun hd => ⟨hd, ?_⟩⟩
        obtain ⟨opd, hopd, -⟩ := hb.coherent.origin hr
        rw [hc.toJoined.id]
        exact lt_of_op? hopd

theorem declared (h : Ahead b₀ b₁ P b) (hx : b₁.op? x = none) (f : Decl → Decl) :
    Ahead b₀ b₁ P (b.modifyDecl x f) := by
  refine ⟨h.known, Closed.mono h.closed (fun {y op} _ hop => ?_) fun _ => origin?_modifyDecl b x f _, ?_,
    fun {y op} hy hop => ?_, fun hy hop hmem => ?_⟩
  · obtain ⟨kind, hop', -⟩ := op?_of_modifyDecl hop
    exact ⟨_, hop', List.Subset.refl _⟩
  · rintro y v d i ⟨op, hop, hmem⟩ hr
    obtain ⟨kind, hop', -⟩ := op?_of_modifyDecl hop
    rw [stands_modifyDecl]
    exact h.reads ⟨_, hop', hmem⟩ hr
  · have hne : y ≠ x := by
      rintro rfl
      have := h.known y hy
      rw [hx] at this
      cases this
    rw [stands_modifyDecl]
    refine (h.same hy hop).imp (fun hop' => ?_) id
    rw [op?_modifyDecl, hop', Option.map_some, if_neg hne]
  · obtain ⟨kind, hop', -⟩ := op?_of_modifyDecl hop
    exact h.new hy hop' hmem

/-- Pending and new operations stay as they are when a result that was reached gives way. -/
theorem replaced_op? (h : Ahead b₀ b₁ P b) (hv : b.origin? v = some (.result d i)) (hd : Reached b₁ P d)
    (hr : Replaced b v w b') (hx : x ∈ P ∨ b₁.op? x = none) : b'.op? x = b.op? x := by
  rw [hr.op?]
  cases hop : b.op? x with
  | none => rfl
  | some op =>
    have hmap : op.operands.map (fun u => if u = v then w else u) = op.operands := by
      refine (List.map_congr_left fun u hu => if_neg ?_).trans (List.map_id _)
      rintro rfl
      exact h.not_reads hx hv hd ⟨op, hop, hu⟩
    rw [Option.map_some, hmap]

theorem replaced (h : Ahead b₀ b₁ P b) (hv : b.Loose (fun _ => Reached b₁ P) v)
    (hw : b.Stems (Source b₁ P) w) (hr : Replaced b v w b') : Ahead b₀ b₁ P b' := by
  obtain ⟨d, i, -, hvd, -, -, hd⟩ := hv
  have horigin : ∀ u, b'.origin? u = b.origin? u := hr.outlives.origin?
  refine ⟨h.known, Closed.mono h.closed (fun hx hop => ?_) fun {u} _ => horigin u, ?_, fun hx hop => ?_, ?_⟩
  · exact ⟨_, h.replaced_op? hvd hd hr (.inl hx) ▸ hop, List.Subset.refl _⟩
  · intro x u d' i' hread hu
    rw [horigin] at hu
    rw [hr.stands]
    rcases hr.reads_iff.1 hread with ⟨hread, -⟩ | ⟨rfl, -⟩
    · exact h.reads hread hu
    · rcases hw with ha | ⟨d'', i'', hr', hs, -⟩
      · rw [ha] at hu
        cases hu
      · rw [hr'] at hu
        obtain ⟨rfl, -⟩ := Origin.result.inj (Option.some.inj hu)
        exact hs
  · rw [h.replaced_op? hvd hd hr (.inl hx), hr.stands]
    exact h.same hx hop
  · intro x op u hx hop hmem
    rw [horigin]
    exact h.new hx (h.replaced_op? hvd hd hr (.inr hx) ▸ hop) hmem

theorem dropped (h : Ahead b₀ b₁ P b) (ho : o ∉ P) {f : Bool → Bool} (hf : f true = true)
    (hx : x ≠ o → f false = true ∧ ∀ op, b.op? x = some op → op.kind.isAccessor = true)
    (hread : f false = true → ¬b.ResultRead x) (hb : b.Coherent) (hd : Dropped b x f b') :
    Ahead b₀ b₁ P b' := by
  have horigin : ∀ u, b'.origin? u = b.origin? u := (hd.outlives hf).origin?
  have hop? : ∀ {y op'}, b'.op? y = some op' → ∃ op, b.op? y = some op ∧ op'.operands ⊆ op.operands := by
    intro y op' hop'
    rw [hd.op?] at hop'
    obtain ⟨op, hop, rfl⟩ := Option.map_eq_some_iff.1 hop'
    refine ⟨op, hop, ?_⟩
    split
    · exact List.nil_subset _
    · exact List.Subset.refl _
  refine ⟨h.known, Closed.mono h.closed (fun _ => hop?) fun {u} _ => horigin u, ?_, fun {y op} hy hop => ?_, ?_⟩
  · rintro y v d i ⟨op', hop', hmem⟩ hr
    obtain ⟨op, hop, hsub⟩ := hop? hop'
    rw [horigin] at hr
    have hs := h.reads ⟨op, hop, hsub hmem⟩ hr
    obtain ⟨opd, hopd, hres⟩ := hb.origin hr
    have he := erased_of_stands hopd hs
    rw [stands_eq, hd.op?, hopd]
    by_cases hdx : d = x
    · -- what is erased is read by nothing
      subst hdx
      cases hff : f false with
      | false => simp [he, hff]
      | true => exact absurd ⟨opd, v, y, hopd, List.mem_of_getElem? hres, op, hop, hsub hmem⟩ (hread hff)
    · simp [hdx, he]
  · by_cases hyx : y = x
    · subst hyx
      obtain ⟨hff, hacc⟩ := hx fun hyo => ho (hyo ▸ hy)
      rcases h.same hy hop with hop' | ⟨hacc', hs⟩
      · refine .inr ⟨hacc op hop', ?_⟩
        rw [stands_eq, hd.op?, hop']
        cases he : op.erased <;> simp [he, hf, hff]
      · refine .inr ⟨hacc', fun hs' => hs ?_⟩
        rw [stands_eq, hd.op?] at hs'
        rw [stands_eq]
        cases hop' : b.op? y with
        | none => rw [hop'] at hs'; cases hs'
        | some op' =>
          cases he : op'.erased
          · simp [he]
          · rw [hop'] at hs'
            simp [he, hf] at hs'
    · have hop' : b'.op? y = b.op? y := by
        rw [hd.op?]
        cases b.op? y with
        | none => rfl
        | some op' => rw [Option.map_some, if_neg hyx]
      rw [stands_eq, hop', ← stands_eq]
      exact h.same hy hop
  · intro y op' v hy hop' hmem
    obtain ⟨op, hop, hsub⟩ := hop? hop'
    rw [horigin]
    exact h.new hy hop (hsub hmem)

/-! ## Steps -/

/-- What a step made is pending in front of the next. -/
theorem next (h : Ahead b₀ b₁ P b) (h₀ : b₀.Edited b₁) (hg : b₁.Grown N b) (hfresh : ∀ x ∈ N, b₁.op? x = none)
    (hknown : ∀ x ∈ N, (b.op? x).isSome) : Ahead b₀ b (P ++ N) b where
  known x hx := by
    rcases List.mem_append.1 hx with hx | hx
    · obtain ⟨op, hop⟩ := Option.isSome_iff_exists.1 (h.known x hx)
      obtain ⟨op', hop', -⟩ := hg.edited.op? hop
      rw [hop']
      rfl
    · exact hknown x hx
  closed := by
    intro Q₁ x Q₂ op v he hop hmem
    have hcut : (∃ R, P = Q₁ ++ x :: R) ∨ ∃ R, Q₁ = P ++ R ∧ N = R ++ x :: Q₂ := by
      rcases List.append_eq_append_iff.1 he with ⟨R, hQ, hN⟩ | ⟨_ | ⟨y, R⟩, hP, hx⟩
      · exact .inr ⟨R, hQ, hN⟩
      · exact .inr ⟨[], by simpa using hP.symm, by simpa using hx.symm⟩
      · obtain ⟨rfl, -⟩ := List.cons.inj hx
        exact .inl ⟨R, hP⟩
    rcases hcut with ⟨R, hP⟩ | ⟨R, rfl, hN⟩
    · exact h.closed hP hop hmem
    -- the operation is new, and its operands were made before it
    have hxN : x ∈ N := hN ▸ List.mem_append_right _ List.mem_cons_self
    rcases h.new (hfresh x hxN) hop hmem with ha | ⟨d, i, hr, hd | ⟨hd, hlt⟩⟩
    · exact .inl ha
    · exact .inr ⟨d, List.mem_append_left _ hd, i, hr⟩
    · obtain ⟨opd, hopd, -⟩ := hg.edited.coherent.origin hr
      have hdN := hg.recent hd (by rw [hopd]; rfl)
      have hsorted := hg.sorted
      refine .inr ⟨d, List.mem_append_right _ ?_, i, hr⟩
      rw [hN] at hdN hsorted
      rcases List.mem_append.1 hdN with hdR | hdx
      · exact hdR
      rcases List.mem_cons.1 hdx with rfl | hdQ
      · exact absurd hlt (Nat.lt_irrefl _)
      · have := (List.pairwise_cons.1 (List.pairwise_append.1 hsorted).2.1).1 d hdQ
        omega
  reads := h.reads
  same {x op} hx hop := by
    rcases List.mem_append.1 hx with hx | hx
    · exact h.same hx hop
    · obtain ⟨op', hop', -⟩ := h₀.op? hop
      rw [hfresh x hx] at hop'
      cases hop'
  new hx hop := by rw [hx] at hop; cases hop

end Ahead

/-! ## Operations that are reached -/

namespace Body

variable {b b₀ : Body} {x : OpId} {v : ValueId} {op : Operation} {vs : List ValueId}

theorem definer_congr (h : b.origin? v = b₀.origin? v) : b.definer v = b₀.definer v := by
  unfold origin? at h
  unfold definer
  rw [value_eq, value_eq]
  cases hx : b.value? v with
  | none =>
    rw [hx, Option.map_none, eq_comm, Option.map_eq_none_iff] at h
    rw [h]
  | some y =>
    rw [hx, Option.map_some, eq_comm, Option.map_eq_some_iff] at h
    obtain ⟨y₀, hy₀, he⟩ := h
    rw [hy₀]
    dsimp only [orOutOfRange, bind, Except.bind]
    rw [he]

theorem typeOf_congr (h : b.ty? v = b₀.ty? v) : b.typeOf v = b₀.typeOf v := by
  unfold ty? at h
  unfold typeOf
  rw [value_eq, value_eq]
  cases hx : b.value? v with
  | none =>
    rw [hx, Option.map_none, eq_comm, Option.map_eq_none_iff] at h
    rw [h]
  | some y =>
    rw [hx, Option.map_some, eq_comm, Option.map_eq_some_iff] at h
    obtain ⟨y₀, hy₀, he⟩ := h
    rw [hy₀]
    exact congrArg Except.ok he.symm

theorem constant?_congr (h : b.origin? v = b₀.origin? v)
    (hk : ∀ d i, b₀.origin? v = some (.result d i) → b.kindOf d = b₀.kindOf d) :
    b.constant? v = b₀.constant? v := by
  unfold constant?
  rw [definer_congr h]
  cases hd : b₀.definer v with
  | error => rfl
  | ok d? =>
    cases d? with
    | none => rfl
    | some d =>
      have hdef : Ends False (b₀.definer v) fun d? => ∀ d, d? = some d → ∃ i, b₀.origin? v = some (.result d i) :=
        definer_ends (fun _ => nofun) (fun d i hd d' hd' => ⟨i, Option.some.inj hd' ▸ hd⟩) nofun
      obtain ⟨i, hr⟩ := hdef.of_ok hd d rfl
      change (b.kindOf d >>= _) = (b₀.kindOf d >>= _)
      rw [hk d i hr]

/-- Whether an access is dynamic is a matter of the access, of the types of what it reads, and of what
makes its position. -/
theorem isDynamic_congr (hop : b.op? x = b₀.op? x) (h : ∀ op, b₀.op? x = some op → ∀ v ∈ op.operands,
      b.ty? v = b₀.ty? v ∧ b.origin? v = b₀.origin? v ∧
      ∀ d i, b₀.origin? v = some (.result d i) → b.kindOf d = b₀.kindOf d) :
    b.isDynamic x = b₀.isDynamic x := by
  have hkind : b.kindOf x = b₀.kindOf x := by
    unfold kindOf
    rw [op_eq, op_eq, hop]
  have hoperand : ∀ i, b.operand x i = b₀.operand x i := fun i => by
    unfold operand
    rw [op_eq, op_eq, hop]
  have hread : ∀ {i v}, b₀.operand x i = .ok v → ∃ op, b₀.op? x = some op ∧ v ∈ op.operands := fun {i v} hv =>
    (operand_ends (Q := fun v => ∃ op, b₀.op? x = some op ∧ v ∈ op.operands)
      (fun op v hop hv => ⟨op, hop, List.mem_of_getElem? hv⟩) (nofun : False → _)).of_ok hv
  unfold isDynamic
  rw [hkind, hoperand, hoperand]
  refine bind_congr fun kind => ?_
  split
  · cases hy : b₀.operand x 1 with
    | error => rfl
    | ok y =>
      obtain ⟨op, hop₀, hmem⟩ := hread hy
      obtain ⟨-, horigin, hd⟩ := h op hop₀ y hmem
      change (b.constant? y >>= _) = (b₀.constant? y >>= _)
      rw [constant?_congr horigin hd]
      refine bind_congr fun literal => ?_
      cases hw : b₀.operand x 0 with
      | error => rfl
      | ok w =>
        obtain ⟨op, hop₀, hmem⟩ := hread hw
        change (b.typeOf w >>= _) = (b₀.typeOf w >>= _)
        rw [typeOf_congr (h op hop₀ w hmem).1]
  · rfl

theorem Ground.edited (h : b₀.Ground vs) (he : b₀.Edited b) (hvs : ∀ v ∈ vs, (b₀.value? v).isSome) :
    b.Ground vs := by
  intro v hv t ht
  obtain ⟨y, hy⟩ := Option.isSome_iff_exists.1 (hvs v hv)
  have ht₀ := (ty?_eq_some_iff (t := y.ty)).2 ⟨y, hy, rfl⟩
  rw [he.ty? ht₀] at ht
  exact Option.some.inj ht ▸ h v hv _ ht₀

end Body

namespace Ahead

variable {b₀ b₁ b : Body} {P : List OpId} {o x y : OpId} {v w : ValueId} {cx : Context} {op : Operation}

/-- The accessors that lead to what a pending operation reads are as they were. -/
theorem leads (h : Ahead b₀ b₁ P b) (h₀ : b₀.Coherent)
    (horigin : ∀ {v : ValueId}, v.index < b₀.values.size → b.origin? v = b₀.origin? v) {path : List OpId}
    (hl : b.Leads v path w) : ∀ {y}, y ∈ P → b.Reads y v → v.index < b₀.values.size →
      b₀.Leads v path w ∧ ∀ x ∈ path, ∃ op, b.op? x = some op ∧ b₀.op? x = some op := by
  induction hl with
  | nil => exact fun _ _ _ => ⟨.nil, nofun⟩
  | @cons v u w x i op path hv hop hacc hu _ ih =>
    rintro y hy ⟨opy, hopy, hmem⟩ hlt
    have hs := h.reads ⟨opy, hopy, hmem⟩ hv
    have hx : x ∈ P := by
      rcases Closed.madeBy h.closed hy hopy hmem with ha | ⟨d, hd, j, hr⟩
      · rw [hv] at ha
        cases ha
      · rw [hv] at hr
        obtain ⟨rfl, -⟩ := Origin.result.inj (Option.some.inj hr)
        exact hd
    have hv₀ := horigin hlt ▸ hv
    obtain ⟨op₀, hop₀, -⟩ := h₀.origin hv₀
    obtain rfl : op₀ = op := by
      rcases h.same hx hop₀ with hop' | ⟨-, hs'⟩
      · exact Option.some.inj (hop'.symm.trans hop)
      · exact absurd hs hs'
    have hu' := List.mem_of_getElem? hu
    obtain ⟨hl₀, hpath⟩ := ih hx ⟨op₀, hop, hu'⟩ (h₀.operand hop₀ hu')
    exact ⟨.cons hv₀ hop₀ hacc hu hl₀, List.forall_mem_cons.2 ⟨⟨op₀, hop, hop₀⟩, hpath⟩⟩

/-- An operation that lowering leaves alone is as it was when it is reached, and is left alone. -/
theorem spared (h : Ahead b₀ b₁ P b) (h₀ : b₀.Coherent) (he : b₀.Edited b)
    (horigin : ∀ {v : ValueId}, v.index < b₀.values.size → b.origin? v = b₀.origin? v) (ho : o ∈ P)
    (hop : b₀.op? o = some op) (hs : b₀.Spared cx op) : b.op? o = some op ∧ b.Spared cx op := by
  have hop' : b.op? o = some op := by
    rcases h.same ho hop with hop' | ⟨hacc, -⟩
    · exact hop'
    · rw [hs.not_isAccessor] at hacc
      cases hacc
  have hresults : ∀ v ∈ op.results, (b₀.value? v).isSome := fun v hv => by
    obtain ⟨i, hi⟩ := List.mem_iff_getElem?.1 hv
    exact isSome_of_origin? (h₀.result hop hi)
  have hoperands : ∀ v ∈ op.operands, (b₀.value? v).isSome := fun v hv =>
    isSome_value?.2 (h₀.operand hop hv)
  have hfirst : ∀ {v}, op.operands[0]? = some v → ∀ u ∈ [v], (b₀.value? u).isSome := fun {v} hv u hu =>
    List.mem_singleton.1 hu ▸ hoperands v (List.mem_of_getElem? hv)
  refine ⟨hop', ?_⟩
  unfold Body.Spared at hs ⊢
  cases hk : op.kind with
  | subfield | subindex | subaccess =>
    rw [hk] at hs
    exact hs.elim
  | connect strict =>
    rw [hk] at hs
    intro v hv
    obtain ⟨hground, hcomputes⟩ := hs v hv
    have hmem := List.mem_of_getElem? hv
    refine ⟨hground.edited he (hfirst hv), fun ⟨path, w, x, hl, hx, hd⟩ => hcomputes ?_⟩
    obtain ⟨hl₀, hpath⟩ := h.leads h₀ horigin hl ho ⟨op, hop', hmem⟩ (h₀.operand hop hmem)
    obtain ⟨opx, hopx, hopx₀⟩ := hpath x hx
    refine ⟨path, w, x, hl₀, hx, ?_⟩
    rw [← hd]
    refine (isDynamic_congr (by rw [hopx, hopx₀]) fun op' hop' u hu => ?_).symm
    have hlt := h₀.operand hop' hu
    obtain ⟨y, hy⟩ := Option.isSome_iff_exists.1 (isSome_value?.2 hlt)
    have hty := (ty?_eq_some_iff (t := y.ty)).2 ⟨y, hy, rfl⟩
    refine ⟨by rw [he.ty? hty, hty], horigin hlt, fun d i hr => ?_⟩
    obtain ⟨opd, hopd, -⟩ := h₀.origin hr
    obtain ⟨opd', hopd', hkd, -⟩ := he.op? hopd
    unfold kindOf
    rw [op_eq, op_eq, hopd, hopd']
    exact congrArg Except.ok hkd
  | bitcast =>
    rw [hk] at hs
    exact ⟨hs.1.edited he hresults, fun v hv => (hs.2 v hv).edited he (hfirst hv)⟩
  | mem m =>
    rw [hk] at hs
    exact hs
  | inst i =>
    rw [hk] at hs
    intro entry hentry e hmem t ht
    obtain ⟨y, hy⟩ := Option.isSome_iff_exists.1 (hresults e.2 (List.of_mem_zip hmem).2)
    have hty := (ty?_eq_some_iff (t := y.ty)).2 ⟨y, hy, rfl⟩
    rw [he.ty? hty] at ht
    exact hs entry hentry e hmem t (ht ▸ hty)
  | «when» => trivial
  | _ =>
    rw [hk] at hs
    exact hs.edited he hresults

end Ahead

end Scalarize
