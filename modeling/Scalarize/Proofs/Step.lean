import Scalarize.Proofs.Handover
import Scalarize.Proofs.Targets

/-!
# Single steps

* `Lowering.stage` : what holds between two steps of the walk;
* `Making.replaceAllUses_ends` : readers are handed over while operations are made;
* `Start.making`, `Start.front`, `Start.readable` : what holds when an operation is taken up;
* `Start.stepped`, `Start.kept` : an operation has given way, or stays.
-/

namespace Scalarize

open Body

/-- A body between two steps of the walk. -/
def Lowering.stage (q : Setting) : Stage := fun b y R P D => Lowering q b R P [] D ∧ b.Tracked y

/-- The readers of what an operation made read what was made since it was taken up. -/
theorem Making.replaceAllUses_ends {q : Setting} {b₀ b : Body} {R₀ R : OpId → Nat}
    {P D N : List OpId} {o : OpId} {i : Nat} {old new : ValueId} {t u : Ty}
    (h : Making q b₀ R₀ P o D N b R) (hold : b.origin? old = some (.result o i))
    (ht : b.ty? old = some t) (hnew : MadeIn N b new) (hu : b.ty? new = some u) (hag : t.Agree u) :
    Ends q.must (b.replaceAllUses old new) fun b' =>
      Making q b₀ R₀ P o D N b' R ∧ Replaced b old new b' ∧ old ≠ new := by
  have hb := h.holds.coherent
  obtain ⟨o', ho', kind, vs, hmk⟩ := hnew
  have horigin := hmk.origin? hb (i := 0) rfl
  have hne : old ≠ new := by
    rintro rfl
    rw [hold] at horigin
    obtain ⟨rfl, -⟩ : o = o' ∧ i = 0 := by simpa using horigin
    exact h.not_mem (List.mem_append_right _ ho')
  refine (h.holds.replaceAllUses_ends hne ht hu hag ?_ fun hord => ⟨?_, ?_⟩).mono
    fun b' ⟨hlow, hrep⟩ => ⟨⟨hlow, h.persists.trans hrep.persists, h.same, h.lower, ?_⟩, hrep, hne⟩
  · intro d i opd hd hopd
    rw [horigin] at hd
    obtain ⟨rfl, -⟩ : o' = d ∧ 0 = i := by simpa using hd
    obtain ⟨op'', hop'', -, -, -, he⟩ := hmk
    rw [hopd] at hop''
    rw [Option.some.inj hop'', he]
  · exact h.not_reads hord hold
  · exact .inr ⟨o', List.mem_append_right _ ho', 0, horigin⟩
  · intro x hx
    obtain ⟨op, hop, he⟩ := h.stands x hx
    obtain ⟨op', hop', -, -, he'⟩ := hrep.persists.op? hop
    exact ⟨op', hop', he'.trans he⟩

namespace Start

variable {q : Setting} {b₀ : Body} {R₀ : OpId → Nat} {P D : List OpId} {o : OpId} {k : BlockId}
  {A B : List OpId}

theorem making (h : Start q b₀ R₀ P o D k A B) : Making q b₀ R₀ P o D [] b₀ R₀ where
  holds := by simpa using h.holds.begin
  persists := .refl b₀
  same _ _ := rfl
  lower _ _ hx := by cases hx
  stands _ hx := by cases hx

theorem exists_block (h : Start q b₀ R₀ P o D k A B) : (b₀.block? k).isSome := by
  obtain ⟨blk, hblk⟩ := exists_block_of_mem_slotsOf
    (h.slots ▸ List.mem_append_right A List.mem_cons_self)
  rw [hblk]
  rfl

theorem inFront (h : Start q b₀ R₀ P o D k A B) :
    InFront b₀ k A (o :: B) [] [] ⟨b₀, ⟨k, A.length⟩⟩ :=
  .start (s := ⟨b₀, ⟨k, A.length⟩⟩) h.holds.coherent h.slots h.exists_block rfl

theorem front (h : Start q b₀ R₀ P o D k A B) :
    Front q b₀ R₀ P o D k A B [] ⟨b₀, ⟨k, A.length⟩⟩ :=
  ⟨⟨[], h.inFront⟩, R₀, h.making⟩

theorem not_mem (h : Start q b₀ R₀ P o D k A B) : o ∉ P := fun hmem => by
  have := h.holds.nodup
  rw [List.append_nil, List.nodup_append, List.nodup_append] at this
  exact this.1.2.2 o hmem o (List.mem_singleton_self o) rfl

/-- The operands of the operation may be read by what it gives way to. -/
theorem readable (h : Start q b₀ R₀ P o D k A B) {op : Operation} (hop : b₀.op? o = some op)
    {v : ValueId} (hv : v ∈ op.operands) : b₀.Readable q P v := by
  refine ⟨h.holds.coherent.operand hop hv, fun hord => ?_, fun {d i} hr => ?_⟩
  · exact h.holds.closed hord (rfl : P ++ [o] = P ++ o :: []) hop hv
  · obtain ⟨opd, hopd, -⟩ := h.holds.coherent.origin hr
    exact ⟨opd, hopd, h.holds.not_read_of_erased ⟨op, hop, hv⟩ hr hopd⟩

/-- The operation does not read what it makes. -/
theorem not_reads_own (h : Start q b₀ R₀ P o D k A B) (hord : q.ordered) {v : ValueId} {i : Nat}
    (hv : b₀.origin? v = some (.result o i)) : ¬b₀.Reads o v := by
  rintro ⟨op, hop, hmem⟩
  rcases (h.readable hop hmem).2.1 hord with ha | ⟨d, hd, j, hr⟩
  · rw [hv] at ha
    cases ha
  · rw [hv] at hr
    obtain ⟨rfl, -⟩ : o = d ∧ i = j := by simpa using hr
    exact h.not_mem hd

theorem shaped (h : Start q b₀ R₀ P o D k A B) {op : Operation} (hop : b₀.op? o = some op)
    (he : op.erased = false) :
    ∃ ins outs, b₀.Types op.operands ins ∧ b₀.Types op.results outs ∧ op.kind.Shaped q.strict ins outs :=
  h.holds.typed List.not_mem_nil hop he

theorem ready (h : Start q b₀ R₀ P o D k A B) (hm : q.must) {op : Operation} {outs : List Ty}
    (hop : b₀.op? o = some op) (he : op.erased = false) (houts : b₀.Types op.results outs) :
    b₀.Ready q op.kind op.operands outs ∧ b₀.Suffices q op.kind op.operands outs (R₀ o) :=
  h.holds.ready hm (by simp) hop he houts

/-- The operation has given way to what was made in front of it, and only waits to be erased. -/
theorem stepped (h : Start q b₀ R₀ P o D k A B) {H N : List OpId} {s : Builder} {R : OpId → Nat}
    {t : LowerState} (hH : InFront b₀ k A (o :: B) H N s) (hR : Making q b₀ R₀ P o D N s.body R)
    (hplain : b₀.guardedBlocks o = []) (hout : Outlives s.body t.builder.body)
    (hlow : Lowering q t.builder.body R (P ++ N) [o] D) (htr : t.builder.body.Tracked t.symbols)
    (hm : q.must → ¬t.builder.body.ResultRead o) :
    Stepped q.must (Lowering.stage q) b₀ R₀ k A o B P D true t := by
  have hH' := hH.outlives hout
  refine ⟨H, N, R, hH'.slots, hH'.unfolds, hH'.untouched, hH.fresh, hR.same, hR.lower, ?_⟩
  refine (hlow.eraseOp_ends (fun {op} hop => ?_) hm).mono fun b' ⟨hout', hlow'⟩ =>
    ⟨hout', hlow', htr.outlives hout'⟩
  rw [← guardedBlocks_eq hop, hH'.untouched.guardedBlocks (h.holds.isSome (by simp)), hplain]

/-- The operation stays as it is. -/
theorem kept (h : Start q b₀ R₀ P o D k A B) {t : LowerState} (hb : t.builder.body = b₀)
    (htr : b₀.Tracked t.symbols)
    (hs : ∀ {op}, b₀.op? o = some op → op.erased = false → ∃ ins outs, b₀.Types op.operands ins ∧
      b₀.Types op.results outs ∧ op.kind.Shaped q.strict ins outs ∧ op.kind.Settled q.cx ins outs)
    (hq : q.must → ∀ {op v t}, b₀.op? o = some op → v ∈ op.operands → b₀.ty? v = some t →
      t.isGround = false → op.kind.fixedIndex?.isSome) :
    Stepped q.must (Lowering.stage q) b₀ R₀ k A o B P D false t := by
  subst hb
  refine ⟨[], [], R₀, by simpa using h.slots, .nil, .refl _ _ _, by simp, fun _ _ => rfl, by simp, ?_⟩
  refine .ok ⟨.refl _, ?_, htr⟩
  rw [List.append_nil]
  exact h.holds.begin.stay hs hq

end Start

end Scalarize
