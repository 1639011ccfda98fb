import Scalarize.Proofs.Meaning.Instances
import Scalarize.Proofs.Meaning.Writes

/-!
# Bodies keep their effects

* `Due.step_runs` : an operation of any kind is lowered by one layer;
* `Stages.pending` : properties of bodies and what is pending in them;
* `Body.Retains`, `Lower.lowerBlock_retains` : a body is lowered to the end, and has the effects that it had.
-/

namespace Scalarize

open Body Lower

variable {cx : Context} {I : Interpretation} {idle : OpId → Prop} {P : List OpId} {S : ValueId → Sense} {o : OpId}
  {op : Operation} {k : BlockId} {A B : List OpId} {s : Builder} {y : Symbols}

/-- An operation of any kind is lowered by one layer. -/
theorem Due.step_runs (h : Due I idle P S o op k A B s) : Runs False (Lower.step cx o op.kind) ⟨s, y⟩
    fun replaced t' => Rendered I idle P S o k A B s replaced t'.builder := by
  have hmeant := h.heeds.meant
  have hproducer : (∀ strict, op.kind ≠ .connect strict) → Runs False (producer o cx.options.preserveAggregate op.kind)
      ⟨s, y⟩ fun replaced t' => Rendered I idle P S o k A B s replaced t'.builder := fun hc => h.producer_runs hc _
  cases hk : op.kind with
  | bitcast => exact h.bitcast_runs hk
  | subaccess => exact h.subaccess_runs hk
  | connect strict => exact h.connect_runs hk
  | inst i => exact h.inst_runs cx hk
  | mem m =>
    rw [hk] at hmeant
    exact hmeant.elim
  | _ =>
    rw [hk] at hproducer
    exact hproducer nofun

/-! ## Stages -/

/-- A property of bodies and what is pending in them is kept if every step keeps it. -/
theorem Stages.pending {Inv : Stage} (h : Stages False cx Inv) {T : Body → List OpId → Prop}
    (hskip : ∀ {b y R P D o op L}, Inv b y R (P ++ o :: L) D → T b (P ++ o :: L) → b.op? o = some op → op.erased →
      Unfolds b (b.inner o) L → T b P)
    (hpass : ∀ {b y R P D o op}, Inv b y R (P ++ [o]) D → T b (P ++ [o]) → b.op? o = some op → op.kind.blocks ≠ [] →
      T b P)
    (hstep : ∀ {t : LowerState} {R P D o op k A B}, Inv t.builder.body t.symbols R (P ++ [o]) D →
      T t.builder.body (P ++ [o]) → t.builder.body.op? o = some op → t.builder.body.Walked o → op.kind.blocks = [] →
      t.builder.body.slotsOf k = A ++ o :: B → t.builder.point = ⟨k, A.length⟩ →
      Runs False (Lower.step cx o op.kind) t fun replaced t' => ∃ H N, t'.builder.body.slotsOf k = A ++ H ++ o :: B ∧
        Unfolds t'.builder.body H N ∧
        Ends False (if replaced then t'.builder.body.eraseOp o else .ok t'.builder.body) (T · (P ++ N))) :
    Stages False cx fun b y R P D => Inv b y R P D ∧ T b P where
  coherent hI := h.coherent hI.1
  nodup hI := h.nodup hI.1
  known hI := h.known hI.1
  guards := by
    obtain ⟨E, hE⟩ := h.guards
    exact ⟨E, fun hI => hE hI.1⟩
  nested hI := h.nested hI.1
  skip hI hop he hL := ⟨h.skip hI.1 hop he hL, hskip hI.1 hI.2 hop he hL⟩
  pass hI hop hk hL := ⟨h.pass hI.1 hop hk hL, hpass hI.1 hI.2 hop hk⟩
  step {t R P D o op k A B} hI hop hw hblocks hs hp := by
    refine ((h.step hI.1 hop hw hblocks hs hp).and (hstep hI.1 hI.2 hop hw hblocks hs hp)).mono ?_
    rintro replaced t' ⟨⟨H, N, R', hslots, hH, hlocal, hnew, hR, hlt, hends⟩, H', N', hslots', hH', hends'⟩
    -- both speak of the same new operations
    obtain rfl : H = H' := by simpa using hslots.symm.trans hslots'
    obtain rfl := hH.unique hH'
    refine ⟨H, N, R', hslots, hH, hlocal, hnew, hR, hlt, ?_⟩
    exact (hends.and hends').mono fun b' ⟨⟨hout, hI'⟩, hT⟩ => ⟨hout, hI', hT⟩

namespace Body

/-- Operations that were not walked at first. -/
def Unwalked (b₀ : Body) (x : OpId) : Prop := (b₀.op? x).isSome ∧ ¬b₀.Walked x

/-- The operations agree on senses in which the body has the effects `E`. -/
def Retains (I : Interpretation) (idle : OpId → Prop) (E : List Effect) (b : Body) (P : List OpId) : Prop :=
  ∃ S, b.Interpreted I idle P S ∧ b.effects S = E

variable {b₀ : Body} {E : List Effect}

/-- The bodies of a walk keep the effects of the first. -/
theorem Coherent.retains_stages (hb₀ : b₀.Coherent) {Inv : Stage} (h : Stages False cx Inv)
    (hedited : ∀ {b y R P D}, Inv b y R P D → b₀.Edited b) :
    Stages False cx fun b y R P D => Inv b y R P D ∧ b.Retains I b₀.Unwalked E P := by
  refine h.pending (fun {b y R P D o op L} hI ⟨S, hi, hE⟩ hop he hL => ⟨S, hi.retire fun hx hact => ?_, hE⟩)
    (fun {b y R P D o op} hI ⟨S, hi, hE⟩ hop hk => ⟨S, hi.retire fun hx hact strict hkind => ?_, hE⟩)
    fun {t R P D o op k A B} hI ⟨S, hi, hE⟩ hop hw hblocks hs hp => ?_
  · exact absurd (hi.walked hact) ((h.coherent hI).not_walked hop he hL _ hx)
  · obtain rfl := List.mem_singleton.1 hx
    rw [Option.some.inj (hop.symm.trans hact.op?), hkind] at hk
    exact absurd rfl hk
  · have hb := h.coherent hI
    have hbusy : ∀ x, t.builder.body.Walked x → ¬b₀.Unwalked x := fun x hx hun =>
      hun.2 ((hedited hI).walked hb₀ hx hun.1)
    have hdue : Due I b₀.Unwalked P S o op k A B t.builder :=
      { interpreted := hi, busy := hbusy, active := ⟨hop, erased_of_stands hop hw.stands, hbusy o hw⟩, plain := hblocks
        new := fun hmem => by
          have := h.nodup hI
          rw [List.nodup_append, List.nodup_append] at this
          exact this.1.2.2 o hmem o (List.mem_singleton_self o) rfl
        slots := hs, point := hp }
    refine (hdue.step_runs (y := t.symbols)).mono fun replaced t' hout => ?_
    cases replaced with
    | false =>
      obtain ⟨hsame, hi'⟩ := hout
      refine ⟨[], [], by rw [hsame]; simpa using hs, .nil, .ok ⟨S, ?_⟩⟩
      rw [hsame, List.append_nil]
      exact ⟨hi', hE⟩
    | true =>
      obtain ⟨H, N, S', hsup⟩ := hout
      refine ⟨H, N, hsup.front.slots, hsup.front.unfolds, ?_⟩
      obtain ⟨idle', -, -, hi'⟩ := hsup.interpreted
      obtain ⟨op', hop', hbare, -⟩ := hsup.front.untouched.op? hop
      refine (eraseOp_ends hi'.coherent (fun op₁ hop₁ => ?_) nofun).mono fun b' he => ?_
      · rw [Option.some.inj (hop₁.symm.trans hop'), OpKind.blocks_eq_of_bare_eq hbare, hblocks]
      · obtain ⟨hi'', heffects⟩ := hsup.erased hdue he
        exact ⟨S', hi'', heffects.trans hE⟩

end Body

/-- A body is lowered to the end, and has the effects that it had. -/
theorem Lower.lowerBlock_retains {b : Body} {E : List Effect} {L : List OpId} (hb : b.Coherent)
    (hL : Unfolds b (b.slotsOf Body.entry) L) (h : b.Retains I b.Unwalked E L) (n : Nat) (p : Point) :
    Runs False (lowerBlock cx n Body.entry) ⟨⟨b, p⟩, y⟩ fun _ t =>
      t.builder.body.Retains I b.Unwalked E [] ∧ t.builder.body.args = b.args := by
  obtain ⟨blk, hblk, -⟩ := hb.entry
  obtain ⟨E', hI⟩ : ∃ E, b.Tidy E L [] := ⟨_, .start hb hL⟩
  have hstages := hb.retains_stages (I := I) (E := E)
    ((Body.Tidy.stages cx E').refine (Body.Tidy.refines_whole b)) fun hI => hI.2.1
  refine (hstages.lowerBlock_runs (t := ⟨⟨b, p⟩, y⟩) (P := []) (L := L) (D := []) (R := fun _ => 0)
    ⟨⟨hI, .refl hb, nofun⟩, h⟩ (by simp [hblk]) (.inl rfl) hL nofun).mono ?_
  rintro _ t ⟨C, N, R', -, -, ⟨-, h'⟩, hloc, -⟩
  exact ⟨h', hloc.args⟩

end Scalarize
