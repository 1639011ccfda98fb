import Scalarize.Lower.Block
import Scalarize.Proofs.Step.Cast
import Scalarize.Proofs.Step.Connect
import Scalarize.Proofs.Step.Instance
import Scalarize.Proofs.Walk

/-!
# Every step keeps what holds of a body under way

* `Start.step_runs` : an operation of any kind is lowered by one layer;
* `Lowering.stages` : what holds between two steps holds throughout the walk.
-/

namespace Scalarize

open Body Lower

variable {q : Setting} {b₀ : Body} {R₀ : OpId → Nat} {P D : List OpId} {o : OpId} {k : BlockId}
  {A B : List OpId} {op : Operation} {y : Symbols}

/-- An operation, other than a guard, is lowered by one layer. -/
theorem Start.step_runs (h : Start q b₀ R₀ P o D k A B) (htr : b₀.Tracked y)
    (hop : b₀.op? o = some op) (he : op.erased = false) (hblocks : op.kind.blocks = []) :
    Runs q.must (Lower.step q.cx o op.kind) ⟨⟨b₀, ⟨k, A.length⟩⟩, y⟩
      (Stepped q.must (Lowering.stage q) b₀ R₀ k A o B P D) := by
  have hkept := h.kept_runs htr hop he
  have hproducer := h.producer_runs htr hop he
  cases hk : op.kind with
  | bitcast => exact h.bitcast_runs htr hop he hk
  | subaccess => exact h.subaccess_runs htr hop he hk
  | connect strict => exact h.connect_runs htr hop he hk
  | mem m => exact h.memory_runs htr hop he hk
  | inst i => exact h.inst_runs htr hop he hk
  | constant n =>
    rw [hk] at hkept
    exact hkept (.inl ⟨n, rfl⟩)
  | prim p =>
    rw [hk] at hkept
    exact hkept (.inr (.inl ⟨p, rfl⟩))
  | subfield i | subindex i =>
    rw [hk] at hkept
    exact hkept (.inr (.inr rfl))
  | «when» t e =>
    rw [hk] at hblocks
    cases e <;> cases hblocks
  | _ =>
    rw [hk] at hproducer
    exact hproducer rfl

/-- What holds between two steps holds throughout the walk. -/
theorem Lowering.stages (q : Setting) : Stages q.must q.cx (Lowering.stage q) where
  coherent h := h.1.coherent
  nodup h := by simpa using h.1.nodup
  known h x hx := h.1.known (by simpa using hx)
  guards := ⟨fun _ => False, fun h hop hk => ⟨fun he => hk (h.1.plain hop he), False.elim⟩⟩
  nested h hm hx hx' := h.1.nested hm hx hx'
  skip h hop he hL := by
    -- an erased operation guards nothing
    rw [inner_eq_nil hop (h.1.plain hop he)] at hL
    cases hL
    refine ⟨h.1.begin.finish fun hop' => ?_, h.2⟩
    rw [hop] at hop'
    rw [← Option.some.inj hop', he]
  pass {b y R P D o op L} h hop hk _ := by
    refine ⟨h.1.begin.stay (fun {op'} hop' he => ?_) fun hm {op' v t} hop' hv ht hg => ?_, h.2⟩
    · obtain ⟨ins, outs, hins, houts, hsh⟩ := h.1.typed List.not_mem_nil hop' he
      rw [hop] at hop'
      obtain rfl := Option.some.inj hop'
      refine ⟨ins, outs, hins, houts, hsh, ?_⟩
      cases hkind : op.kind <;> rw [hkind] at hk <;> trivial
    · rw [hop] at hop'
      obtain rfl := Option.some.inj hop'
      have he : op.erased = false := by
        cases he : op.erased with
        | false => rfl
        | true => exact absurd (h.1.plain hop he) hk
      obtain ⟨ins, outs, hins, houts, -⟩ := h.1.typed List.not_mem_nil hop he
      obtain ⟨⟨⟨ins', hins', hck⟩, -⟩, -⟩ := h.1.ready hm (by simp) hop he houts
      cases hkind : op.kind with
      | «when» b e =>
        rw [hkind] at hck
        obtain ⟨c, rfl, hc, -⟩ := hck
        obtain ⟨w, hw, hops⟩ := hins'.singleton
        rw [hops, List.mem_singleton] at hv
        subst hv
        rw [ht] at hw
        rw [Option.some.inj hw, hc] at hg
        cases hg
      | _ => rw [hkind] at hk; exact absurd rfl hk
  step {t R P D o op k A B} h hop hw hk hs hp := by
    obtain ⟨⟨b, p⟩, y⟩ := t
    obtain rfl : p = _ := hp
    exact Start.step_runs ⟨h.1, hs⟩ h.2 hop (erased_of_stands hop hw.stands) hk

end Scalarize
