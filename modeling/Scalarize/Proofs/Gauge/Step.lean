import Scalarize.Proofs.Gauge.Access
import Scalarize.Proofs.Gauge.Cast
import Scalarize.Proofs.Gauge.Instance
import Scalarize.Proofs.Gauge.Memory

/-!
# Steps within a gauge

* `Limits.made` : no step makes more operations;
* `Site.idle_runs` : an operation of rank zero stays as it is;
* `Site.step_runs` : what a step makes ranks below the operation that it is over.
-/

namespace Scalarize

open Body Lower

/-- Operations that one step makes, at most. -/
def Limits.made (L : Limits) : Nat := (L.breadth + 1) * (21 * (L.breadth + 1) + L.chain)

namespace Limits

variable (L : Limits)

theorem made_eq : L.made = 21 * (L.breadth * L.breadth) + L.breadth * L.chain + 42 * L.breadth + L.chain + 21 := by
  unfold made
  ring

theorem producer_le_made : L.breadth * (L.breadth + 3) ≤ L.made := by
  rw [L.made_eq, Nat.mul_add]
  omega

theorem connect_le_made : L.breadth * (L.chain + 5) ≤ L.made := by
  rw [L.made_eq, Nat.mul_add]
  omega

theorem memory_le_made : L.breadth + L.breadth + L.breadth * (7 * (1 + L.breadth * 3)) ≤ L.made := by
  have h : L.breadth * (7 * (1 + L.breadth * 3)) = 7 * L.breadth + 21 * (L.breadth * L.breadth) := by ring
  rw [L.made_eq, h]
  omega

end Limits

namespace Builder.Site

variable {cx : Context} {L : Limits} {r : Nat} {G : Gauge} {t : LowerState} {o : OpId} {op : Operation}

/-- What a step leaves behind: it has done nothing, or what it made ranks lower. -/
def Stepped (cx : Context) (L : Limits) (r : Nat) (G : Gauge) (t : LowerState) (replaced : Bool) (t' : LowerState) :
    Prop :=
  replaced = false ∧ t' = t ∨ ∃ n G', r = n + 1 ∧ t.builder.body.Laid cx L n L.made G G' t'.builder.body

/-- An operation of rank zero stays as it is, unless it cannot be lowered. -/
theorem idle_runs (hop : t.builder.body.op? o = some op) (hfits : op.InGauge cx L G.extent t.builder.body.ty? 0)
    (hk : ∀ i, op.kind ≠ .inst i) :
    Runs False (step cx o op.kind) t fun replaced t' => replaced = false ∧ t' = t := by
  have hoperand (i : Nat) : Ends False (t.builder.body.operand o i) fun v => op.operands[i]? = some v :=
    operand_ends (fun op' v hop' hv => by rwa [Option.some.inj (hop.symm.trans hop')]) nofun
  have hresult : Ends False (t.builder.body.result o 0) fun v => v ∈ op.results :=
    result_ends (fun op' v hop' hv => by
      rw [Option.some.inj (hop.symm.trans hop')]
      exact List.mem_of_getElem? hv) nofun
  have hextent {i : Nat} {v : ValueId} (hv : op.operands[i]? = some v) :
      (op.operands.map G.extent)[i]? = some (G.extent v) := by rw [List.getElem?_map, hv]; rfl
  -- what has a result that may be split does not rank zero
  have hsplit {keep : Bool} {clone : Part → Build ValueId}
      (hres : ∀ r ∈ op.results.map fun r => (G.extent r, t.builder.body.ty? r), r.1.depth + 1 ≤ 0) :
      Runs False (splitProducer o keep clone) t fun replaced t' => replaced = false ∧ t' = t :=
    Runs.bind_body hresult fun r hr => absurd (hres _ (List.mem_map_of_mem hr)) (Nat.not_succ_le_zero _)
  unfold Operation.InGauge at hfits
  cases hkind : op.kind with
  | inst i => exact absurd hkind (hk i)
  | mem m =>
    rw [hkind] at hfits
    exact absurd hfits.2.1 (Nat.not_succ_le_zero _)
  | wire | invalid =>
    rw [hkind] at hfits
    exact hsplit hfits
  | reg | unrealizedCast =>
    rw [hkind] at hfits
    exact Runs.bind_any fun _ _ => hsplit hfits
  | regReset =>
    rw [hkind] at hfits
    exact Runs.bind_any fun _ _ => Runs.bind_any fun _ _ => Runs.bind_any fun _ _ => hsplit hfits
  | node =>
    rw [hkind] at hfits
    exact Runs.bind_any fun _ _ => hsplit fun r hr => (hfits r hr).1
  | mux =>
    rw [hkind] at hfits
    exact Runs.bind_any fun _ _ => Runs.bind_any fun _ _ => Runs.bind_any fun _ _ =>
      hsplit fun r hr => (hfits r hr).1
  | multiMux =>
    rw [hkind] at hfits
    refine Runs.bind_any fun op' _ => ?_
    split
    · exact .throw id
    · exact hsplit fun r hr => (hfits.2 r hr).1
  | subaccess =>
    rw [hkind] at hfits
    exact Runs.bind_body (hoperand 0) fun v hv => absurd (hfits _ (hextent hv)).1 (Nat.not_succ_le_zero _)
  | bitcast =>
    rw [hkind] at hfits
    exact Runs.bind_body (hoperand 0) fun v hv => Runs.bind_body hresult fun r hr =>
      absurd (hfits _ (hextent hv) _ (List.mem_map_of_mem hr)).2 (Nat.not_succ_le_zero _)
  | connect strict =>
    rw [hkind] at hfits
    have hno {v w : ValueId} (hv : op.operands[0]? = some v) (hw : op.operands[1]? = some w) : False :=
      absurd (hfits _ _ (hextent hv) (hextent hw)) (Nat.not_succ_le_zero _)
    refine (Runs.bind (P := fun written t' => written = false ∧ t' = t) ?_) ?_
    · refine Runs.bind_body (writePath_leads hop) fun path ⟨dest, _, _, hdest, _⟩ => ?_
      split
      · exact Runs.bind_any fun _ _ => Runs.bind_any fun _ _ => Runs.bind_body (hoperand 1) fun src hsrc =>
          (hno hdest hsrc).elim
      · exact .pure ⟨rfl, rfl⟩
    · rintro _ _ ⟨rfl, rfl⟩
      exact Runs.bind_body (hoperand 0) fun _ hv => Runs.bind_body (hoperand 1) fun _ hw => (hno hv hw).elim
  | subfield | subindex | constant | prim | «when» => exact .pure ⟨rfl, rfl⟩

/-- A step makes a bounded number of operations, which rank below the one that it is over. -/
theorem step_runs (h : ∀ n, r = n + 1 → t.builder.Site cx L n G) (hop : t.builder.body.op? o = some op)
    (hfits : op.InGauge cx L G.extent t.builder.body.ty? r) :
    Runs False (step cx o op.kind) t (Stepped cx L r G t) := by
  by_cases hinst : ∃ i, op.kind = .inst i
  · obtain ⟨i, hi⟩ := hinst
    rw [hi]
    refine (inst_runs h hop hi hfits).mono fun replaced t' => Or.imp_right ?_
    rintro ⟨m, G', hr, hl⟩
    exact ⟨m, G', hr, hl.mono (Nat.le_refl _) (by rw [L.made_eq]; omega)⟩
  cases r with
  | zero => exact (idle_runs hop hfits (not_exists.1 hinst)).mono fun _ _ => .inl
  | succ n =>
    have hs := h n rfl
    have hmade {c : Nat} (hc : c ≤ L.made) {m : Lower Bool} (hm : Runs False m t fun _ t' =>
        ∃ G', t.builder.body.Laid cx L n c G G' t'.builder.body) : Runs False m t (Stepped cx L (n + 1) G t) :=
      hm.mono fun _ _ ⟨G', hl⟩ => .inr ⟨n, G', rfl, hl.mono (Nat.le_refl _) hc⟩
    have hproducer := hmade L.producer_le_made (hs.producer_runs hop hfits cx.options.preserveAggregate)
    cases hk : op.kind with
    | bitcast => exact hmade (by rw [L.made_eq]; omega) (hs.bitcast_runs hop hk hfits)
    | subaccess => exact hmade (by rw [L.made_eq]; omega) (hs.subaccess_runs hop hk hfits)
    | connect => exact hmade L.connect_le_made (hs.connection_runs hop hk hfits)
    | mem => exact hmade L.memory_le_made (hs.memory_runs hop hk hfits)
    | inst i => exact absurd ⟨i, hk⟩ hinst
    | _ =>
      rw [hk] at hproducer
      exact hproducer

end Builder.Site

end Scalarize
