import Scalarize.Proofs.Flattening
import Scalarize.Proofs.Readers

/-!
# Readers of ports

The arguments of a body stand for pieces of ports. A fixed accessor that reads one of them reaches a node of a port.

* `Body.StandsFor` : the pieces that arguments stand for, by position;
* `Widened.portioned` : while an argument gives way to its parts, those stand for the nodes below it;
* `Body.splitArgument_readers` : its readers give way to the arguments of the parts.
-/

namespace Scalarize.Body

variable {b b₁ : Body} {S T : List Ty} {t : Ty} {A B values : List ValueId} {old : ValueId} {l l' : List PortPiece}
  {o₀ : PortPiece} {ps : List Part}

/-- The argument stands for the node at which the piece at its position starts. -/
def StandsFor (b : Body) (os : List PortPiece) (a : ValueId) (i : Nat) (p : List Nat) : Prop :=
  ∃ o, (a, o) ∈ b.args.zip os ∧ o.port = i ∧ o.path = p

/-- While an argument gives way to its parts, the old one and the new ones stand for pieces. -/
def Sharing (A : List ValueId) (old : ValueId) (values B : List ValueId) (l : List PortPiece) (o₀ : PortPiece)
    (parts : List Part) (l' : List PortPiece) (a : ValueId) (i : Nat) (p : List Nat) : Prop :=
  ∃ o, ((a, o) ∈ A.zip l ∨ (a = old ∧ o = o₀) ∨ (a, o) ∈ values.zip (parts.map fun p => o₀.node p.stop) ∨
    (a, o) ∈ B.zip l') ∧ o.port = i ∧ o.path = p

/-- While an argument gives way to its parts, values stand for nodes if the new arguments do for those below it. -/
theorem Widened.portioned_of {ι : Type} {Q : ValueId → ι → List Nat → Prop}
    (h : Widened b S t T (ps.map (·.ty)) A old values B b₁) (hb : b.Coherent) (hps : t.PartsOf ps) (hQ : ∀ {a k p}, Q a k p → b₁.Primary a)
    (hparts : ∀ {k p i w}, Q old k p → values[i]? = some w → Q w k (p ++ [i])) : Portioned Q old t values b₁ where
  primary := hQ
  whole := .of_argument h.origin?_old
  ty? := h.old
  fresh hw := ⟨isSome_of_origin? (h.origin? hw), h.ne hb hw, .of_argument (h.origin? hw)⟩
  types {i w c} hw hc := by
    obtain ⟨p, hp, rfl⟩ := hps.getElem?_of_child hc
    obtain ⟨hi, rfl⟩ := List.getElem?_eq_some_iff.1 hw
    obtain ⟨hi', rfl⟩ := List.getElem?_eq_some_iff.1 hp
    have := List.forall₂_iff_get.1 h.types
    simpa using this.2 i hi (by simpa using hi')
  parts := hparts

theorem Widened.portioned (h : Widened b S t T (ps.map (·.ty)) A old values B b₁) (hb : b.Coherent) (hps : t.PartsOf ps) :
    Portioned (Sharing A old values B l o₀ ps l') old t values b₁ := by
  refine h.portioned_of hb hps ?_ ?_
  · rintro a k p ⟨o, ha, -, -⟩
    refine .of_argument (h.coherent.args a ?_)
    rw [h.args]
    rcases ha with ha | ⟨rfl, -⟩ | ha | ha
    · simp [(List.of_mem_zip ha).1]
    · simp
    · simp [(List.of_mem_zip ha).1]
    · simp [(List.of_mem_zip ha).1]
  · rintro _ _ i w ⟨o, ho, rfl, rfl⟩ hw
    have hold : ∀ {C : List ValueId} {m : List PortPiece}, (∀ v ∈ C, v ≠ old) → (old, o) ∉ C.zip m :=
      fun hne hmem => hne _ (List.of_mem_zip hmem).1 rfl
    have hnd : (A ++ [old] ++ B).Nodup := h.args₀ ▸ hb.nodup_args
    have hA : ∀ v ∈ A, v ≠ old := by
      rw [List.append_assoc, List.nodup_append] at hnd
      exact fun v hv => hnd.2.2 v hv old (by simp)
    have hB : ∀ v ∈ B, v ≠ old := by
      rw [List.nodup_append] at hnd
      exact fun v hv => (hnd.2.2 old (by simp) v hv).symm
    obtain rfl : o = o₀ := by
      rcases ho with ho | ⟨-, ho⟩ | ho | ho
      · exact absurd ho (hold hA)
      · exact ho
      · exact absurd ho (hold fun v hv => h.ne hb hv)
      · exact absurd ho (hold hB)
    have hlen : values.length = ps.length := by simpa using h.types.length_eq
    obtain ⟨hi, rfl⟩ := List.getElem?_eq_some_iff.1 hw
    have hp : ps[i]? = some ps[i] := List.getElem?_eq_getElem (hlen ▸ hi)
    refine ⟨o.node ps[i].stop, .inr (.inr (.inl ?_)), rfl, ?_⟩
    · exact List.mem_iff_getElem.2 ⟨i, by simp; omega, by simp⟩
    · simp [PortPiece.node, Part.stop, hps.index hp]

/-- The readers of an argument give way to the arguments of its parts. -/
theorem splitArgument_readers (l' : List PortPiece) (o₀ : PortPiece) (hb : b.Coherent)
    (hargs : b.Types b.args (S ++ t :: T)) (hps : t.PartsOf ps) (hl : l.length = S.length) :
    Ends False (b.splitArgument S.length (ps.map (·.ty))) fun b' =>
      b'.Types b'.args (S ++ ps.map (·.ty) ++ T) ∧
        Hands (b.StandsFor (l ++ o₀ :: l')) b (b'.StandsFor (l ++ ps.map (fun p => o₀.node p.stop) ++ l')) b' := by
  refine splitArgument_hands (N := fun b' => b'.StandsFor (l ++ ps.map (fun p => o₀.node p.stop) ++ l')) hb hargs
    fun {A old values B b₁} hw => ⟨Sharing A old values B l o₀ ps l', hw.portioned hb hps, ?_, ?_⟩
  all_goals
    have hA : A.length = l.length := hl ▸ hw.front.length_eq
  · rintro a k p ⟨o, ha, hrest⟩
    refine ⟨o, ?_, hrest⟩
    rw [hw.args₀, List.append_assoc, List.zip_append hA, List.singleton_append, List.zip_cons_cons,
      List.mem_append, List.mem_cons, Prod.mk.injEq] at ha
    rcases ha with ha | ha | ha
    · exact .inl ha
    · exact .inr (.inl ha)
    · exact .inr (.inr (.inr ha))
  · rintro b₃ hargs₃ a k p hne ⟨o, ha, hrest⟩
    have hvalues : values.length = (ps.map fun p => o₀.node p.stop).length := by simpa using hw.types.length_eq
    refine ⟨o, ?_, hrest⟩
    rw [hargs₃, List.append_assoc, List.append_assoc, List.zip_append hA, List.zip_append hvalues, List.mem_append,
      List.mem_append]
    rcases ha with ha | ⟨rfl, -⟩ | ha | ha
    · exact .inl ha
    · exact absurd rfl hne
    · exact .inr (.inl ha)
    · exact .inr (.inr ha)

end Scalarize.Body
