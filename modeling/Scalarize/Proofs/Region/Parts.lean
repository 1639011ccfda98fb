import Scalarize.Proofs.Region.Chart
import Scalarize.Proofs.Step.Cloning

/-!
# Values of parts

An operation gives way to operations that make the parts of its value, one part after the other.

* `Body.Added`, `Added.grows` : what is made for one part reads operands of the whole and what was made for this part,
  and nothing reads the value of the part;
* `Body.partsAt`, `Grown.start`, `Grown.part` : the values of the parts extend a chart.
-/

namespace Scalarize.Body

open Grows

variable {b b₀ b' s₀ : Body} {s : Builder} {o d x : OpId} {k : BlockId} {A B M N : List OpId} {V : ValueId → Prop}
  {u w : ValueId} {i : Nat}

theorem reads_modifyDecl {f : Decl → Decl} : (b.modifyDecl o f).Reads x u ↔ b.Reads x u := by
  constructor
  · rintro ⟨op, hop, hu⟩
    obtain ⟨kind, hop', -⟩ := op?_of_modifyDecl hop
    exact ⟨_, hop', hu⟩
  · rintro ⟨op, hop, hu⟩
    obtain ⟨kind, hop', -⟩ := op?_modifyDecl_some hop
    exact ⟨_, hop', hu⟩

theorem Created.reads {p : Point} {kind : OpKind} {vs : List ValueId} {tys : List Ty} (h : Created b p kind vs tys o b')
    (hx : b'.Reads x u) : b.Reads x u ∨ u ∈ vs := by
  obtain ⟨op, hop, hu⟩ := hx
  rcases h.op?_cases hop with hop | ⟨-, rfl⟩
  · exact .inl ⟨op, hop, hu⟩
  · exact .inr hu

/-- Nothing reads what is not there. -/
theorem Coherent.lt_of_reads (h : b.Coherent) (hx : b.Reads x u) : u.index < b.values.size := by
  obtain ⟨op, hop, hu⟩ := hx
  exact h.operand hop hu

/-- `N` was made since `s₀`, behind `M`, which was placed in front of `o` since `b₀`. It reads values `V` and what it has
made itself; nothing reads what its last operation made. -/
structure Added (V : ValueId → Prop) (b₀ : Body) (o : OpId) (k : BlockId) (A B M : List OpId) (s₀ : Body) (N : List OpId)
    (s : Builder) : Prop where
  placed : b₀.Prefixed o k A B (M ++ N) s
  before : s₀.Coherent
  ext : Extends s₀ s.body
  kept : ∀ {x op}, s₀.op? x = some op → s.body.op? x = some op
  fresh : ∀ x ∈ N, s₀.op? x = none
  reads : ∀ {x u}, s.body.Reads x u → s₀.Reads x u ∨ V u ∨ s₀.values.size ≤ u.index
  last : ∀ {L d x u i}, N = L ++ [d] → s.body.origin? u = some (.result d i) → ¬s.body.Reads x u

namespace Added

theorem start (h : b₀.Prefixed o k A B M s) : Added V b₀ o k A B M s.body [] s where
  placed := by rwa [List.append_nil]
  before := h.coherent
  ext := .refl _
  kept := id
  fresh := by simp
  reads := .inl
  last h := by simp at h

/-- What the new operations made is new. -/
theorem new (h : Added V b₀ o k A B M s₀ N s) (hd : d ∈ N) (hu : s.body.origin? u = some (.result d i)) :
    s₀.values.size ≤ u.index := by
  by_contra hlt
  rw [h.ext.origin? (Nat.not_le.1 hlt)] at hu
  obtain ⟨op, hop, -⟩ := h.before.origin hu
  rw [h.fresh d hd] at hop
  cases hop

/-- More operations may be made. -/
theorem grows (V : ValueId → Prop) (b₀ : Body) (o : OpId) (k : BlockId) (A B M : List OpId) (s₀ : Body) :
    Grows V (fun _ _ _ _ => True) (fun _ _ => True) (Added V b₀ o k A B M s₀) where
  coherent h := h.placed.coherent
  place h := (Prefixed.grows b₀ o k A B).place h.placed
  make := by
    intro N s kind vs ins tys d b' h hk hc hv hins hsh _
    have hold := h.placed.coherent
    refine ⟨?_, h.before, h.ext.trans hc.extended, fun hop => hc.op?_old (h.kept hop), fun x hx => ?_, fun hx => ?_, ?_⟩
    · rw [← List.append_assoc]
      exact (Prefixed.grows b₀ o k A B).make h.placed hk hc (fun _ _ => .inl trivial) hins hsh trivial
    · rcases List.mem_append.1 hx with hx | hx
      · exact h.fresh x hx
      · rw [List.mem_singleton.1 hx]
        cases hop : s₀.op? d with
        | none => rfl
        | some op =>
          have := h.kept hop
          rw [hc.fresh] at this
          cases this
    · rcases hc.reads hx with hx | hu
      · exact h.reads hx
      · rcases hv _ hu with hu | ⟨e, he, j, hj⟩
        · exact .inr (.inl hu)
        · exact .inr (.inr (h.new he hj))
    · intro L e x u i hL hu hx
      obtain ⟨-, rfl⟩ : N = L ∧ d = e := by simpa using List.append_inj' hL rfl
      have hlt : u.index < s.body.values.size := by
        rcases hc.reads hx with hx | hmem
        · exact hold.lt_of_reads hx
        · exact hins.lt u hmem
      rw [hc.origin?_old hlt] at hu
      obtain ⟨op, hop, -⟩ := hold.origin hu
      rw [hc.fresh] at hop
      cases hop
  declare := by
    intro N s d f h hd _
    refine ⟨(Prefixed.grows b₀ o k A B).declare h.placed (List.mem_append_right M hd) fun _ _ _ _ => trivial, h.before,
      h.ext.trans (.modifyDecl _ _ _), fun {x op} hop => ?_, h.fresh, fun hx => h.reads (reads_modifyDecl.1 hx),
      fun hL hu hx => h.last hL hu (reads_modifyDecl.1 hx)⟩
    have hne : x ≠ d := by
      rintro rfl
      rw [h.fresh x hd] at hop
      cases hop
    rw [op?_modifyDecl, h.kept hop, Option.map_some, if_neg hne]

end Added

/-- What was made, and is charted nowhere, leaves a chart as it is. -/
theorem Charted.added {must : Prop} {v : ValueId} {T : Ty} {C : List Nat → ValueId → Prop} {P D : List OpId} {bc : Body}
    (h : Charted must bc v T C s₀ P D) (ha : Added V b₀ o k A B M s₀ N s) (hV : ∀ {p u}, V u → ¬C p u) :
    Charted must bc v T C s.body (P ++ N) D := by
  have hg : Grown V (fun _ _ => False) T s₀ N s.body := ⟨ha.ext, ha.fresh, ha.reads, nofun, nofun⟩
  simpa using h.grown hg hV

/-! ## Charts of parts -/

/-- The values are those of the parts of the node at the end of a path. -/
def partsAt (p : List Nat) (ws : List ValueId) (q : List Nat) (u : ValueId) : Prop :=
  ∃ i, q = p ++ [i] ∧ ws[i]? = some u

namespace Charted.Grown

variable {T c t : Ty} {p : List Nat} {ws : List ValueId} {P : List OpId}

theorem start (b : Body) : Grown V (partsAt p []) T b [] b where
  ext := .refl b
  fresh := by simp
  reads := .inl
  unique := by simp [partsAt]
  new := by simp [partsAt]

/-- Once a part is made, its value is charted. -/
theorem part (h : Grown V (partsAt p ws) T b N s₀) (hV : ∀ {u}, V u → u.index < b.values.size)
    (ha : Added V b₀ o k A B M s₀ (P ++ [d]) s) {kind : OpKind} {vs : List ValueId} (hmk : s.body.Makes d kind vs [w])
    (hc : T.sub? p = some c) (hpart : c.child? ws.length = some t) (hty : s.body.ty? w = some t) :
    Grown V (partsAt p (ws ++ [w])) T b (N ++ (P ++ [d])) s.body := by
  have hsize := h.ext.size
  have hw := hmk.origin? ha.placed.coherent (i := 0) rfl
  have hnew : s₀.values.size ≤ w.index := ha.new (by simp) hw
  have hcases : ∀ {q u}, partsAt p (ws ++ [w]) q u → partsAt p ws q u ∨ q = p ++ [ws.length] ∧ u = w := by
    rintro q u ⟨i, rfl, hi⟩
    rw [List.getElem?_append] at hi
    split at hi
    · exact .inl ⟨i, rfl, hi⟩
    next hlt =>
      right
      have : i - ws.length = 0 := by
        by_contra hne
        rw [List.getElem?_eq_none (by simp; omega)] at hi
        cases hi
      obtain rfl : i = ws.length := by omega
      simpa using hi.symm
  have hlt : ∀ {q u}, partsAt p ws q u → u.index < s₀.values.size := fun hu => by
    obtain ⟨-, ⟨c, -, hty⟩, -⟩ := h.new hu
    exact lt_of_ty? hty
  refine ⟨h.ext.trans ha.ext, fun x hx => ?_, fun hx => ?_, fun {q q' u} hq hq' => ?_, fun {q u} hu => ?_⟩
  · rcases List.mem_append.1 hx with hx | hx
    · exact h.fresh x hx
    · cases hop : b.op? x with
      | none => rfl
      | some op =>
        obtain ⟨op', hop', -⟩ := h.ext.op? hop
        rw [ha.fresh x hx] at hop'
        cases hop'
  · rcases ha.reads hx with hx | hV | hu
    · exact h.reads hx
    · exact .inr (.inl hV)
    · exact .inr (.inr (by omega))
  · rcases hcases hq with hq | ⟨rfl, rfl⟩ <;> rcases hcases hq' with hq' | ⟨rfl, he⟩
    · exact h.unique hq hq'
    · exact absurd (hlt hq) (by rw [he]; omega)
    · exact absurd (hlt hq') (by omega)
    · rfl
  · rcases hcases hu with hu | ⟨rfl, rfl⟩
    · obtain ⟨hle, ⟨c', hc', hty'⟩, hread⟩ := h.new hu
      refine ⟨hle, ⟨c', hc', ha.ext.ty?_some hty'⟩, fun {x} hx => ?_⟩
      rcases ha.reads hx with hx | hu' | hge
      · exact hread hx
      · have := hV hu'
        omega
      · have := hlt hu
        omega
    · exact ⟨by omega, ⟨t, Ty.sub?_concat hc hpart, hty⟩, ha.last rfl hw⟩

end Charted.Grown

end Scalarize.Body
