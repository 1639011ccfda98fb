import Scalarize.Proofs.Distribution.Walk

/-!
# What is left of a memory once nothing is pending

* `Body.Embodies` : an operation stands for one share; `Piece.embodies` : this is so for all that is done and stands, but
  for fixed accessors;
* `Body.Retired`, `Spreads.retired` : what is left of a memory at the end of a walk; `Retired.rewired` : readers of other
  values may be handed over then.
-/

namespace Scalarize

open Body Lower

/-! ## Nodes at which splitting stops -/

/-- An aggregate is split down to its leaves. -/
theorem Ty.ground_of_mem_stops {t : Ty} {s : Stop} (ht : t.isGround = false) (h : s ∈ t.stops false) :
    (∃ g, t.sub? s.path = some (.ground g)) ∧ s.path ≠ [] := by
  suffices hsub : ∃ g, t.sub? s.path = some (.ground g) by
    refine ⟨hsub, fun hpath => ?_⟩
    obtain ⟨g, hg⟩ := hsub
    rw [hpath] at hg
    rw [Option.some.inj hg] at ht
    cases ht
  clear ht
  induction hn : t.depth using Nat.strongRecOn generalizing t s with
  | ind n ih =>
    cases hg : t.isGround with
    | true =>
      cases t with
      | ground g =>
        obtain rfl : s = .whole (.ground g) := by simpa [stops] using h
        exact ⟨g, rfl⟩
      | _ => cases hg
    | false =>
      rw [stops_eq_layer (by simp [hg])] at h
      obtain ⟨l, hl, h⟩ := List.mem_flatMap.1 h
      obtain ⟨s', hs', rfl⟩ := List.mem_map.1 h
      obtain ⟨i, hi, hc⟩ := mem_layer hl
      obtain ⟨g, hground⟩ := ih _ (hn ▸ depth_lt_of_child? hc) hs' rfl
      exact ⟨g, by simp [Stop.below, hi, sub?, hc, hground]⟩

namespace Memory

variable {m : Memory} {s : Share} {t c : Ty} {ℓ : List Nat} {σ : String} {turned : Bool}

theorem shares_of_isGround (h : c.isGround) : m.shares ℓ σ turned c = [.store ⟨ℓ, σ, turned, c⟩] := by
  cases c with
  | ground g => rfl
  | _ => cases h

end Memory

theorem Ty.leaves_of_isGround {t : Ty} (h : t.isGround) : t.leaves.map (·.path) = [[]] := by
  cases t with
  | ground g => rfl
  | _ => cases h

namespace Body

variable {m : Memory} {R R₀ R' : ValueId → Face → List Nat → Prop} {b b' : Body} {o x y : OpId} {k : BlockId} {C : List OpId}
  {ss : List Memory.Share} {s : Memory.Share} {t : Moment} {u v w : ValueId} {f f' : Face} {p q : List Nat}

/-! ## Single shares -/

/-- The operation stands for one share. -/
inductive Embodies (m : Memory) (R : ValueId → Face → List Nat → Prop) (b : Body) (x : OpId) : Memory.Share → Prop
  | store {op : Operation} {s : Stop} {m' : Memory} (hop : b.op? x = some op) (hk : op.kind = .mem m')
      (hn : m.NarrowedTo s m') (hc : m.dataType.sub? s.path = some s.ty) (hg : s.ty.isGround)
      (hR : ∀ i v, op.results[i]? = some v → R v ⟨s.path, i⟩ []) : Embodies m R b x (.store s)
  | wire {op : Operation} {d : Decl} {f : Face} {p : List Nat} {c t : Ty} {u : ValueId} (hop : b.op? x = some op)
      (hk : op.kind = .wire d) (hres : op.results = [u]) (hR : R u f p) (hc : m.dataType.sub? f.entry = some c)
      (hg : c.isGround = false) (ht : m.nodeTy? f p = some t) (hleaf : t.isGround) : Embodies m R b x (.wire f p)
  | link {op : Operation} {inner outer : Face} {p q : List Nat} {flip : Bool} {t : Ty} {a d : ValueId}
      (hop : b.op? x = some op) (hk : op.kind = .connect true) (ht : m.nodeTy? inner p = some t)
      (ht' : m.nodeTy? outer q = some t) (hg : t.isGround) (ha : b.Slot x (if flip then 1 else 0) a)
      (hia : b.Denotes R a inner p) (hd : b.Slot x (if flip then 0 else 1) d) (hod : b.Denotes R d outer q) :
      Embodies m R b x (.link inner p outer q flip)

/-- The operation is no fixed accessor. -/
def isProper (b : Body) (x : OpId) : Bool := (b.op? x).any fun op => op.kind.fixedIndex?.isNone

/-- What stands and is done stands for one share, or is a fixed accessor. -/
theorem Piece.embodies (h : Piece m R b True x ss) (hs : b.stands x) :
    (b.isProper x = true ∧ ∃ s, ss = [s] ∧ Embodies m R b x s) ∨ (b.isProper x = false ∧ ss = []) := by
  cases h with
  | store hop _ hk hn hc hR hdone =>
    exact .inl ⟨by simp [isProper, hop, hk, OpKind.fixedIndex?], _, Memory.shares_of_isGround (hdone trivial),
      .store hop hk hn hc (hdone trivial) hR⟩
  | @wire op d f p c t u hop _ hk hres hR hc hg ht hdone =>
    refine .inl ⟨by simp [isProper, hop, hk, OpKind.fixedIndex?], .wire f p, ?_,
      .wire hop hk hres hR hc hg ht (hdone trivial)⟩
    have := congrArg (List.map fun q => Memory.Share.wire f (p ++ q)) (Ty.leaves_of_isGround (hdone trivial))
    simpa [Function.comp_def] using this
  | @link op inner outer p q flip t a d hop _ hk ht ht' hpassive ha hia hd hod hdone =>
    refine .inl ⟨by simp [isProper, hop, hk, OpKind.fixedIndex?], .link inner p outer q flip, ?_,
      .link hop hk ht ht' (hdone trivial) ha hia hd hod⟩
    have := congrArg (List.map fun r => Memory.Share.link inner (p ++ r) outer (q ++ r) flip)
      (Ty.leaves_of_isGround (hdone trivial))
    simpa [Function.comp_def] using this
  | none hop _ h =>
    have he := erased_of_stands hop hs
    obtain ⟨i, hi⟩ := Option.isSome_iff_exists.1 (h.resolve_left (by simp [he]))
    exact .inr ⟨by simp [isProper, hop, hi], rfl⟩

/-! ## Once nothing is pending -/

/-- At `t` the memory, operation `o` in block `k`, was the next to be reached. Now operations `C` in front of it stand for
what it is shared out into, each of them for one share at most. -/
structure Retired (m : Memory) (R₀ : ValueId → Face → List Nat → Prop) (o : OpId) (k : BlockId) (t : Moment)
    (R : ValueId → Face → List Nat → Prop) (C : List OpId) (b : Body) : Prop where
  carries : Maintains R₀ t.body R b fun x => x ∈ t.pending ∨ t.body.op? x = none
  roots : Roots m b R (· ∈ C)
  pieces : StandFor (Piece m R b True) C (m.shares [] "" false m.dataType)
  slots : ∃ A B, b.slotsOf k = A ++ C ++ o :: B
  exposed : b.Exposed k
  fresh : ∀ x ∈ C, t.body.op? x = none
  gone : ¬b.stands o

end Body

theorem Moment.Spreads.retired {m : Memory} {R₀ R : ValueId → Face → List Nat → Prop} {b : Body} {o : OpId} {k : BlockId}
    {t : Moment} {X C D₁ D : List OpId} {y : Symbols} (h : Moment.Spreads m R₀ o k t R X C D₁ ⟨b, y, [], D⟩)
    (hk : b.Exposed k) : Retired m R₀ o k t R C b where
  carries := h.carries
  roots := h.roots
  pieces := h.pieces.mono fun x hx ss hpx => by
    have hb : b.Coherent := h.coherent
    by_cases hs : b.stands x
    · -- what stands was reached, as nothing is pending
      have hD : x ∈ D₁ := by
        have horder : D₁ = X ++ C := h.order
        simp [horder, hx]
      exact hpx.carried (E := fun _ => False) hb (.refl hb R _) id fun _ => ⟨hD, hk.walked (h.mem_slotsOf hx) hs⟩
    · obtain ⟨op, hop, hblocks⟩ := hpx.exists_op
      have he : op.erased = true := by
        rw [stands_eq, hop] at hs
        simpa using hs
      rw [hpx.eq_nil hop he]
      exact .none hop hblocks (.inl he)
  slots := h.slots
  exposed := hk
  fresh := h.fresh
  gone := h.gone

namespace Body

namespace Retired

theorem coherent (h : Retired m R₀ o k t R C b) : b.Coherent := h.carries.edited.coherent

/-- Once readers of other values are handed over, this still holds. -/
theorem rewired (h : Retired m R₀ o k t R C b) (ht : t.body.Coherent) (hr : Rearranged b b') (hh : Hands R b R b') :
    Retired m R₀ o k t R C b' := by
  have hc : Maintains R b R b' fun _ => False := .rewired hr hh
  exact
    { carries := h.carries.trans hc ht id False.elim
      roots := h.roots.carried h.coherent hc fun hv => ⟨hv, fun _ _ _ => id⟩
      pieces := h.pieces.mono fun x _ ss hx => hx.carried h.coherent hc id id
      slots := by rw [hr.slotsOf]; exact h.slots
      exposed := hr.guardsStay.exposed h.coherent hr.coherent h.exposed
      fresh := h.fresh
      gone := fun hs => by
        obtain ⟨A, B, hslots⟩ := h.slots
        obtain ⟨op, hop, -⟩ := h.coherent.op?_of_mem_slotsOf (o := o) (k := k) (by rw [hslots]; simp)
        exact h.gone (hr.edited.stands hs (by rw [hop]; rfl)) }

end Retired

end Body

end Scalarize
