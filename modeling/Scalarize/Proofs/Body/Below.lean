import Scalarize.Proofs.Body.Forest

/-!
# The order of a walk

* `Body.below` : the operations that stand in a block and below, in the order of a walk;
* `Coherent.below_eq` : each of them is followed by those below it;
* `Body.Apart` : two operations below the two blocks of one guard;
* `Unfolds.sublist` : but for such pairs, operations unfold in the order of a walk;
* `Coherent.below_sublist` : what still stands after some edits stands in the same order.
-/

namespace Scalarize.Body

variable {b : Body} {o x d : OpId} {k : BlockId} {os L : List OpId}

/-- The operations that stand in a block and below, each in front of those that it guards. -/
def below (b : Body) (k : BlockId) : List OpId := (b.outline k).flatMap Outline.ops

theorem walk_eq (b : Body) : b.walk = b.below Body.entry := rfl

theorem mem_live : o ∈ b.live k ↔ o ∈ b.slotsOf k ∧ b.stands o := by
  unfold live slotsOf block?
  cases b.blocks[k.index]? <;> simp

theorem live_eq_nil (h : b.blocks.size ≤ k.index) : b.live k = [] := by
  unfold live
  rw [Array.getElem?_eq_none h]

/-- A block guarded by an operation lies behind the block of the operation. -/
theorem Coherent.lt_of_live (h : b.Coherent) (ho : o ∈ b.live k) {k' : BlockId}
    (hk' : k' ∈ b.guardedBlocks o) : k.index < k'.index := by
  obtain ⟨op, hop, rfl⟩ := h.op?_of_mem_slotsOf (mem_live.1 ho).1
  rw [guardedBlocks_eq hop] at hk'
  exact (h.guards hop hk').1

/-- More fuel than blocks are left does not change an outline. -/
theorem Coherent.outlineWith_eq (h : b.Coherent) (n : Nat) : ∀ {k : BlockId} {m : Nat},
    b.blocks.size ≤ k.index + n → n ≤ m → b.outlineWith m k = b.outlineWith n k := by
  induction n with
  | zero =>
    intro k m hk _
    cases m with
    | zero => rfl
    | succ m => simp [outlineWith, live_eq_nil (b := b) (k := k) (by omega)]
  | succ n ih =>
    intro k m hk hm
    obtain ⟨m, rfl⟩ := Nat.exists_eq_add_of_le' (Nat.le_trans (Nat.le_add_left 1 n) hm)
    rw [outlineWith, outlineWith]
    refine List.map_congr_left fun o ho => ?_
    have hinner : ∀ k' ∈ b.guardedBlocks o, b.outlineWith m k' = b.outlineWith n k' := fun k' hk' => by
      have := h.lt_of_live ho hk'
      exact ih (by omega) (by omega)
    obtain ⟨op, hop, -⟩ := h.op?_of_mem_slotsOf (mem_live.1 ho).1
    rw [guardedBlocks_eq hop] at hinner
    rw [kind?_eq, hop, Option.map_some]
    split
    next t e hk =>
      obtain hk := Option.some.inj hk
      rw [hk] at hinner
      rw [hinner t (by simp [OpKind.blocks]), hinner e (by simp [OpKind.blocks])]
    next t hk =>
      obtain hk := Option.some.inj hk
      rw [hk] at hinner
      rw [hinner t (by simp [OpKind.blocks])]
    next => rfl

/-- Each operation is followed by those in the blocks that it guards. -/
theorem Coherent.below_eq (h : b.Coherent) (k : BlockId) :
    b.below k = (b.live k).flatMap fun o => o :: (b.guardedBlocks o).flatMap b.below := by
  obtain ⟨blk, hblk, -⟩ := h.entry
  obtain ⟨s, hs⟩ := Nat.exists_eq_add_of_lt (lt_of_block? hblk)
  have hsize : b.blocks.size = s + 1 := by rw [hs]; simp [Body.entry]
  unfold below outline
  rw [hsize, outlineWith, List.flatMap_map]
  refine List.flatMap_congr fun o ho => ?_
  have hinner : ∀ k' ∈ b.guardedBlocks o, b.outlineWith s k' = b.outlineWith (s + 1) k' :=
    fun k' hk' => by
      have := h.lt_of_live ho hk'
      exact (h.outlineWith_eq s (by omega) (Nat.le_succ s)).symm
  obtain ⟨op, hop, -⟩ := h.op?_of_mem_slotsOf (mem_live.1 ho).1
  rw [guardedBlocks_eq hop] at hinner ⊢
  rw [kind?_eq, hop, Option.map_some]
  split
  next t e hk =>
    obtain hk := Option.some.inj hk
    rw [hk] at hinner ⊢
    rw [hinner t (by simp [OpKind.blocks]), hinner e (by simp [OpKind.blocks])]
    simp [Outline.ops, OpKind.blocks]
  next t hk =>
    obtain hk := Option.some.inj hk
    rw [hk] at hinner ⊢
    rw [hinner t (by simp [OpKind.blocks])]
    simp [Outline.ops, OpKind.blocks]
  next hne₁ hne₂ =>
    have hnone : op.kind.blocks = [] := by
      cases hk : op.kind with
      | when t e =>
        cases e with
        | none => exact absurd (congrArg some hk) (hne₂ t)
        | some e => exact absurd (congrArg some hk) (hne₁ t e)
      | _ => rfl
    rw [hnone]
    simp [Outline.ops]

/-! ## Pairs in order -/

theorem pair_sublist_append {α : Type} {d x : α} {A B : List α} : [d, x].Sublist (A ++ B) ↔
    [d, x].Sublist A ∨ (d ∈ A ∧ x ∈ B) ∨ [d, x].Sublist B := by
  rw [List.sublist_append_iff]
  constructor
  · rintro ⟨l₁, l₂, hl, h₁, h₂⟩
    rcases l₁ with _ | ⟨a, _ | ⟨a', l₁⟩⟩
    · obtain rfl : [d, x] = l₂ := hl
      exact .inr (.inr h₂)
    · obtain ⟨rfl, rfl⟩ : d = a ∧ [x] = l₂ := by simpa using hl
      exact .inr (.inl ⟨List.singleton_sublist.1 h₁, List.singleton_sublist.1 h₂⟩)
    · obtain ⟨rfl, rfl, rfl, -⟩ : d = a ∧ x = a' ∧ l₁ = [] ∧ l₂ = [] := by simpa using hl
      exact .inl h₁
  · rintro (h | ⟨hd, hx⟩ | h)
    · exact ⟨_, [], by simp, h, List.nil_sublist _⟩
    · exact ⟨[d], [x], rfl, List.singleton_sublist.2 hd, List.singleton_sublist.2 hx⟩
    · exact ⟨[], _, rfl, List.nil_sublist _, h⟩

theorem pair_sublist_cons {α : Type} {o d x : α} {A : List α} : [d, x].Sublist (o :: A) ↔
    (d = o ∧ x ∈ A) ∨ [d, x].Sublist A := by
  rw [show o :: A = [o] ++ A from rfl, pair_sublist_append]
  simp [List.sublist_singleton]

theorem pair_sublist_flatMap {α β : Type} {l : List α} {f : α → List β} {d x : β} : [d, x].Sublist (l.flatMap f) ↔
    (∃ a ∈ l, [d, x].Sublist (f a)) ∨ ∃ a a', [a, a'].Sublist l ∧ d ∈ f a ∧ x ∈ f a' := by
  induction l with
  | nil => simp
  | cons a l ih =>
    rw [List.flatMap_cons, pair_sublist_append, ih]
    constructor
    · rintro (h | ⟨hd, hx⟩ | ⟨a', ha', h⟩ | ⟨a₁, a₂, h, hd, hx⟩)
      · exact .inl ⟨a, List.mem_cons_self, h⟩
      · obtain ⟨a', ha', hx⟩ := List.mem_flatMap.1 hx
        exact .inr ⟨a, a', pair_sublist_cons.2 (.inl ⟨rfl, ha'⟩), hd, hx⟩
      · exact .inl ⟨a', List.mem_cons_of_mem a ha', h⟩
      · exact .inr ⟨a₁, a₂, h.trans (List.sublist_cons_self a l), hd, hx⟩
    · rintro (⟨a', ha', h⟩ | ⟨a₁, a₂, h, hd, hx⟩)
      · rcases List.mem_cons.1 ha' with rfl | ha'
        · exact .inl h
        · exact .inr (.inr (.inl ⟨a', ha', h⟩))
      · rcases pair_sublist_cons.1 h with ⟨rfl, ha₂⟩ | h
        · exact .inr (.inl ⟨hd, List.mem_flatMap.2 ⟨a₂, ha₂, hx⟩⟩)
        · exact .inr (.inr (.inr ⟨a₁, a₂, h, hd, hx⟩))

/-! ## Walking and unfolding -/

/-- Some guard holds `d` below its first block and `x` below its second. -/
def Apart (b : Body) (d x : OpId) : Prop :=
  ∃ o op t e, b.op? o = some op ∧ op.kind = .when t (some e) ∧ d ∈ b.below t ∧ x ∈ b.below e

/-- The operations that stand, each in front of those below it. -/
def belowEach (b : Body) (os : List OpId) : List OpId :=
  (os.filter b.stands).flatMap fun o => o :: (b.guardedBlocks o).flatMap b.below

theorem belowEach_cons (b : Body) (o : OpId) (os : List OpId) : b.belowEach (o :: os) =
    if b.stands o then o :: ((b.guardedBlocks o).flatMap b.below ++ b.belowEach os) else b.belowEach os := by
  unfold belowEach
  rw [List.filter_cons]
  split <;> simp

theorem live_eq (b : Body) (k : BlockId) : b.live k = (b.slotsOf k).filter b.stands := by
  unfold live slotsOf block?
  cases b.blocks[k.index]? <;> rfl

theorem Coherent.belowEach_slotsOf (h : b.Coherent) (k : BlockId) :
    b.belowEach (b.slotsOf k) = b.below k := by
  rw [h.below_eq, live_eq, belowEach]

theorem filter_flatMap_sublist {α β : Type} {p : β → Bool} {f g : α → List β} {l : List α}
    (h : ∀ a ∈ l, ((f a).filter p).Sublist (g a)) : ((l.flatMap f).filter p).Sublist (l.flatMap g) := by
  induction l with
  | nil => exact List.Sublist.refl _
  | cons a l ih =>
    rw [List.flatMap_cons, List.flatMap_cons, List.filter_append]
    exact (h a List.mem_cons_self).append (ih fun a' ha' => h a' (List.mem_cons_of_mem _ ha'))

/-- What still stands is below a block in the order in which it was, if slots are only added and guards
stand as they stood. -/
theorem Coherent.below_sublist {b' : Body} (h : b.Coherent) (h' : b'.Coherent)
    (hslots : ∀ k, (b.slotsOf k).Sublist (b'.slotsOf k))
    (hguards : ∀ {g}, b.guardedBlocks g ≠ [] → b.stands g →
      b'.stands g ∧ b'.guardedBlocks g = b.guardedBlocks g) (k : BlockId) :
    ((b.below k).filter b'.stands).Sublist (b'.below k) := by
  suffices ∀ n k, b.blocks.size ≤ k.index + n → ((b.below k).filter b'.stands).Sublist (b'.below k) from
    this b.blocks.size k (by omega)
  intro n
  induction n with
  | zero =>
    intro k hn
    rw [h.below_eq, live_eq_nil (by omega)]
    exact List.nil_sublist _
  | succ n ih =>
    intro k hn
    have hinner : ∀ o ∈ b.slotsOf k, b.stands o → (((b.guardedBlocks o).flatMap b.below).filter
        b'.stands).Sublist ((b'.guardedBlocks o).flatMap b'.below) := fun o ho hs => by
      by_cases hk : b.guardedBlocks o = []
      · rw [hk]
        exact List.nil_sublist _
      · rw [(hguards hk hs).2]
        refine filter_flatMap_sublist fun k' hk' => ih k' ?_
        have := h.lt_of_live (mem_live.2 ⟨ho, hs⟩) hk'
        omega
    rw [← h.belowEach_slotsOf, ← h'.belowEach_slotsOf]
    have hsub := hslots k
    generalize b.slotsOf k = os at hinner hsub
    generalize b'.slotsOf k = os' at hsub
    -- slot by slot
    induction hsub with
    | slnil => exact List.Sublist.refl _
    | cons o _ ih =>
      rw [belowEach_cons b' o]
      split
      · exact (ih hinner).trans ((List.sublist_append_right _ _).trans (List.sublist_cons_self _ _))
      · exact ih hinner
    | cons_cons o _ ih =>
      have hrest := ih fun x hx => hinner x (List.mem_cons_of_mem _ hx)
      rw [belowEach_cons b o, belowEach_cons b' o]
      cases hs : b.stands o with
      | false =>
        rw [if_neg (by simp)]
        split
        · exact hrest.trans ((List.sublist_append_right _ _).trans (List.sublist_cons_self _ _))
        · exact hrest
      | true =>
        rw [if_pos rfl, List.filter_cons, List.filter_append]
        have hbelow := hinner o List.mem_cons_self hs
        split
        next hs' =>
          exact (hbelow.append hrest).cons_cons _
        next hs' =>
          -- an operation that no longer stands is no guard
          have hk : b.guardedBlocks o = [] := by
            by_contra hk
            exact hs' (hguards hk hs).1
          rw [hk]
          exact hrest

theorem Coherent.belowEach_inner (h : b.Coherent) (o : OpId) :
    b.belowEach (b.inner o) = (b.guardedBlocks o).reverse.flatMap b.below := by
  rw [inner_eq_guardedBlocks, belowEach, List.filter_flatMap, List.flatMap_assoc]
  exact List.flatMap_congr fun k _ => h.belowEach_slotsOf k

theorem Unfolds.mem_of_below (h : Unfolds b os L) (hb : b.Coherent) (hx : x ∈ b.belowEach os) : x ∈ L := by
  induction h with
  | nil => exact hx
  | @cons o os L Ls _ _ ih₁ ih₂ =>
    rw [belowEach_cons] at hx
    rw [hb.belowEach_inner] at ih₁
    rw [List.mem_cons, List.mem_append]
    split at hx
    · rw [List.mem_cons, List.mem_append] at hx
      exact hx.imp_right (Or.imp (fun hx => ih₁ (by simpa using hx)) ih₂)
    · exact .inr (.inr (ih₂ hx))

/-- But for pairs below the two blocks of one guard, operations unfold in the order of a walk. -/
theorem Unfolds.sublist (h : Unfolds b os L) (hb : b.Coherent) (hdx : [d, x].Sublist (b.belowEach os))
    (hapart : ¬b.Apart d x) : [d, x].Sublist L := by
  induction h with
  | nil => exact hdx
  | @cons o os L Ls below rest ih₁ ih₂ =>
    rw [belowEach_cons] at hdx
    rw [hb.belowEach_inner] at ih₁
    have hmem₁ : ∀ y ∈ (b.guardedBlocks o).flatMap b.below, y ∈ L := fun y hy =>
      below.mem_of_below hb (by simpa [hb.belowEach_inner] using hy)
    have hmem₂ : ∀ y ∈ b.belowEach os, y ∈ Ls := fun y hy => rest.mem_of_below hb hy
    rw [pair_sublist_cons, pair_sublist_append]
    split at hdx
    case isFalse => exact .inr (.inr (.inr (ih₂ hdx)))
    rw [pair_sublist_cons, pair_sublist_append] at hdx
    rcases hdx with ⟨rfl, hx⟩ | hdx | ⟨hd, hx⟩ | hdx
    · refine .inl ⟨rfl, ?_⟩
      exact List.mem_append.2 ((List.mem_append.1 hx).imp (hmem₁ x) (hmem₂ x))
    · -- both below the first operation, and not below different blocks of it
      refine .inr (.inl (ih₁ ?_))
      cases hop : b.op? o with
      | none => simp [guardedBlocks, hop] at hdx
      | some op =>
        rw [guardedBlocks_eq hop] at hdx ⊢
        cases hk : op.kind with
        | when t e =>
          rw [hk] at hdx
          cases e with
          | none => exact hdx
          | some e =>
            simp only [OpKind.blocks, Option.toList_some, List.flatMap_cons, List.flatMap_nil,
              List.append_nil, List.reverse_cons, List.reverse_nil, List.nil_append,
              List.cons_append] at hdx ⊢
            rw [pair_sublist_append] at hdx ⊢
            rcases hdx with hdx | ⟨hd, hx⟩ | hdx
            · exact .inr (.inr hdx)
            · exact absurd ⟨o, op, t, e, hop, hk, hd, hx⟩ hapart
            · exact .inl hdx
        | _ =>
          rw [hk] at hdx
          cases hdx
    · exact .inr (.inr (.inl ⟨hmem₁ d hd, hmem₂ x hx⟩))
    · exact .inr (.inr (.inr (ih₂ hdx)))

/-- What stands in front in a list without repetition. -/
theorem mem_of_pair_sublist {A B : List OpId} (h : [d, x].Sublist (A ++ x :: B))
    (hnd : (A ++ x :: B).Nodup) : d ∈ A := by
  have hx : x ∉ A ∧ x ∉ B := by
    rw [List.nodup_append, List.nodup_cons] at hnd
    exact ⟨fun hA => hnd.2.2 x hA x List.mem_cons_self rfl, hnd.2.1.1⟩
  rw [pair_sublist_append, pair_sublist_cons] at h
  rcases h with h | ⟨hd, -⟩ | ⟨-, hB⟩ | h
  · exact absurd (h.subset (by simp)) hx.1
  · exact hd
  · exact absurd hB hx.2
  · exact absurd (h.subset (by simp)) hx.2

end Scalarize.Body
