import Scalarize.Proofs.Readiness

/-!
# Widths are sums

* `Ty.PeelsTo` : types are peeled until nothing can be peeled; `PeelsTo.eq_pieces`, `peelsTo_pieces` : what is left;
* `Ty.widthSum` : widths added up without bound;
* `Ty.width_of_children` : an aggregate has a width if its parts have, and their sum is within 64 bits;
* `Ty.SumsUp`, `Ty.sumsUp` : the width of a type is the exact sum over what is left of it.
-/

namespace Scalarize.Ty

/-! ## Peeled to the end -/

/-- The types are peeled, always the first one, and `ls` are those that stay whole, in order. -/
inductive PeelsTo (keep : Bool) : List Ty → List Ty → Prop
  | nil : PeelsTo keep [] []
  | whole {t : Ty} {ts ls : List Ty} : t.peel keep = .ok none → PeelsTo keep ts ls → PeelsTo keep (t :: ts) (t :: ls)
  | split {t : Ty} {ts ls : List Ty} {ps : List Part} : t.peel keep = .ok (some ps) →
      PeelsTo keep (ps.map (·.ty) ++ ts) ls → PeelsTo keep (t :: ts) ls

variable {keep : Bool} {t : Ty} {ts us ls ms : List Ty}

namespace PeelsTo

theorem append (h : PeelsTo keep ts ls) (h' : PeelsTo keep us ms) : PeelsTo keep (ts ++ us) (ls ++ ms) := by
  induction h with
  | nil => exact h'
  | whole hpeel _ ih => exact .whole hpeel ih
  | split hpeel _ ih => exact .split hpeel (List.append_assoc _ _ _ ▸ ih)

/-- There is one outcome only. -/
theorem eq_pieces (h : PeelsTo keep ts ls) : ls = ts.flatMap (pieces keep) := by
  induction h with
  | nil => rfl
  | whole hpeel _ ih =>
    have hwhole := (peel_ends (nofun : False → _)).of_ok hpeel
    rw [List.flatMap_cons, pieces_of_whole hwhole, ← ih, List.singleton_append]
  | split hpeel _ ih =>
    obtain ⟨hps, hk⟩ := (peel_ends (nofun : False → _)).of_ok hpeel
    rw [ih, List.flatMap_append, List.flatMap_cons, hps.pieces_eq hk, List.flatMap_map]

theorem flatMap (h : ∀ t ∈ ts, PeelsTo keep [t] (t.pieces keep)) : PeelsTo keep ts (ts.flatMap (pieces keep)) := by
  induction ts with
  | nil => exact .nil
  | cons t ts ih =>
    exact (h t List.mem_cons_self).append (ih fun u hu => h u (List.mem_cons_of_mem t hu))

end PeelsTo

/-- Peeling comes to an end if the field IDs are within 64 bits. -/
theorem peelsTo_pieces (h : t.lastId?.isSome) : PeelsTo keep [t] (t.pieces keep) := by
  induction t using children_induction with | h t ih =>
  have hends : Ends True (t.peel keep) _ := peel_ends fun _ => h
  obtain ⟨r, hpeel, hr⟩ := hends.exists_ok trivial
  cases r with
  | none =>
    rw [pieces_of_whole hr]
    exact .whole hpeel .nil
  | some ps =>
    obtain ⟨hps, hk⟩ := hr
    refine .split hpeel ?_
    have hparts : PeelsTo keep (ps.map (·.ty)) ((ps.map (·.ty)).flatMap (pieces keep)) := by
      refine .flatMap fun c hc => ?_
      refine ih c (hps.map_ty ▸ hc) ?_
      obtain ⟨p, hp, rfl⟩ := List.mem_map.1 hc
      exact isSome_lastId?_child h (hps.child_index hp)
    rwa [List.append_nil, hps.pieces_eq hk, ← List.flatMap_map]

/-! ## Sums -/

/-- The widths of types added up, without bound; an unknown one adds nothing. -/
def widthSum (ts : List Ty) : Nat := total (ts.map fun t => t.width.getD 0)

theorem widthSum_flatMap (ts : List Ty) (f : Ty → List Ty) :
    widthSum (ts.flatMap f) = total (ts.map fun t => widthSum (f t)) := by
  induction ts with
  | nil => rfl
  | cons t ts ih =>
    rw [List.flatMap_cons, List.map_cons, total, ← ih, widthSum, List.map_append, total_append]
    rfl

theorem le_total_of_mem {n : Nat} {ns : List Nat} (h : n ∈ ns) : n ≤ total ns := by
  induction h with
  | head => exact Nat.le_add_right _ _
  | tail _ _ ih => exact Nat.le_trans ih (Nat.le_add_left _ _)

/-- An aggregate has a width if its parts have, and they are not too wide together. Of a vector without elements, it
has to be known how wide they would be. -/
theorem width_of_children (hg : t.isGround = false) (hne : ∀ e, t ≠ vector e 0)
    (hall : ∀ c ∈ t.children, c.width.isSome) (hlt : widthSum t.children < UInt64.size) :
    t.width = some (widthSum t.children) := by
  cases t with
  | ground g => cases hg
  | bundle fs =>
    show widthFields fs = _
    induction fs with
    | nil => rfl
    | cons f fs ih =>
      obtain ⟨name, flip, t⟩ := f
      obtain ⟨w, hw⟩ := Option.isSome_iff_exists.1 (hall t List.mem_cons_self)
      have hsum : widthSum (bundle (⟨name, flip, t⟩ :: fs)).children = w + widthSum (bundle fs).children := by
        simp [widthSum, children, total, hw]
      rw [hsum] at hlt ⊢
      have hrest : widthFields fs = some (widthSum (bundle fs).children) :=
        ih rfl (fun _ he => by cases he) (fun c hc => hall c (List.mem_cons_of_mem t hc)) (by omega)
      rw [widthFields, hw, Option.bind_some, hrest, Option.bind_some]
      exact word?_eq_some_iff.2 ⟨rfl, hlt⟩
  | vector e n =>
    have hn : n ≠ 0 := fun hn => hne e (by rw [hn])
    obtain ⟨w, hw⟩ := Option.isSome_iff_exists.1 (hall e (List.mem_replicate.2 ⟨hn, rfl⟩))
    have hsum : widthSum (vector e n).children = w * n := by
      rw [widthSum, children, List.map_replicate, total_replicate, hw, Option.getD_some]
    rw [hsum] at hlt ⊢
    rw [width, hw, Option.bind_some]
    exact word?_eq_some_iff.2 ⟨rfl, hlt⟩

/-- A type is left whole, or what its parts leave is left. -/
theorem pieces_cases (t : Ty) (keep : Bool) :
    t.pieces keep = [t] ∨ t.isGround = false ∧ t.pieces keep = t.children.flatMap (pieces keep) := by
  by_cases hwhole : t.isGround ∨ keep = true ∧ t.preservable
  · exact .inl (pieces_of_whole hwhole)
  · obtain ⟨hg, hk⟩ := not_or.1 hwhole
    rw [Bool.not_eq_true] at hg
    exact .inr ⟨hg, pieces_of_split hg hk⟩

/-- What is left of a type of known width is of known width, and as wide together. -/
theorem width_pieces (keep : Bool) {w : Nat} (h : t.width = some w) :
    (∀ l ∈ t.pieces keep, l.width.isSome) ∧ widthSum (t.pieces keep) = w := by
  induction t using children_induction generalizing w with | h t ih =>
  rcases t.pieces_cases keep with hp | ⟨hg, hp⟩
  · rw [hp]
    exact ⟨by simp [h], by simp [widthSum, total, h]⟩
  · obtain ⟨hsum, hall⟩ := width_children h hg
    have hparts : ∀ c ∈ t.children, (∀ l ∈ c.pieces keep, l.width.isSome) ∧
        widthSum (c.pieces keep) = c.width.getD 0 := by
      intro c hc
      obtain ⟨u, hu⟩ := Option.isSome_iff_exists.1 (hall c hc)
      rw [hu]
      exact ih c hc hu
    rw [hp]
    refine ⟨fun l hl => ?_, ?_⟩
    · obtain ⟨c, hc, hl⟩ := List.mem_flatMap.1 hl
      exact (hparts c hc).1 l hl
    · rw [widthSum_flatMap, List.map_congr_left fun c hc => (hparts c hc).2, hsum]

/-- A type is as wide as what is left of it, if that is of known width and not too wide, and no vector without elements
hides a width. -/
theorem width_of_pieces (hne : ∀ path e, t.sub? path ≠ some (vector e 0)) (hall : ∀ l ∈ t.pieces keep, l.width.isSome)
    (hlt : widthSum (t.pieces keep) < UInt64.size) : t.width = some (widthSum (t.pieces keep)) := by
  induction t using children_induction with | h t ih =>
  rcases t.pieces_cases keep with hp | ⟨hg, hp⟩
  · rw [hp] at hall ⊢
    obtain ⟨w, hw⟩ := Option.isSome_iff_exists.1 (hall t List.mem_cons_self)
    simp [widthSum, total, hw]
  · rw [hp, widthSum_flatMap] at hlt ⊢
    rw [hp] at hall
    have hparts : ∀ c ∈ t.children, c.width = some (widthSum (c.pieces keep)) := by
      intro c hc
      obtain ⟨i, hi⟩ := List.mem_iff_getElem?.1 hc
      rw [getElem?_children] at hi
      refine ih c hc (fun path e => ?_) (fun l hl => hall l (List.mem_flatMap.2 ⟨c, hc, hl⟩)) ?_
      · rw [← sub?_child hi]
        exact hne (i :: path) e
      · exact Nat.lt_of_le_of_lt (le_total_of_mem (List.mem_map.2 ⟨c, hc, rfl⟩)) hlt
    have hsum : widthSum t.children = total (t.children.map fun c => widthSum (c.pieces keep)) := by
      rw [widthSum, List.map_congr_left fun c hc => by rw [hparts c hc, Option.getD_some]]
    rw [← hsum] at hlt ⊢
    exact width_of_children hg (fun e he => hne [] e (by rw [he, sub?])) (fun c hc => by rw [hparts c hc]; rfl) hlt

/-- The width of a type is the exact sum of the widths of what is left once it is peeled to the end. -/
structure SumsUp (t : Ty) (keep : Bool) : Prop where
  peels : t.lastId?.isSome → PeelsTo keep [t] (t.pieces keep)
  left : ∀ {ls}, PeelsTo keep [t] ls → ls = t.pieces keep
  known : ∀ {w}, t.width = some w → (∀ l ∈ t.pieces keep, l.width.isSome) ∧ widthSum (t.pieces keep) = w
  unknown : (∀ path e, t.sub? path ≠ some (vector e 0)) → t.width = none →
    (∃ l ∈ t.pieces keep, l.width = none) ∨ UInt64.size ≤ widthSum (t.pieces keep)

theorem sumsUp (t : Ty) (keep : Bool) : t.SumsUp keep where
  peels := peelsTo_pieces
  left h := by rw [h.eq_pieces, List.flatMap_singleton]
  known := width_pieces keep
  unknown hne hw := by
    by_contra hcon
    obtain ⟨hall, hlt⟩ := not_or.1 hcon
    have hall : ∀ l ∈ t.pieces keep, l.width.isSome := fun l hl =>
      Option.isSome_iff_ne_none.2 fun hl' => hall ⟨l, hl, hl'⟩
    rw [width_of_pieces hne hall (Nat.lt_of_not_le hlt)] at hw
    cases hw

/-- Nothing is left of a vector without elements, so that its unknown width is not that of a piece. -/
example : (vector (ground (.uint none)) 0).width = none ∧ (vector (ground (.uint none)) 0).pieces true = [] := by
  decide

end Scalarize.Ty
