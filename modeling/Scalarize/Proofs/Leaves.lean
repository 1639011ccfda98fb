import Scalarize.Proofs.Bits
import Scalarize.Proofs.Readiness

/-!
# Leaves

* `Leaf`, `Ty.leaves` : the ground parts of a type in pre-order, each with the way to it and with the
  direction in which it flows;
* `Ty.mem_leaves`, `Ty.pairwise_leaves` : every ground part is listed once, in the order of the paths;
* `Ty.PartsOf.leaves_eq`, `Ty.PartsOf.leaves_below` : the leaves of a type are those of its parts;
* `Ty.width_leaves` : a type is as wide as its leaves together; `Ty.offset`, `Ty.leaves_split` : where the bits of a node
  lie.
-/

namespace Scalarize

/-- A ground part of a type. -/
structure Leaf where
  /-- Positions of the parts on the way to it. -/
  path : List Nat
  /-- The way to it crosses an odd number of flipped fields. -/
  flip : Bool
  ground : Ground
  deriving DecidableEq, Repr

namespace Leaf

/-- The leaf seen from further up: a path leads to the type that it is a leaf of. -/
def below (path : List Nat) (flip : Bool) (l : Leaf) : Leaf := ⟨path ++ l.path, flip ^^ l.flip, l.ground⟩

/-- Number of bits. -/
def width (l : Leaf) : Nat := l.ground.width.getD 0

@[simp] theorem width_below (path : List Nat) (flip : Bool) (l : Leaf) : (l.below path flip).width = l.width := rfl

theorem below_below (p q : List Nat) (f g : Bool) (l : Leaf) :
    (l.below q g).below p f = l.below (p ++ q) (f ^^ g) := by
  simp [below]

@[simp] theorem below_nil : below [] false = id := by
  funext l
  simp [below]

end Leaf

namespace Ty

variable {t c : Ty} {ps : List Part} {l : Leaf}

/-- Paths are followed one after the other. -/
theorem sub?_append (t : Ty) (p q : List Nat) : t.sub? (p ++ q) = (t.sub? p).bind (·.sub? q) := by
  induction p generalizing t with
  | nil => rfl
  | cons i p ih =>
    rw [List.cons_append, sub?, sub?]
    cases t.child? i with
    | none => rfl
    | some c => exact ih c

theorem sub?_concat {p : List Nat} {i : Nat} {u : Ty} (hu : t.sub? p = some u) (hc : u.child? i = some c) :
    t.sub? (p ++ [i]) = some c := by
  rw [sub?_append, hu, Option.bind_some, sub?_child hc]
  rfl

theorem sub?_of_concat {p : List Nat} {i : Nat} (h : t.sub? (p ++ [i]) = some c) :
    ∃ u, t.sub? p = some u ∧ u.child? i = some c := by
  rw [sub?_append, Option.bind_eq_some_iff] at h
  obtain ⟨u, hu, h⟩ := h
  obtain ⟨d, hd, hc⟩ := Option.bind_eq_some_iff.1 h
  exact ⟨u, hu, hd.trans hc⟩

/-- What has a part with parts is no ground type. -/
theorem isGround_of_sub? {p : List Nat} (hc : t.sub? p = some c) (hg : c.isGround = false) : t.isGround = false := by
  cases p with
  | nil => exact Option.some.inj hc ▸ hg
  | cons i p =>
    obtain ⟨d, hd, -⟩ := Option.bind_eq_some_iff.1 hc
    cases t with
    | ground g => cases hd
    | _ => rfl

/-- Field IDs of a type that are known are known of every part. -/
theorem isSome_lastId?_sub {p : List Nat} (h : t.lastId?.isSome) (hc : t.sub? p = some c) : c.lastId?.isSome := by
  induction p generalizing t with
  | nil => exact Option.some.inj hc ▸ h
  | cons i p ih =>
    obtain ⟨d, hd, hc⟩ := Option.bind_eq_some_iff.1 hc
    exact ih (isSome_lastId?_child h hd) hc

mutual

/-- The leaves of a type in pre-order. -/
def leaves : Ty → List Leaf
  | .ground g => [⟨[], false, g⟩]
  | .bundle fs => leavesFields fs 0
  | .vector e n => (List.range n).flatMap fun i => (leaves e).map (Leaf.below [i] false)

/-- The leaves of a field list, whose head is at position `i`. -/
def leavesFields : List Field → Nat → List Leaf
  | [], _ => []
  | ⟨_, flip, t⟩ :: fs, i => (leaves t).map (Leaf.below [i] flip) ++ leavesFields fs (i + 1)

end

theorem leavesFields_eq (fs : List Field) (i : Nat) :
    leavesFields fs i = (fs.zipIdx i).flatMap fun (f, j) => f.ty.leaves.map (Leaf.below [j] f.flip) := by
  induction fs generalizing i with
  | nil => rfl
  | cons f fs ih =>
    cases f
    rw [leavesFields, ih, List.zipIdx_cons, List.flatMap_cons]

theorem leaves_bundle (fs : List Field) :
    (bundle fs).leaves = fs.zipIdx.flatMap fun (f, i) => f.ty.leaves.map (Leaf.below [i] f.flip) := by
  rw [leaves, leavesFields_eq]

/-! ## Parts -/

/-- The parts of a bundle follow its fields. -/
theorem PartsOf.zipIdx_fields {fs : List Field} (h : PartsOf (bundle fs) ps) :
    fs.zipIdx.map (fun (f, i) => (f.ty, i, f.flip)) = ps.map fun p => (p.ty, p.index, p.flip) := by
  refine List.ext_getElem? fun i => ?_
  rw [List.getElem?_map, List.getElem?_map, List.getElem?_zipIdx]
  cases hf : fs[i]? with
  | none =>
    cases hp : ps[i]? with
    | none => rfl
    | some p =>
      have := h.child hp
      simp [child?, hf] at this
  | some f =>
    obtain ⟨p, hp, hty⟩ := h.getElem?_of_child (i := i) (c := f.ty) (by simp [child?, hf])
    have hflip := h.flip hp rfl
    rw [hf] at hflip
    simp [hp, hty, h.index hp, Option.some.inj hflip]

/-- The parts of a vector are its elements. -/
theorem PartsOf.range_elements {e : Ty} {n : Nat} (h : PartsOf (vector e n) ps) :
    (List.range n).map (fun i => (e, i, false)) = ps.map fun p => (p.ty, p.index, p.flip) := by
  refine List.ext_getElem? fun i => ?_
  rw [List.getElem?_map, List.getElem?_map]
  by_cases hi : i < n
  · obtain ⟨p, hp, hty⟩ := h.getElem?_of_child (i := i) (c := e) (by simp [child?, hi])
    simp [hi, hp, hty, h.index hp, h.noFlip hp rfl]
  · cases hp : ps[i]? with
    | none => simp [hi]
    | some p =>
      have := h.child hp
      simp [child?, hi] at this

/-- The leaves of an aggregate are those of its parts, in order. -/
theorem PartsOf.leaves_eq (h : PartsOf t ps) :
    t.leaves = ps.flatMap fun p => p.ty.leaves.map (Leaf.below [p.index] p.flip) := by
  have hmap : ∀ {α : Type} (l : List α) (f : α → Ty × Nat × Bool), l.map f = ps.map (fun p => (p.ty, p.index, p.flip)) →
      l.flatMap (fun a => (f a).1.leaves.map (Leaf.below [(f a).2.1] (f a).2.2)) =
        ps.flatMap fun p => p.ty.leaves.map (Leaf.below [p.index] p.flip) := fun l f hl => by
    have := congrArg (List.flatMap fun x : Ty × Nat × Bool => x.1.leaves.map (Leaf.below [x.2.1] x.2.2)) hl
    simpa only [List.flatMap_map] using this
  cases t with
  | ground g => cases h.aggregate
  | bundle fs =>
    rw [leaves_bundle]
    exact hmap _ _ h.zipIdx_fields
  | vector e n =>
    rw [leaves]
    exact hmap _ _ h.range_elements

/-- The same seen from further up. -/
theorem PartsOf.leaves_below (h : PartsOf t ps) (path : List Nat) (flip : Bool) :
    t.leaves.map (Leaf.below path flip) =
      ps.flatMap fun p => p.ty.leaves.map (Leaf.below (path ++ [p.index]) (flip ^^ p.flip)) := by
  rw [h.leaves_eq, List.map_flatMap]
  refine List.flatMap_congr fun p _ => ?_
  rw [List.map_map]
  exact List.map_congr_left fun l _ => Leaf.below_below _ _ _ _ _

/-! ## Which leaves there are -/

/-- A path crosses an odd number of flipped fields. -/
def turned : List Nat → Ty → Bool
  | [], _ => false
  | i :: path, .bundle fs => (fs[i]?).elim false fun f => f.flip ^^ f.ty.turned path
  | _ :: path, .vector e _ => e.turned path
  | _ :: _, .ground _ => false

/-- The leaves are the ground parts. -/
theorem mem_leaves : l ∈ t.leaves ↔ t.sub? l.path = some (.ground l.ground) ∧ t.turned l.path = l.flip := by
  obtain ⟨path, flip, g⟩ := l
  induction t generalizing path flip with
  | ground g' => cases path <;> simp [leaves, sub?, child?, turned, eq_comm, and_comm]
  | bundle fs ih =>
    rw [leaves_bundle]
    cases path with
    | nil => simp [sub?, Leaf.below]
    | cons i path =>
      simp only [List.mem_flatMap, List.mem_map, Prod.exists, List.mk_mem_zipIdx_iff_getElem?, sub?, child?, turned]
      constructor
      · rintro ⟨f, j, hf, ⟨p, fl, g'⟩, hl, he⟩
        obtain ⟨⟨rfl, rfl⟩, rfl, rfl⟩ : (j = i ∧ p = path) ∧ (f.flip ^^ fl) = flip ∧ g' = g := by
          simpa [Leaf.below] using he
        obtain ⟨hsub, hturned⟩ := (ih f (List.mem_of_getElem? hf) _ _).1 hl
        simpa [hf, show turned p f.ty = fl from hturned] using hsub
      · rintro ⟨hsub, hturned⟩
        cases hf : fs[i]? with
        | none => simp [hf] at hsub
        | some f =>
          simp only [hf, Option.map_some, Option.bind_some, Option.elim_some] at hsub hturned
          exact ⟨f, i, hf, ⟨path, f.ty.turned path, g⟩, (ih f (List.mem_of_getElem? hf) _ _).2 ⟨hsub, rfl⟩,
            by simp [Leaf.below, hturned]⟩
  | vector e n ih =>
    rw [leaves]
    cases path with
    | nil => simp [sub?, Leaf.below]
    | cons i path =>
      simp only [List.mem_flatMap, List.mem_map, List.mem_range, sub?, child?, turned]
      constructor
      · rintro ⟨j, hj, ⟨p, fl, g'⟩, hl, he⟩
        obtain ⟨⟨rfl, rfl⟩, rfl, rfl⟩ : (j = i ∧ p = path) ∧ fl = flip ∧ g' = g := by simpa [Leaf.below] using he
        simpa [hj] using (ih _ _).1 hl
      · rintro ⟨hsub, hturned⟩
        by_cases hi : i < n
        · rw [if_pos hi, Option.bind_some] at hsub
          exact ⟨i, hi, ⟨path, flip, g⟩, (ih _ _).2 ⟨hsub, hturned⟩, by simp [Leaf.below]⟩
        · simp [hi] at hsub

theorem pairwise_below {ls : List Leaf} (h : (ls.map (·.path)).Pairwise (· < ·)) (i : Nat) (flip : Bool) :
    ((ls.map (Leaf.below [i] flip)).map (·.path)).Pairwise (· < ·) := by
  rw [List.map_map, List.pairwise_map]
  rw [List.pairwise_map] at h
  exact h.imp fun hlt => List.cons_lt_cons_iff.2 (.inr ⟨rfl, hlt⟩)

/-- The leaves are listed in the order of their paths, each once. -/
theorem pairwise_leaves (t : Ty) : (t.leaves.map (·.path)).Pairwise (· < ·) := by
  have hparts : ∀ {α : Type} {l : List α} {i : α → Nat} {f : α → List Leaf} {b : α → Bool},
      l.Pairwise (fun a c => i a < i c) → (∀ a ∈ l, ((f a).map (·.path)).Pairwise (· < ·)) →
      ((l.flatMap fun a => (f a).map (Leaf.below [i a] (b a))).map (·.path)).Pairwise (· < ·) := by
    intro α l i f b hi hf
    rw [List.map_flatMap, List.pairwise_flatMap]
    refine ⟨fun a ha => pairwise_below (hf a ha) _ _, hi.imp fun {a c} hac p hp q hq => ?_⟩
    obtain ⟨l, -, rfl⟩ := List.mem_map.1 (List.map_map ▸ hp)
    obtain ⟨m, -, rfl⟩ := List.mem_map.1 (List.map_map ▸ hq)
    exact List.cons_lt_cons_iff.2 (.inl hac)
  induction t with
  | ground g => exact List.pairwise_singleton _ _
  | bundle fs ih =>
    rw [leaves_bundle]
    refine hparts (i := fun x : Field × Nat => x.2) ?_ fun x hx => ?_
    · rw [List.pairwise_iff_getElem]
      intro i j hi hj hij
      simpa using hij
    · exact ih x.1 (List.mem_of_getElem? (List.mem_zipIdx_iff_getElem?.1 hx))
  | vector e n ih =>
    rw [leaves]
    exact hparts (i := fun i => i) List.pairwise_lt_range fun _ _ => ih

/-! ## Widths -/

/-- Leaves seen from further up are as wide as they are. -/
theorem total_below {α : Type} (l : List α) (f : α → List Leaf) (path : α → List Nat) (flip : α → Bool) :
    total ((l.flatMap fun a => (f a).map (Leaf.below (path a) (flip a))).map (·.width)) =
      total (l.map fun a => total ((f a).map (·.width))) := by
  induction l with
  | nil => rfl
  | cons a l ih =>
    rw [List.flatMap_cons, List.map_append, total_append, ih, List.map_cons, total, List.map_map]
    rfl

/-- A type is as wide as its leaves together. -/
theorem width_leaves {w : Nat} (h : t.width = some w) : total (t.leaves.map (·.width)) = w := by
  induction t generalizing w with
  | ground g =>
    have hw : g.width = some w := h
    simp [leaves, total, Leaf.width, hw]
  | bundle fs ih =>
    obtain ⟨hsum, hall⟩ := width_children h rfl
    rw [leaves_bundle, total_below, ← hsum, children, List.map_map]
    congr 1
    refine List.ext_getElem? fun i => ?_
    rw [List.getElem?_map, List.getElem?_map, List.getElem?_zipIdx]
    cases hf : fs[i]? with
    | none => rfl
    | some f =>
      obtain ⟨u, hu⟩ := Option.isSome_iff_exists.1 (hall f.ty (List.mem_map_of_mem (List.mem_of_getElem? hf)))
      simp [hu, ih f (List.mem_of_getElem? hf) hu]
  | vector e n ih =>
    rw [leaves, total_below]
    rw [width, Option.bind_eq_some_iff] at h
    obtain ⟨u, hu, h⟩ := h
    obtain ⟨rfl, -⟩ := word?_eq_some_iff.1 h
    rw [ih hu, List.map_const', List.length_range, total_replicate]

/-- Number of bits in front of the node at the end of a path. -/
def offset (t : Ty) : List Nat → Nat
  | [] => 0
  | i :: p => t.bitsBefore i + (t.child? i).elim 0 fun c => c.offset p

theorem offset_append {p : List Nat} (hc : t.sub? p = some c) (q : List Nat) :
    t.offset (p ++ q) = t.offset p + c.offset q := by
  induction p generalizing t with
  | nil =>
    obtain rfl := Option.some.inj hc
    rw [List.nil_append, offset, Nat.zero_add]
  | cons i p ih =>
    obtain ⟨d, hd, hc⟩ := Option.bind_eq_some_iff.1 hc
    rw [List.cons_append, offset, offset, hd, Option.elim_some, Option.elim_some, ih hc, Nat.add_assoc]

theorem offset_concat {p : List Nat} (hc : t.sub? p = some c) (i : Nat) :
    t.offset (p ++ [i]) = t.offset p + c.bitsBefore i := by
  rw [offset_append hc, offset]
  cases c.child? i <;> rfl

/-- A node is as wide as known, and ends within the whole. -/
theorem offset_add_le {p : List Nat} {w : Nat} (hw : t.width = some w) (hc : t.sub? p = some c) :
    ∃ u, c.width = some u ∧ t.offset p + u ≤ w := by
  induction p generalizing t w with
  | nil =>
    obtain rfl := Option.some.inj hc
    exact ⟨w, hw, by simp [offset]⟩
  | cons i p ih =>
    obtain ⟨d, hd, hc⟩ := Option.bind_eq_some_iff.1 hc
    obtain ⟨v, hv, -⟩ := width_child hw hd
    obtain ⟨u, hu, hle⟩ := ih hv hc
    have := bitsBefore_add_le hd hv hw
    refine ⟨u, hu, ?_⟩
    rw [offset, hd, Option.elim_some]
    omega

theorem exists_partsOf (hid : t.lastId?.isSome) (hg : t.isGround = false) : ∃ ps, PartsOf t ps := by
  have hparts : Ends True t.parts (PartsOf t) := parts_ends hg fun _ => hid
  obtain ⟨ps, -, hps⟩ := hparts.exists_ok trivial
  exact ⟨ps, hps⟩

/-- The leaves of a node are listed together, behind others that are as wide as what lies in front of the node. -/
theorem leaves_split {p : List Nat} {w : Nat} (hid : t.lastId?.isSome) (hw : t.width = some w) (hc : t.sub? p = some c) :
    ∃ flip m₁ m₂, t.leaves = m₁ ++ c.leaves.map (Leaf.below p flip) ++ m₂ ∧ total (m₁.map (·.width)) = t.offset p := by
  induction p generalizing t w with
  | nil =>
    obtain rfl := Option.some.inj hc
    exact ⟨false, [], [], by simp, rfl⟩
  | cons i p ih =>
    obtain ⟨d, hd, hc⟩ := Option.bind_eq_some_iff.1 hc
    obtain ⟨u, hu, -⟩ := width_child hw hd
    obtain ⟨flip, m₁, m₂, hl, htotal⟩ := ih (isSome_lastId?_child hid hd) hu hc
    have hg : t.isGround = false := by
      cases t with
      | ground g => cases hd
      | _ => rfl
    obtain ⟨ps, hps⟩ := exists_partsOf hid hg
    obtain ⟨part, hpart, rfl⟩ := hps.getElem?_of_child hd
    obtain ⟨hi, hget⟩ := List.getElem?_eq_some_iff.1 hpart
    have hindex := hps.index hpart
    have hsplit : ps = ps.take i ++ part :: ps.drop (i + 1) := by
      conv_lhs => rw [← List.take_append_drop i ps, List.drop_eq_getElem_cons hi, hget]
    let below : Part → List Leaf := fun q => q.ty.leaves.map (Leaf.below [q.index] q.flip)
    refine ⟨part.flip ^^ flip, (ps.take i).flatMap below ++ m₁.map (Leaf.below [i] part.flip),
      m₂.map (Leaf.below [i] part.flip) ++ (ps.drop (i + 1)).flatMap below, ?_, ?_⟩
    · have hbelow : below part = m₁.map (Leaf.below [i] part.flip) ++
          c.leaves.map (Leaf.below (i :: p) (part.flip ^^ flip)) ++ m₂.map (Leaf.below [i] part.flip) := by
        change part.ty.leaves.map (Leaf.below [part.index] part.flip) = _
        rw [hl, hindex, List.map_append, List.map_append, List.map_map]
        congr 2
        exact List.map_congr_left fun l _ => Leaf.below_below _ _ _ _ _
      rw [hps.leaves_eq]
      conv_lhs => rw [hsplit]
      rw [List.flatMap_append, List.flatMap_cons, show part.ty.leaves.map (Leaf.below [part.index] part.flip) = _ from hbelow]
      simp only [List.append_assoc]
      rfl
    · have hbefore : total (((ps.take i).flatMap below).map (·.width)) = t.bitsBefore i := by
        rw [total_below, bitsBefore, ← hps.map_ty, ← List.map_take, List.map_map]
        congr 1
        refine List.map_congr_left fun q hq => ?_
        obtain ⟨v, hv, -⟩ := width_child hw (hps.child_index (List.mem_of_mem_take hq))
        simp only [width_leaves hv, Function.comp_apply, hv, Option.getD_some]
      rw [List.map_append, total_append, hbefore, offset, hd, Option.elim_some, ← htotal, List.map_map]
      rfl

/-- A leaf lies behind the leaves that are listed before it. -/
theorem offset_leaf {m₁ m₂ : List Leaf} {w : Nat} (hid : t.lastId?.isSome) (hw : t.width = some w)
    (hl : t.leaves = m₁ ++ l :: m₂) : t.offset l.path = total (m₁.map (·.width)) := by
  have hsub := (mem_leaves.1 (hl ▸ List.mem_append_right m₁ List.mem_cons_self : l ∈ t.leaves)).1
  obtain ⟨flip, n₁, n₂, hn, htotal⟩ := leaves_split hid hw hsub
  -- a leaf is listed once
  have hindex : ∀ {m m' : List Leaf} {l' : Leaf}, t.leaves = m ++ l' :: m' →
      (t.leaves.map (·.path)).idxOf l'.path = m.length := by
    intro m m' l' h
    have hpair := pairwise_leaves t
    rw [h, List.map_append, List.pairwise_append] at hpair
    rw [h, List.map_append, List.idxOf_append_of_notMem, List.map_cons, List.idxOf_cons_self, List.length_map, Nat.add_zero]
    exact fun hmem => List.lt_irrefl _ (hpair.2.2 _ hmem l'.path (by simp))
  have hn' : t.leaves = n₁ ++ Leaf.below l.path flip ⟨[], false, l.ground⟩ :: n₂ := by simpa [leaves] using hn
  have hlen : n₁.length = m₁.length := by
    rw [← hindex hl, ← hindex hn']
    simp [Leaf.below]
  rw [← htotal, (List.append_inj (hn'.symm.trans hl) hlen).1]

/-- Bits of leaves, strung together. -/
theorem length_flatten {vals : List (List Bool)} {ls : List Leaf}
    (hv : List.Forall₂ (fun bits l => bits.length = l.width) vals ls) : vals.flatten.length = total (ls.map (·.width)) := by
  induction hv with
  | nil => rfl
  | cons h _ ih => rw [List.flatten_cons, List.length_append, List.map_cons, total, h, ih]

/-- Bits of all leaves are those of the type. -/
theorem length_flatten_leaves {vals : List (List Bool)} {w : Nat} (hw : t.width = some w)
    (hv : List.Forall₂ (fun bits l => bits.length = l.width) vals t.leaves) : vals.flatten.length = w := by
  rw [length_flatten hv, width_leaves hw]

end Ty

end Scalarize
