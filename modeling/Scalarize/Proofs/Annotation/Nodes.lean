import Mathlib.Data.List.Infix
import Scalarize.Proofs.Annotation
import Scalarize.Proofs.FieldIds
import Scalarize.Proofs.Leaves

/-!
# Annotations of the nodes of a type

* `Ty.Node` : a node of a type and the field IDs below it; `Ty.addresses` : an ID belongs to a node, or to one that
  encloses it;
* `Annotation.atNode` : what an annotation of the whole means at a node, and `Annotation.onLeaf` at a leaf;
* `Annotation.Steps.onPart_atNode`, `Annotation.Steps.restrict_heldAt` : restricting the annotations of a node to one
  of its parts gives those of the part;
* `Carried`, `Carried.restrict`, `Carried.leaf` : the annotations and the symbol of a node, down to the leaves.
-/

namespace Scalarize

variable {t c d : Ty} {path q : List Nat} {f m g i id : Nat}

/-! ## Nodes -/

namespace Ty

theorem lastId?_lt (h : t.lastId? = some m) : m < UInt64.size := by
  cases t with
  | ground g => exact Option.some.inj h ▸ (by decide)
  | bundle fs =>
    cases fs with
    | nil => exact Option.some.inj h ▸ (by decide)
    | cons f fs =>
      obtain ⟨s, -, h⟩ := Option.bind_eq_some_iff.1 ((spans?_cons f fs).symm.trans h)
      obtain ⟨r, -, h⟩ := Option.bind_eq_some_iff.1 h
      exact (word?_eq_some_iff.1 h).1 ▸ (word?_eq_some_iff.1 h).2
  | vector e n =>
    obtain ⟨s, -, h⟩ := Option.bind_eq_some_iff.1 ((lastId?_vector e n).symm.trans h)
    exact (word?_eq_some_iff.1 h).1 ▸ (word?_eq_some_iff.1 h).2

/-- The path leads to the node `c`, which has the field ID `f`; those below it end at `f + m`. -/
structure Node (t : Ty) (path : List Nat) (c : Ty) (f m : Nat) : Prop where
  sub : t.sub? path = some c
  id : t.pathId? path = some f
  last : c.lastId? = some m
  lt : f + m < UInt64.size

theorem Node.root (h : t.lastId? = some m) : t.Node [] t 0 m :=
  ⟨rfl, rfl, h, by simpa using lastId?_lt h⟩

/-- The IDs of a part lie behind that of the node, and among those below it. -/
theorem Node.child (h : t.Node path c f m) (hd : c.child? i = some d) :
    ∃ g k, c.childId? i = some g ∧ t.Node (path ++ [i]) d (f + g) k ∧ 1 ≤ g ∧ g + k ≤ m := by
  obtain ⟨k, g, hk, hg, hpos, hle, -⟩ := lastId?_child h.last hd
  have := h.lt
  refine ⟨g, k, hg, ⟨sub?_concat h.sub hd, ?_, hk, by omega⟩, hpos, hle⟩
  rw [pathId?_append h.id h.sub]
  simp [pathId?, hd, hg]

/-- The ID belongs to the node at the end of the path, or to one that encloses it. -/
def addresses (t : Ty) (id : Nat) (path : List Nat) : Bool := path.inits.any fun q => t.pathId? q = some id

theorem addresses_iff : t.addresses id path ↔ ∃ q, q <+: path ∧ t.pathId? q = some id := by
  simp [addresses]

theorem addresses_zero (t : Ty) (path : List Nat) : t.addresses 0 path :=
  addresses_iff.2 ⟨[], List.nil_prefix, rfl⟩

theorem addresses_concat : t.addresses id (path ++ [i]) ↔ t.addresses id path ∨ t.pathId? (path ++ [i]) = some id := by
  simp only [addresses_iff, List.prefix_concat_iff]
  constructor
  · rintro ⟨q, rfl | hq, hid⟩
    · exact .inr hid
    · exact .inl ⟨q, hq, hid⟩
  · rintro (⟨q, hq, hid⟩ | hid)
    · exact ⟨q, .inr hq, hid⟩
    · exact ⟨_, .inl rfl, hid⟩

/-- A node that encloses another has no larger ID. -/
theorem Node.addresses_le (h : t.Node path c f m) (hid : t.addresses id path) : id ≤ f := by
  obtain ⟨q, ⟨r, rfl⟩, hq⟩ := addresses_iff.1 hid
  obtain ⟨u, hu⟩ := Option.isSome_iff_exists.1 (isSome_sub?_of_pathId? hq)
  have hf := h.id
  rw [pathId?_append hq hu, Option.map_eq_some_iff] at hf
  obtain ⟨n, -, rfl⟩ := hf
  exact Nat.le_add_right _ _

end Ty

/-! ## One annotation -/

namespace Annotation

variable {a a' : Annotation} {n k : Nat} {part : Part}

/-- The field ID that a signal driver holds moves on. -/
def moved (a : Annotation) (n : Nat) : Annotation :=
  if n = 0 ∨ a.className ≠ signalDriver then a
  else { a with members := a.members.put fieldIdMember (.int (a.held + n : Nat)) }

/-- What an annotation of a whole means at a node: it is carried by the node, or narrowed to one below it. -/
def atNode (a : Annotation) (t : Ty) (path : List Nat) (f m : Nat) : Option Annotation :=
  match a.fieldId with
  | none => some (a.moved f)
  | some id =>
    if t.addresses id path then
      if a.className = dontTouch ∧ id ≠ 0 then none else some (moved { a with fieldId := none } (f - id))
    else if f < id ∧ id ≤ f + m then some { a with fieldId := some (id - f) }
    else none

/-- What an annotation of a whole means at the leaf with a field ID. -/
def onLeaf (a : Annotation) (t : Ty) (path : List Nat) (f : Nat) : Option Annotation :=
  match a.fieldId with
  | none => some (a.moved f)
  | some id =>
    if t.addresses id path ∧ ¬(a.className = dontTouch ∧ id ≠ 0) then some (moved { a with fieldId := none } (f - id))
    else none

theorem atNode_leaf (a : Annotation) (t : Ty) (path : List Nat) (f : Nat) : a.atNode t path f 0 = a.onLeaf t path f := by
  unfold atNode onLeaf
  split
  next => rfl
  next id _ =>
    have hnot : ¬(f < id ∧ id ≤ f + 0) := by omega
    rw [if_neg hnot]
    by_cases h : t.addresses id path <;> by_cases h' : a.className = dontTouch ∧ id ≠ 0 <;> simp only [h, h']
    all_goals simp

/-- A do-not-touch annotation belongs to the node at the end of the path, which is not the root. -/
def PinsNode (a : Annotation) (t : Ty) (path : List Nat) : Prop :=
  a.className = dontTouch ∧ ∃ id ≠ 0, a.fieldId = some id ∧ t.pathId? path = some id

/-- A do-not-touch annotation belongs to the node at the end of the path, or to one below the root that encloses it. -/
def Pins (a : Annotation) (t : Ty) (path : List Nat) : Prop :=
  a.className = dontTouch ∧ ∃ id ≠ 0, a.fieldId = some id ∧ t.addresses id path

/-- The annotation has the node carry a symbol, whatever encloses the node does. -/
def Asks (a : Annotation) (t : Ty) (path : List Nat) (f m : Nat) (ground : Bool) : Prop :=
  a.PinsNode t path ∨ ground ∧ ∃ c, a.atNode t path f m = some c ∧ c.path.isSome

/-- What a signal driver holds stays within 64 bits at each node that it reaches, and it does not name the root. -/
structure Movable (a : Annotation) (t : Ty) : Prop where
  driver : a.className = signalDriver → a.fieldId ≠ some 0
  sums : a.className = signalDriver → ∀ {path c f m}, t.Node path c f m →
    (∀ id, a.fieldId = some id → t.addresses id path) → a.held + (f - a.target) < UInt64.size

/-- An annotation that can be moved behind all nodes can be moved to each of them. -/
theorem Fits.movable {last : Nat} (h : a.Fits last) (hdriver : a.className = signalDriver → a.fieldId ≠ some 0)
    (hlast : t.lastId? = some last) (hlt : last + 1 < UInt64.size) : a.Movable t where
  driver := hdriver
  sums hc {path c f m} hn _ := by
    have := Ty.pathId?_le hlast hlt hn.id
    have := h hc
    omega

@[simp] theorem moved_zero (a : Annotation) : a.moved 0 = a := if_pos (.inl rfl)

theorem moved_of_ne (h : a.className ≠ signalDriver) (n : Nat) : a.moved n = a := if_pos (.inr h)

@[simp] theorem className_moved (a : Annotation) (n : Nat) : (a.moved n).className = a.className := by
  unfold moved
  split <;> rfl

@[simp] theorem fieldId_moved (a : Annotation) (n : Nat) : (a.moved n).fieldId = a.fieldId := by
  unfold moved
  split <;> rfl

@[simp] theorem path_moved (a : Annotation) (n : Nat) : (a.moved n).path = a.path := by
  unfold moved
  split <;> rfl

theorem spread_eq (h : a.className = signalDriver → a.held + n < UInt64.size) : a.spread n = .ok (a.moved n) := by
  unfold spread moved
  by_cases hn : n = 0
  · simp [hn]
    rfl
  by_cases hc : a.className = signalDriver
  · have hw : word? (a.held + n) = some (a.held + n) := word?_eq_some_iff.2 ⟨rfl, h hc⟩
    simp only [hn, hc, decide_false, bne_self_eq_false, Bool.or_self, Bool.false_eq_true, if_false, ne_eq,
      not_true_eq_false, or_self]
    change (orOverflow (word? (a.held + n)) >>= fun moved => _) = _
    rw [hw]
    rfl
  · simp [hc]
    rfl

theorem put_put {κ ν : Type} [DecidableEq κ] (l : Assoc κ ν) (k : κ) (v w : ν) : (l.put k v).put k w = l.put k w := by
  induction l with
  | nil => simp [Assoc.put]
  | cons e l ih =>
    obtain ⟨j, u⟩ := e
    by_cases h : j = k <;> simp [Assoc.put, h, ih]

theorem moved_eq (hn : n ≠ 0) (hc : a.className = signalDriver) :
    a.moved n = { a with members := a.members.put fieldIdMember (.int (a.held + n : Nat)) } :=
  if_neg (not_or.2 ⟨hn, not_not.2 hc⟩)

theorem held_moved (hc : a.className = signalDriver) (h : a.held + n < UInt64.size) :
    (a.moved n).held = a.held + n := by
  by_cases hn : n = 0
  · simp [hn]
  · rw [moved_eq hn hc, held_put_int a h]

/-- Moves add up. -/
theorem moved_moved (h : a.className = signalDriver → a.held + n < UInt64.size) :
    (a.moved n).moved k = a.moved (n + k) := by
  by_cases hn : n = 0
  · simp [hn]
  by_cases hk : k = 0
  · simp [hk]
  by_cases hc : a.className = signalDriver
  · rw [moved_eq hk ((className_moved a n).trans hc), held_moved hc (h hc), moved_eq hn hc, moved_eq (by omega) hc,
      put_put, Nat.add_assoc]
  · simp [moved_of_ne hc]

theorem pins_concat : a.Pins t (path ++ [i]) ↔ a.Pins t path ∨ a.PinsNode t (path ++ [i]) := by
  simp only [Pins, PinsNode, Ty.addresses_concat]
  constructor
  · rintro ⟨hc, id, hne, hid, h | h⟩
    · exact .inl ⟨hc, id, hne, hid, h⟩
    · exact .inr ⟨hc, id, hne, hid, h⟩
  · rintro (⟨hc, id, hne, hid, h⟩ | ⟨hc, id, hne, hid, h⟩)
    · exact ⟨hc, id, hne, hid, .inl h⟩
    · exact ⟨hc, id, hne, hid, .inr h⟩

/-- The annotation has the node carry a symbol, or something that encloses it. -/
def Marks (a : Annotation) (t : Ty) (path : List Nat) (f m : Nat) (ground : Bool) : Prop :=
  a.Pins t path ∨ ground ∧ ∃ c, a.atNode t path f m = some c ∧ c.path.isSome

theorem marks_concat {ground : Bool} :
    a.Marks t (path ++ [i]) f m ground ↔ a.Pins t path ∨ a.Asks t (path ++ [i]) f m ground := by
  simp only [Marks, Asks, pins_concat, or_assoc]

/-- What is known of one step from a node to a part of it. -/
structure Steps (t : Ty) (path : List Nat) (f m : Nat) (part : Part) (k : Nat) : Prop where
  root : path = [] → f = 0
  below : ∀ {id}, t.addresses id path → id ≤ f
  node : t.Node (path ++ [part.index]) part.ty (f + part.fieldId) k
  pos : 1 ≤ part.fieldId
  le : part.fieldId + k ≤ m

theorem Steps.of_node (h : t.Node path c f m) (hd : c.child? part.index = some part.ty)
    (hid : c.childId? part.index = some part.fieldId) : ∃ k, Steps t path f m part k := by
  obtain ⟨g, k, hg, hnode, hpos, hle⟩ := h.child hd
  obtain rfl := Option.some.inj (hid.symm.trans hg)
  refine ⟨k, fun hp => ?_, h.addresses_le, hnode, hpos, hle⟩
  subst hp
  exact (Option.some.inj h.id).symm

theorem Steps.ne (h : Steps t path f m part k) (hid : t.addresses id path) : id ≠ f + part.fieldId := by
  have := h.below hid
  have := h.pos
  omega

/-- What is not at a node is not at its parts. -/
theorem Steps.atNode_none {ground : Bool} (h : Steps t path f m part k) (ha : a.atNode t path f m = none) :
    a.atNode t (path ++ [part.index]) (f + part.fieldId) k = none ∧
      ¬a.Asks t (path ++ [part.index]) (f + part.fieldId) k ground := by
  suffices hnone : a.atNode t (path ++ [part.index]) (f + part.fieldId) k = none ∧
      ¬a.PinsNode t (path ++ [part.index]) by
    refine ⟨hnone.1, ?_⟩
    rintro (hpins | ⟨-, c, hc, -⟩)
    · exact hnone.2 hpins
    · rw [hnone.1] at hc
      cases hc
  unfold atNode at ha ⊢
  have hpos := h.pos
  have hle := h.le
  cases hid : a.fieldId with
  | none => simp [hid] at ha
  | some id =>
    simp only [hid] at ha ⊢
    have hne : id ≠ f + part.fieldId := by
      rintro rfl
      split at ha
      next haddr => exact h.ne haddr rfl
      next =>
        simp only [ite_eq_right_iff, reduceCtorEq, imp_false] at ha
        omega
    have hnode : t.pathId? (path ++ [part.index]) ≠ some id := fun he => hne (Option.some.inj (h.node.id.symm.trans he)).symm
    refine ⟨?_, fun ⟨_, id', _, hid', hp⟩ => hnode (Option.some.inj (hid.symm.trans hid') ▸ hp)⟩
    split at ha
    next haddr =>
      rw [if_pos (Ty.addresses_concat.2 (.inl haddr))]
      split at ha
      next hdont => rw [if_pos hdont]
      next => cases ha
    next haddr =>
      simp only [ite_eq_right_iff, reduceCtorEq, imp_false] at ha
      rw [if_neg fun hc => (Ty.addresses_concat.1 hc).elim haddr hnode, if_neg (by omega)]

/-- An annotation for all that is below a node is handed on, and the ID that it holds moves along. -/
theorem onPart_moved {a₀ : Annotation} (last : Nat) (hid : a₀.fieldId = none)
    (h : a₀.className = signalDriver → a₀.held + (n + part.fieldId) < UInt64.size) :
    (a₀.moved n).onPart part last = .ok (.carried (a₀.moved (n + part.fieldId))) := by
  have hspread : (a₀.moved n).spread part.fieldId = .ok (a₀.moved (n + part.fieldId)) := by
    rw [← moved_moved fun hc => by have := h hc; omega]
    refine spread_eq fun hc => ?_
    rw [className_moved] at hc
    have := h hc
    rw [held_moved hc (by omega)]
    omega
  unfold onPart
  rw [fieldId_moved, hid]
  change Share.carried <$> _ = _
  rw [hspread]
  rfl

/-- An annotation of a node is, for a part of it, what it is at that part. -/
theorem Steps.onPart_atNode (h : Steps t path f m part k) (hm : a.Movable t) (ha : a.atNode t path f m = some a') :
    ∃ s, a'.onPart part (part.fieldId + k) = .ok s ∧
      s.carried? = a.atNode t (path ++ [part.index]) (f + part.fieldId) k ∧
      ∀ ground, s.needsSym ground ↔ a.Asks t (path ++ [part.index]) (f + part.fieldId) k ground := by
  have hpos := h.pos
  have hle := h.le
  have hnode := h.node.id
  -- what it asks for follows from what it is, if it does not turn into a symbol
  have hasks : ∀ {c ground}, a.atNode t (path ++ [part.index]) (f + part.fieldId) k = some c →
      ¬a.PinsNode t (path ++ [part.index]) →
      ((Share.carried c).needsSym ground ↔ a.Asks t (path ++ [part.index]) (f + part.fieldId) k ground) :=
    fun hat hpins => by simp [Share.needsSym, Asks, hpins, hat]
  unfold atNode at ha
  split at ha
  next hid =>
    obtain rfl := Option.some.inj ha
    have hat : a.atNode t (path ++ [part.index]) (f + part.fieldId) k = some (a.moved (f + part.fieldId)) := by
      simp [atNode, hid]
    refine ⟨_, onPart_moved _ hid fun hc => ?_, hat.symm, fun ground => hasks hat ?_⟩
    · simpa [target, hid] using hm.sums hc h.node fun id h' => by rw [hid] at h'; cases h'
    · rintro ⟨-, id, -, h', -⟩
      rw [hid] at h'
      cases h'
  next id hid =>
  split at ha
  next haddr =>
    have haddr' := (Ty.addresses_concat (i := part.index)).2 (.inl haddr)
    have hbelow := h.below haddr
    have hpins : ¬a.PinsNode t (path ++ [part.index]) := by
      rintro ⟨-, id', -, hid', hp⟩
      obtain rfl := Option.some.inj (hid.symm.trans hid')
      exact h.ne haddr (Option.some.inj (hp.symm.trans hnode))
    split at ha
    next => cases ha
    next hdont =>
    obtain rfl := Option.some.inj ha
    have hsub : f + part.fieldId - id = f - id + part.fieldId := by omega
    have hat : a.atNode t (path ++ [part.index]) (f + part.fieldId) k =
        some (moved { a with fieldId := none } (f - id + part.fieldId)) := by
      simp only [atNode, hid]
      rw [if_pos haddr', if_neg hdont, hsub]
    refine ⟨_, onPart_moved _ rfl fun hc => ?_, hat.symm, fun ground => hasks hat hpins⟩
    have := hm.sums hc h.node fun id' h' => Option.some.inj (hid.symm.trans h') ▸ haddr'
    rw [target, hid, Option.getD_some] at this
    rwa [← hsub]
  next haddr =>
  split at ha
  next hbelow =>
    obtain rfl := Option.some.inj ha
    have hconcat : t.addresses id (path ++ [part.index]) ↔ id = f + part.fieldId := by
      rw [Ty.addresses_concat, hnode, Option.some.injEq, or_iff_right haddr, eq_comm]
    have hpins : a.PinsNode t (path ++ [part.index]) ↔ a.className = dontTouch ∧ id = f + part.fieldId := by
      simp only [PinsNode, hid, Option.some.injEq, hnode]
      exact ⟨fun ⟨hc, id', _, h₁, h₂⟩ => ⟨hc, h₁.trans h₂.symm⟩, fun ⟨hc, he⟩ => ⟨hc, id, by omega, rfl, he.symm⟩⟩
    have hsucc : ∃ j, id - f = j + 1 := ⟨id - f - 1, by omega⟩
    obtain ⟨j, hj⟩ := hsucc
    unfold onPart
    simp only [hj, Bool.or_eq_true, decide_eq_true_eq]
    by_cases hout : j + 1 < part.fieldId ∨ part.fieldId + k < j + 1
    · -- another part holds the node it belongs to
      have hat : a.atNode t (path ++ [part.index]) (f + part.fieldId) k = none := by
        simp only [atNode, hid]
        rw [if_neg (by rw [hconcat]; omega), if_neg (by omega)]
      rw [if_pos hout]
      refine ⟨_, rfl, hat.symm, fun ground => ⟨nofun, ?_⟩⟩
      rintro (hp | ⟨-, c, hc, -⟩)
      · have := (hpins.1 hp).2
        omega
      · rw [hat] at hc
        cases hc
    rw [if_neg hout]
    by_cases hlt : part.fieldId < j + 1
    · have hat : a.atNode t (path ++ [part.index]) (f + part.fieldId) k =
          some { a with fieldId := some (j + 1 - part.fieldId) } := by
        simp only [atNode, hid]
        rw [if_neg (by rw [hconcat]; omega), if_pos (by omega)]
        congr 3
        omega
      rw [if_pos hlt]
      exact ⟨_, rfl, hat.symm, fun ground => hasks hat fun hp => by have := (hpins.1 hp).2; omega⟩
    have he : id = f + part.fieldId := by omega
    rw [if_neg hlt]
    by_cases hdont : a.className = dontTouch
    · rw [if_pos hdont]
      refine ⟨_, rfl, ?_, fun ground => ⟨fun _ => .inl (hpins.2 ⟨hdont, he⟩), fun _ => rfl⟩⟩
      simp only [atNode, hid]
      rw [if_pos (hconcat.2 he), if_pos ⟨hdont, by omega⟩]
      rfl
    · have hat : a.atNode t (path ++ [part.index]) (f + part.fieldId) k = some { a with fieldId := none } := by
        simp only [atNode, hid]
        rw [if_pos (hconcat.2 he), if_neg (fun hc => hdont hc.1), he, Nat.sub_self, moved_zero]
      rw [if_neg hdont]
      exact ⟨_, rfl, hat.symm, fun ground => hasks hat fun hp => hdont (hpins.1 hp).1⟩
  next => cases ha

/-- At the root nothing has moved, and what belongs to the root belongs to all of it. -/
theorem onPart_root (hm : a.className = signalDriver → a.fieldId ≠ some 0) (ha : a.atNode t [] 0 m = some a')
    (part : Part) (last : Nat) : a.onPart part last = a'.onPart part last := by
  unfold atNode at ha
  split at ha
  next => rw [← Option.some.inj ha, moved_zero]
  next id hid =>
  split at ha
  next haddr =>
    obtain rfl : id = 0 := by
      obtain ⟨q, hq, hid'⟩ := Ty.addresses_iff.1 haddr
      rw [List.prefix_nil.1 hq] at hid'
      exact (Option.some.inj hid').symm
    rw [if_neg (by simp)] at ha
    rw [← Option.some.inj ha]
    have hne : a.className ≠ signalDriver := fun hc => hm hc hid
    have hspread : (moved { a with fieldId := none } 0).onPart part last =
        .ok (.carried (moved { a with fieldId := none } (0 + part.fieldId))) :=
      onPart_moved last rfl fun hc => absurd hc hne
    rw [moved_zero, moved_of_ne (a := { a with fieldId := none }) hne] at hspread
    rw [Nat.sub_self, moved_zero, hspread]
    unfold onPart
    rw [hid]
    rfl
  next =>
  split at ha
  next => rw [← Option.some.inj ha, Nat.sub_zero, ← hid]
  next => cases ha

/-- What lies behind the last node is dropped. -/
theorem onPart_root_none (ha : a.atNode t [] 0 m = none) {last : Nat} (hle : last ≤ m) (part : Part) :
    a.onPart part last = .ok .absent := by
  unfold atNode at ha
  split at ha
  next => cases ha
  next id hid =>
  split at ha
  next haddr =>
    obtain rfl : id = 0 := by
      obtain ⟨q, hq, hid'⟩ := Ty.addresses_iff.1 haddr
      rw [List.prefix_nil.1 hq] at hid'
      exact (Option.some.inj hid').symm
    rw [if_neg (by simp)] at ha
    cases ha
  next haddr =>
    have hne : id ≠ 0 := by
      rintro rfl
      exact haddr (Ty.addresses_zero t [])
    obtain ⟨j, rfl⟩ := Nat.exists_eq_succ_of_ne_zero hne
    simp only [Nat.zero_add, ite_eq_right_iff, reduceCtorEq, imp_false, not_and] at ha
    unfold onPart
    rw [hid]
    simp only [Nat.succ_eq_add_one, Bool.or_eq_true, decide_eq_true_eq]
    rw [if_pos (.inr (by omega))]
    rfl

/-- The root hands an annotation on as it hands on what the annotation means at the root. -/
theorem Steps.onPart_root (h : Steps t [] 0 m part k) (hm : a.Movable t) :
    ∃ s, a.onPart part (part.fieldId + k) = .ok s ∧ s.carried? = a.atNode t [part.index] part.fieldId k ∧
      ∀ ground, s.needsSym ground ↔ a.Asks t [part.index] part.fieldId k ground := by
  cases ha : a.atNode t [] 0 m with
  | none =>
    have hnone : ∀ ground, a.atNode t ([] ++ [part.index]) (0 + part.fieldId) k = none ∧
        ¬a.Asks t ([] ++ [part.index]) (0 + part.fieldId) k ground := fun ground => h.atNode_none ha
    simp only [Nat.zero_add, List.nil_append] at hnone
    exact ⟨_, onPart_root_none ha h.le part, (hnone false).1.symm, fun ground => ⟨nofun, fun h' => absurd h' (hnone ground).2⟩⟩
  | some a' =>
    have hsome := h.onPart_atNode hm ha
    rw [Nat.zero_add, List.nil_append] at hsome
    have hroot := Annotation.onPart_root hm.driver ha part (part.fieldId + k)
    rwa [hroot]

end Annotation

/-! ## Lists of annotations -/

section Restrict

variable {A : List Annotation} {part : Part} {k : Nat} {shows : Annotation → Option Annotation} {asks : Annotation → Prop}

/-- Restricting a list restricts each annotation that is left in it. -/
theorem restrict_filterMap (hk : part.ty.lastId? = some k) (hlt : part.fieldId + k < UInt64.size)
    (left : Annotation → Option Annotation)
    (hsome : ∀ a ∈ A, ∀ a', left a = some a' → ∃ s, a'.onPart part (part.fieldId + k) = .ok s ∧
      s.carried? = shows a ∧ (s.needsSym part.ty.isGround ↔ asks a))
    (hnone : ∀ a ∈ A, left a = none → shows a = none ∧ ¬asks a) :
    ∃ r, restrict (A.filterMap left) part = .ok r ∧ r.annotations = A.filterMap shows ∧
      (r.needsSym ↔ ∃ a ∈ A, asks a) := by
  suffices hshares : ∃ shares, (A.filterMap left).mapM (·.onPart part (part.fieldId + k)) = .ok shares ∧
      shares.filterMap Share.carried? = A.filterMap shows ∧
      (shares.any (Share.needsSym part.ty.isGround) ↔ ∃ a ∈ A, asks a) by
    obtain ⟨shares, hmap, hshows, hasks⟩ := hshares
    refine ⟨⟨_, _⟩, ?_, hshows, hasks⟩
    unfold restrict
    rw [hk]
    simp only [orOverflow, word?_eq_some_iff.2 ⟨rfl, hlt⟩, hmap, bind, Except.bind]
    rfl
  induction A with
  | nil => exact ⟨[], rfl, rfl, by simp⟩
  | cons a A ih =>
    obtain ⟨shares, hmap, hshows, hasks⟩ := ih (fun a ha => hsome a (by simp [ha])) fun a ha => hnone a (by simp [ha])
    cases hl : left a with
    | none =>
      obtain ⟨hs, ha⟩ := hnone a (by simp) hl
      refine ⟨shares, by rwa [List.filterMap_cons_none hl], by rwa [List.filterMap_cons_none hs], ?_⟩
      simp [hasks, ha]
    | some a' =>
      obtain ⟨s, hpart, hs, ha⟩ := hsome a (by simp) a' hl
      refine ⟨s :: shares, ?_, ?_, ?_⟩
      · rw [List.filterMap_cons_some hl, List.mapM_cons, hpart, hmap]
        rfl
      · rw [List.filterMap_cons, List.filterMap_cons, hs, hshows]
      · simp [ha, hasks]

/-- What a node has of the annotations of the whole. The root has them as they are. -/
def heldAt (A : List Annotation) (t : Ty) (path : List Nat) (f m : Nat) : List Annotation :=
  if path = [] then A else A.filterMap (·.atNode t path f m)

/-- One layer: what a part of a node has, and whether it is made to carry a symbol. -/
theorem Annotation.Steps.restrict_heldAt (h : Annotation.Steps t path f m part k) (hA : ∀ a ∈ A, a.Movable t) :
    ∃ r, restrict (heldAt A t path f m) part = .ok r ∧
      r.annotations = heldAt A t (path ++ [part.index]) (f + part.fieldId) k ∧
      (r.needsSym ↔ ∃ a ∈ A, a.Asks t (path ++ [part.index]) (f + part.fieldId) k part.ty.isGround) := by
  have hlt : part.fieldId + k < UInt64.size := by
    have := h.node.lt
    omega
  have hchild : heldAt A t (path ++ [part.index]) (f + part.fieldId) k =
      A.filterMap (·.atNode t (path ++ [part.index]) (f + part.fieldId) k) := if_neg (by simp)
  rw [hchild]
  by_cases hp : path = []
  · subst hp
    obtain rfl := h.root rfl
    have hall : heldAt A t [] 0 m = A.filterMap some := (if_pos rfl).trans (List.filterMap_some ..).symm
    rw [hall, Nat.zero_add, List.nil_append]
    refine restrict_filterMap h.node.last hlt _ (fun a ha a' he => ?_) (by simp)
    obtain rfl := Option.some.inj he
    obtain ⟨s, hs, hc, hsym⟩ := h.onPart_root (hA a ha)
    exact ⟨s, hs, hc, hsym _⟩
  · rw [show heldAt A t path f m = A.filterMap (·.atNode t path f m) from if_neg hp]
    refine restrict_filterMap h.node.last hlt _ (fun a ha a' he => ?_) fun a _ he => h.atNode_none he
    obtain ⟨s, hs, hc, hsym⟩ := h.onPart_atNode (hA a ha) he
    exact ⟨s, hs, hc, hsym _⟩

end Restrict

/-! ## What a node carries -/

/-- The annotations and the symbol of a node, where the whole has the annotations `A`, and a symbol of its own if `S`
holds. -/
structure Carried (A : List Annotation) (S : Prop) (t : Ty) (path : List Nat) (c : Ty) (f m : Nat)
    (annotations : List Annotation) (sym : Option String) : Prop where
  annotations : annotations = heldAt A t path f m
  sym : sym.isSome ↔ S ∨ ∃ a ∈ A, a.Marks t path f m c.isGround

/-- What the leaf at the end of a path carries: the annotations that are meant for it, and a symbol if the whole had
one, if a do-not-touch annotation of the leaf or of what encloses it below the root asks for one, or if one of its
annotations is scoped to a path. -/
def CarriedByLeaf (A : List Annotation) (S : Prop) (t : Ty) (path : List Nat) (annotations : List Annotation)
    (sym : Option String) : Prop :=
  ∃ f, t.pathId? path = some f ∧ annotations = A.filterMap (·.onLeaf t path f) ∧
    (sym.isSome ↔ S ∨ (∃ a ∈ A, a.Pins t path) ∨ ∃ a ∈ annotations, a.path.isSome)

namespace Carried

variable {A as : List Annotation} {S : Prop} {sym : Option String} {part : Part} {k : Nat}

/-- The whole carries what it is said to carry. -/
theorem root (hg : t.isGround = false) (h : S ↔ sym.isSome) : Carried A S t [] t 0 m A sym where
  annotations := (if_pos rfl).symm
  sym := by
    rw [h, hg]
    refine (or_iff_left ?_).symm
    rintro ⟨a, -, ⟨-, id, hne, -, haddr⟩ | ⟨h', -⟩⟩
    · obtain ⟨q, hq, hid⟩ := Ty.addresses_iff.1 haddr
      rw [List.prefix_nil.1 hq] at hid
      exact hne (Option.some.inj hid).symm
    · cases h'

/-- A part of a node carries what restricting leaves it, and a symbol if the node has one or if it needs one. -/
theorem restrict (h : Carried A S t path c f m as sym) (hg : c.isGround = false)
    (hs : Annotation.Steps t path f m part k) (hA : ∀ a ∈ A, a.Movable t) :
    ∃ r, Scalarize.restrict as part = .ok r ∧ ∀ {sym' : Option String}, (sym'.isSome ↔ sym.isSome ∨ r.needsSym) →
      Carried A S t (path ++ [part.index]) part.ty (f + part.fieldId) k r.annotations sym' := by
  obtain ⟨r, hr, has, hneeds⟩ := hs.restrict_heldAt hA
  refine ⟨r, h.annotations ▸ hr, fun {sym'} hsym => ⟨has, ?_⟩⟩
  have hmarks : ∀ a : Annotation, a.Marks t path f m false ↔ a.Pins t path := fun a => by
    unfold Annotation.Marks
    simp
  rw [hsym, h.sym, hneeds, hg, or_assoc, ← exists_or]
  have hconcat : ∀ a : Annotation, a.Marks t (path ++ [part.index]) (f + part.fieldId) k part.ty.isGround ↔
      a.Pins t path ∨ a.Asks t (path ++ [part.index]) (f + part.fieldId) k part.ty.isGround := fun a => Annotation.marks_concat
  simp only [hconcat, hmarks, ← and_or_left]

theorem leaf {g : Ground} (h : Carried A S t path (.ground g) f 0 as sym) (hp : path ≠ []) (hf : t.pathId? path = some f) :
    CarriedByLeaf A S t path as sym := by
  have hcongr : heldAt A t path f 0 = A.filterMap (·.onLeaf t path f) := by
    rw [heldAt, if_neg hp]
    exact congrArg (A.filterMap ·) (funext fun a => a.atNode_leaf t path f)
  have has := h.annotations.trans hcongr
  refine ⟨f, hf, has, ?_⟩
  rw [h.sym, has]
  refine or_congr_right ⟨?_, ?_⟩
  · rintro ⟨a, ha, hpins | ⟨-, c, hc, hpath⟩⟩
    · exact .inl ⟨a, ha, hpins⟩
    · exact .inr ⟨c, List.mem_filterMap.2 ⟨a, ha, a.atNode_leaf t path f ▸ hc⟩, hpath⟩
  · rintro (⟨a, ha, hpins⟩ | ⟨c, hc, hpath⟩)
    · exact ⟨a, ha, .inl hpins⟩
    · obtain ⟨a, ha, hc⟩ := List.mem_filterMap.1 hc
      exact ⟨a, ha, .inr ⟨rfl, c, (a.atNode_leaf t path f).trans hc, hpath⟩⟩

end Carried

end Scalarize
