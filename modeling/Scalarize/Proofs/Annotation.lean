import Scalarize.Annotation.Restrict
import Scalarize.Proofs.Ty

/-!
# Annotations of parts

* `Annotation.held`, `Annotation.Fits`, `Annotated` : the field IDs that annotations of a type need stay
  within 64 bits;
* `restrict_ends` : what a part takes over fits it again;
* `Memory.restrictPort_ends` : annotations of the ports of a memory whose data type is narrowed.
-/

namespace Scalarize

variable {must : Prop} {t : Ty} {part : Part}

namespace Annotation

/-- The field ID that a signal driver holds. -/
def held (a : Annotation) : Nat :=
  ((a.members.get? fieldIdMember).bind (·.word? UInt64.size)).getD 0

/-- A signal driver can be moved to every node of a type whose largest field ID is `last`. -/
def Fits (a : Annotation) (last : Nat) : Prop := a.className = signalDriver → a.held + last < UInt64.size

theorem Fits.mono {a : Annotation} {l m : Nat} (h : a.Fits l) (hle : m ≤ l) : a.Fits m := fun hc => by
  have := h hc
  omega

theorem held_put_int (a : Annotation) {n : Nat} (hn : n < UInt64.size) :
    held { a with members := a.members.put fieldIdMember (.int n) } = n := by
  have hw : Json.word? UInt64.size (.int n) = some n := by
    simp only [Json.word?]
    rw [if_pos ⟨Int.natCast_nonneg n, Int.ofNat_lt.2 hn⟩, Int.toNat_natCast]
  unfold held
  rw [Assoc.get?_put, if_pos rfl, Option.bind_some, hw, Option.getD_some]

theorem spread_ends {a : Annotation} {f l m : Nat} (hm : must → a.Fits l ∧ f + m ≤ l) :
    Ends must (a.spread f) fun a' => must → a'.Fits m := by
  unfold spread
  split
  next => exact .pure fun h => (hm h).1.mono (by have := (hm h).2; omega)
  next hc =>
    simp only [Bool.or_eq_true, decide_eq_true_eq, bne_iff_ne, ne_eq, not_or, not_not] at hc
    have hlt : must → a.held + f < UInt64.size := fun h => by
      have := (hm h).1 hc.2
      have := (hm h).2
      omega
    refine (Ends.orOverflow (Q := fun n => n = a.held + f ∧ a.held + f < UInt64.size)
      (fun n hn => word?_eq_some_iff.1 hn) fun h => ?_).bind ?_
    · rw [word?_eq_some_iff.2 ⟨rfl, hlt h⟩]
      rfl
    · rintro _ ⟨rfl, hlt'⟩
      refine .pure fun h _ => ?_
      rw [held_put_int a hlt']
      have := (hm h).1 hc.2
      have := (hm h).2
      omega

theorem onPart_ends {a : Annotation} {l m last : Nat} (hm : must → a.Fits l ∧ part.fieldId + m ≤ l) :
    Ends must (a.onPart part last) fun s => must → ∀ a', s.carried? = some a' → a'.Fits m := by
  have hfit : ∀ {a' : Annotation}, a'.className = a.className → a'.members = a.members → must →
      a'.Fits m := by
    intro a' hc hm' h hd
    have : a'.held = a.held := by
      unfold held
      rw [hm']
    rw [this]
    have := (hm h).1 (hc ▸ hd)
    have := (hm h).2
    omega
  unfold onPart
  split
  next =>
    refine .map ((spread_ends hm).mono fun a' ha' h a'' he => ?_)
    obtain rfl := Option.some.inj he
    exact ha' h
  next => exact .pure fun h a' he => by cases he; exact hfit rfl rfl h
  next =>
    split
    · exact .pure fun h a' he => by cases he
    split
    · exact .pure fun h a' he => by cases he; exact hfit rfl rfl h
    split
    · exact .pure fun h a' he => by cases he
    · exact .pure fun h a' he => by cases he; exact hfit rfl rfl h

end Annotation

/-- All field IDs that the annotations of a type need stay within 64 bits. -/
def Annotated (annotations : List Annotation) (t : Ty) : Prop :=
  ∃ l, t.lastId? = some l ∧ ∀ a ∈ annotations, a.Fits l

theorem Annotated.isSome {annotations : List Annotation} (h : Annotated annotations t) :
    t.lastId?.isSome := by
  obtain ⟨l, hl, -⟩ := h
  rw [hl]
  rfl

theorem restrict_ends {annotations : List Annotation} (hm : must → Annotated annotations t ∧
    t.child? part.index = some part.ty ∧ t.childId? part.index = some part.fieldId) :
    Ends must (restrict annotations part) fun r => must → Annotated r.annotations part.ty := by
  have hlast : must → ∃ l m, part.ty.lastId? = some m ∧ part.fieldId + m ≤ l ∧ l < UInt64.size ∧
      ∀ a ∈ annotations, a.Fits l := by
    intro h
    obtain ⟨⟨l, hl, hfit⟩, hc, hid⟩ := hm h
    obtain ⟨m, f, hm, hf, -, hle, hlt⟩ := Ty.lastId?_child hl hc
    rw [hid] at hf
    obtain rfl := Option.some.inj hf
    exact ⟨l, m, hm, hle, hlt, hfit⟩
  unfold restrict
  refine (Ends.orOverflow (fun _ h => h) fun h => ?_).bind fun m hm₁ => ?_
  · obtain ⟨l, m, hm, -⟩ := hlast h
    rw [hm]
    rfl
  refine (Ends.orOverflow (Q := fun _ => True) (fun _ _ => trivial) fun h => ?_).bind fun last _ => ?_
  · obtain ⟨l, m', hm', hle, hlt, -⟩ := hlast h
    rw [hm₁] at hm'
    obtain rfl := Option.some.inj hm'
    rw [word?_eq_some_iff.2 ⟨rfl, Nat.lt_of_le_of_lt hle hlt⟩]
    rfl
  refine (Ends.mapM (fun a s => must → ∀ a', s.carried? = some a' → a'.Fits m) annotations
    fun a ha => ?_).bind fun shares hs => .pure fun h => ⟨m, hm₁, fun a ha => ?_⟩
  · by_cases h : must
    · obtain ⟨l, m', hm', hle, -, hfit⟩ := hlast h
      rw [hm₁] at hm'
      obtain rfl := Option.some.inj hm'
      exact Annotation.onPart_ends fun _ => ⟨hfit a ha, hle⟩
    · exact Annotation.onPart_ends (l := 0) fun h' => absurd h' h
  · obtain ⟨s, hs', he⟩ := List.mem_filterMap.1 ha
    obtain ⟨i, hi, rfl⟩ := List.mem_iff_getElem.1 hs'
    have := hs.get (i := i) (by rw [hs.length_eq]; exact hi) hi
    exact this h a he

/-! ## Memory ports -/

namespace Ty

theorem fieldOf?_lt {fs : List Field} {id next i s : Nat} (h : spans? fs = some s)
    (hlt : next + s < UInt64.size) (hi : 0 < i + fs.length) :
    ∃ j, fieldOf? id fs next i = some j ∧ j < i + fs.length := by
  induction fs generalizing next i s with
  | nil => exact ⟨i - 1, rfl, by simp at hi ⊢; omega⟩
  | cons f fs ih =>
    rw [spans?_cons, Option.bind_eq_some_iff] at h
    obtain ⟨a, ha, h⟩ := h
    obtain ⟨r, hr, h⟩ := Option.bind_eq_some_iff.1 h
    obtain ⟨rfl, -⟩ := word?_eq_some_iff.1 h
    rw [fieldOf?, ha, Option.bind_some, word?_eq_some_iff.2 ⟨rfl, by omega⟩, Option.bind_some]
    split
    · exact ⟨i, rfl, by simp⟩
    · obtain ⟨j, hj, hlt'⟩ := ih (i := i + 1) hr (by omega : next + a + r < UInt64.size) (by omega)
      refine ⟨j, hj, ?_⟩
      rw [List.length_cons]
      omega

/-- Field lists whose types take fewer field IDs take fewer together. -/
theorem spans?_le {fs gs : List Field} (h : List.Forall₂ (fun f g : Field =>
    ∀ l, f.ty.lastId? = some l → ∃ m, g.ty.lastId? = some m ∧ m ≤ l) fs gs) {s : Nat}
    (hs : spans? fs = some s) : ∃ r, spans? gs = some r ∧ r ≤ s := by
  induction h generalizing s with
  | nil => exact ⟨s, hs, Nat.le_refl _⟩
  | @cons f g _ _ hfg _ ih =>
    rw [spans?_cons, Option.bind_eq_some_iff] at hs
    obtain ⟨a, ha, hs⟩ := hs
    obtain ⟨r, hr, hs⟩ := Option.bind_eq_some_iff.1 hs
    obtain ⟨rfl, hlt⟩ := word?_eq_some_iff.1 hs
    obtain ⟨l, hl, ha⟩ := Option.bind_eq_some_iff.1 ha
    obtain ⟨rfl, hlt'⟩ := word?_eq_some_iff.1 ha
    obtain ⟨m, hm, hle⟩ := hfg l hl
    obtain ⟨r', hr', hle'⟩ := ih hr
    refine ⟨m + 1 + r', ?_, by omega⟩
    have hspan : g.ty.span? = some (m + 1) := by
      rw [span?, hm]
      exact word?_eq_some_iff.2 ⟨rfl, by omega⟩
    rw [spans?_cons, hspan, hr']
    exact word?_eq_some_iff.2 ⟨rfl, by omega⟩

end Ty

namespace Memory

variable {depth : Nat} {data c : Ty} {kind : PortKind} {i : Nat}

/-- A part of the data type takes fewer field IDs in a port. -/
theorem portFields_forall₂ (hc : data.child? i = some c) :
    List.Forall₂ (fun f g : Field => ∀ l, f.ty.lastId? = some l → ∃ m, g.ty.lastId? = some m ∧ m ≤ l)
      (portFields depth data kind) (portFields depth c kind) := by
  have hsame : ∀ {t : Ty} l, t.lastId? = some l → ∃ m, t.lastId? = some m ∧ m ≤ l :=
    fun l hl => ⟨l, hl, Nat.le_refl _⟩
  have hdata : ∀ l, data.lastId? = some l → ∃ m, c.lastId? = some m ∧ m ≤ l := fun l hl => by
    obtain ⟨m, f, hm, -, -, hle, -⟩ := Ty.lastId?_child hl hc
    exact ⟨m, hm, by omega⟩
  have hmask : ∀ l, data.mask.lastId? = some l → ∃ m, c.mask.lastId? = some m ∧ m ≤ l := by
    simpa using hdata
  cases kind with
  | read => exact .cons hsame (.cons hsame (.cons hsame (.cons hdata .nil)))
  | write => exact .cons hsame (.cons hsame (.cons hsame (.cons hdata (.cons hmask .nil))))
  | readWrite =>
    exact .cons hsame (.cons hsame (.cons hsame (.cons hdata (.cons hsame (.cons hdata
      (.cons hmask .nil))))))

theorem span?_portType_child (h : (portType depth data kind).span?.isSome)
    (hc : data.child? i = some c) : (portType depth c kind).span?.isSome := by
  obtain ⟨s, hs⟩ := Option.isSome_iff_exists.1 h
  obtain ⟨l, hl, hs⟩ := Option.bind_eq_some_iff.1 hs
  obtain ⟨-, hlt⟩ := word?_eq_some_iff.1 hs
  obtain ⟨r, hr, hle⟩ := Ty.spans?_le (portFields_forall₂ hc) hl
  have : (portType depth c kind).lastId? = some r := hr
  rw [Ty.span?, this, Option.bind_some, word?_eq_some_iff.2 ⟨rfl, by omega⟩]
  rfl

/-- The aggregate fields of a port are structured like the data type. -/
theorem portType_child? {j : Nat} {t : Ty} (h : (portType depth data kind).child? j = some t) :
    ∃ u, (portType depth c kind).child? j = some u ∧
      (t.isAggregate → t.lastId? = data.lastId? ∧ u.lastId? = c.lastId?) := by
  have fixed : ∀ {t : Ty}, t.isGround → t.isAggregate →
      t.lastId? = data.lastId? ∧ t.lastId? = c.lastId? := fun hg ha => by simp [Ty.isAggregate, hg] at ha
  cases kind with
  | read =>
    obtain _ | _ | _ | _ | j := j
    iterate 3 cases h; exact ⟨_, rfl, fixed rfl⟩
    · cases h; exact ⟨_, rfl, fun _ => ⟨rfl, rfl⟩⟩
    · simp [portType, portFields, Ty.child?] at h
  | write =>
    obtain _ | _ | _ | _ | _ | j := j
    iterate 3 cases h; exact ⟨_, rfl, fixed rfl⟩
    · cases h; exact ⟨_, rfl, fun _ => ⟨rfl, rfl⟩⟩
    · cases h; exact ⟨_, rfl, fun _ => ⟨Ty.lastId?_mask _, Ty.lastId?_mask _⟩⟩
    · simp [portType, portFields, Ty.child?] at h
  | readWrite =>
    obtain _ | _ | _ | _ | _ | _ | _ | j := j
    iterate 3 cases h; exact ⟨_, rfl, fixed rfl⟩
    · cases h; exact ⟨_, rfl, fun _ => ⟨rfl, rfl⟩⟩
    · cases h; exact ⟨_, rfl, fixed rfl⟩
    · cases h; exact ⟨_, rfl, fun _ => ⟨rfl, rfl⟩⟩
    · cases h; exact ⟨_, rfl, fun _ => ⟨Ty.lastId?_mask _, Ty.lastId?_mask _⟩⟩
    · simp [portType, portFields, Ty.child?] at h

theorem onPort_ends {a : Annotation} (hm : must → (portType depth data kind).span?.isSome ∧
    data.child? part.index = some part.ty ∧ data.childId? part.index = some part.fieldId) :
    Ends must (a.onPort (portType depth data kind) (portType depth part.ty kind) part)
      fun _ => True := by
  unfold Annotation.onPort
  split
  · exact .pure trivial
  · exact .pure trivial
  next id _ _ =>
    by_cases h : must
    swap
    · exact Ends.intro (fun _ _ => trivial) fun h' => absurd h' h
    obtain ⟨hspan, hc, hid⟩ := hm h
    have hspan' := span?_portType_child hspan hc
    obtain ⟨s, hs⟩ := Option.isSome_iff_exists.1 hspan
    obtain ⟨L, hL, hs⟩ := Option.bind_eq_some_iff.1 hs
    obtain ⟨-, hlt⟩ := word?_eq_some_iff.1 hs
    obtain ⟨s', hs'⟩ := Option.isSome_iff_exists.1 hspan'
    obtain ⟨L', hL', hs'⟩ := Option.bind_eq_some_iff.1 hs'
    have hpos : 0 < 0 + (portFields depth data kind).length := by simp [portFields]
    obtain ⟨j, hj, hjlt⟩ := Ty.fieldOf?_lt hL (by omega : 1 + L < UInt64.size) hpos
    obtain ⟨t, ht⟩ : ∃ t, (portType depth data kind).child? j = some t := by
      rw [Nat.zero_add] at hjlt
      exact ⟨(portFields depth data kind)[j].ty, by
        rw [portType, Ty.child?, List.getElem?_eq_getElem hjlt]
        rfl⟩
    obtain ⟨l, base, hl, hbase, -, hle, -⟩ := Ty.lastId?_child hL ht
    obtain ⟨u, hu, hagg⟩ := portType_child? (c := part.ty) ht
    obtain ⟨l', newBase, hl', hnewBase, -, hle', hlt'⟩ := Ty.lastId?_child hL' hu
    have hchildOf : (portType depth data kind).childOf? id = some j := hj
    refine Ends.bind_some hchildOf (Ends.bind_some hbase (Ends.bind_some hnewBase ?_))
    split
    · exact .pure trivial
    rw [ht, Option.any_some]
    split
    · exact .pure trivial
    next hg =>
      obtain ⟨hdl, hul⟩ := hagg (by simpa using hg)
      rw [hl] at hdl
      rw [hl'] at hul
      obtain ⟨m, f, hm', hf, -, hfm, -⟩ := Ty.lastId?_child hdl.symm hc
      rw [hid] at hf
      obtain rfl := Option.some.inj hf
      rw [hm'] at hul
      obtain rfl := Option.some.inj hul
      refine Ends.bind_some (word?_eq_some_iff.2 ⟨rfl, by omega⟩) ?_
      split
      · exact .pure trivial
      refine Ends.bind_some hm' (Ends.bind_some (word?_eq_some_iff.2 ⟨rfl, by omega⟩) ?_)
      split
      · exact .pure trivial
      refine Ends.bind_some (word?_eq_some_iff.2 ⟨rfl, by omega⟩) ?_
      exact .pure trivial

theorem restrictPort_ends {annotations : List Annotation}
    (hm : must → (portType depth data kind).span?.isSome ∧ data.child? part.index = some part.ty ∧
      data.childId? part.index = some part.fieldId) :
    Ends must (restrictPort annotations (portType depth data kind) (portType depth part.ty kind) part)
      fun _ => True :=
  (Ends.mapM (fun _ _ => True) annotations fun _ _ => onPort_ends hm).bind fun _ _ => .pure trivial

end Memory

end Scalarize
