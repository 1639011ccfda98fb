import Scalarize.Proofs.InFront

/-!
# Operations for one part

* `Body.PartOf` : one value is read from another by a fixed accessor;
* `OpKind.takesPart`, `Body.Narrowed` : which operands of a producer are parts once it makes a part;
* `Allowed.part`, `Ready.narrowed`, `Allowed.narrowed` : accessors, and producers of parts, may be made;
* `Grows.connect_runs` : so may connections.
-/

namespace Scalarize

/-- A producer, which gives way to one operation of its kind for each part. -/
def OpKind.isProducer : OpKind → Bool
  | wire _ | reg _ | regReset _ | node _ | invalid | mux | multiMux | unrealizedCast => true
  | _ => false

/-- Operands of a producer of which only a part is read if it makes a part. -/
def OpKind.takesPart : OpKind → Nat → Bool
  | regReset _, j => j == 2
  | node _, _ | unrealizedCast, _ => true
  | mux, j | multiMux, j => j != 0
  | _, _ => false

theorem OpKind.isAccessor_of_isProducer {kind : OpKind} (h : kind.isProducer = true) :
    kind.isAccessor = false := by
  cases kind <;> first | rfl | cases h

theorem OpKind.blocks_of_isProducer {kind : OpKind} (h : kind.isProducer = true) :
    kind.blocks = [] := by
  cases kind <;> first | rfl | cases h

theorem OpKind.bare_ne_subaccess {kind : OpKind} (h : kind.isProducer = true) :
    kind.bare ≠ subaccess := by
  rintro hk
  rw [show kind = subaccess from (OpKind.eq_of_bare_eq (k := subaccess) hk.symm rfl).symm] at h
  cases h

namespace Body

variable {q : Setting} {b b' : Body} {v w : ValueId} {i : Nat}

/-- `w` is read from `v` by an accessor of part `i`. -/
structure PartOf (b : Body) (v : ValueId) (i : Nat) (w : ValueId) : Prop where
  made : ∃ o kind, kind.fixedIndex? = some i ∧ b.Makes o kind [v] [w]
  types : ∃ t c, b.ty? v = some t ∧ t.child? i = some c ∧ b.ty? w = some c

namespace PartOf

theorem mono (h : b.PartOf v i w) (hb : Extends b b') : b'.PartOf v i w := by
  obtain ⟨⟨o, kind, hfix, hmk⟩, t, c, ht, hc, hw⟩ := h
  exact ⟨⟨o, kind, hfix, hmk.mono hb⟩, t, c, hb.ty?_some ht, hc, hb.ty?_some hw⟩

theorem ty? (h : b.PartOf v i w) {t c : Ty} (ht : b.ty? v = some t) (hc : t.child? i = some c) :
    b.ty? w = some c := by
  obtain ⟨-, t', c', ht', hc', hw⟩ := h
  rw [ht] at ht'
  obtain rfl := Option.some.inj ht'
  rw [hc] at hc'
  rw [hw, hc']

theorem accesses (h : b.PartOf v i w) (hb : b.Coherent) {n : Nat} (hv : b.Accesses v n) :
    b.Accesses w n := by
  obtain ⟨⟨o, kind, hfix, hmk⟩, -⟩ := h
  have horigin := hmk.origin? hb (i := 0) rfl
  obtain ⟨op, hop, hbare, hops, -⟩ := hmk
  exact .fixed horigin hop (by rw [OpKind.fixedIndex?_eq_of_bare_eq hbare, hfix]) hops hv

end PartOf

/-- The operations are fixed accessors. -/
def Accessors (b : Body) (xs : List OpId) : Prop :=
  ∀ x ∈ xs, ∃ kind i v w, kind.fixedIndex? = some i ∧ b.Makes x kind [v] [w]

theorem Accessors.nil (b : Body) : b.Accessors [] := fun _ hx => absurd hx List.not_mem_nil

theorem Accessors.mono {xs : List OpId} (h : b.Accessors xs) (hb : Extends b b') : b'.Accessors xs := fun x hx => by
  obtain ⟨kind, i, v, w, hfix, hmk⟩ := h x hx
  exact ⟨kind, i, v, w, hfix, hmk.mono hb⟩

theorem Accessors.append {xs ys : List OpId} (h : b.Accessors xs) (h' : b.Accessors ys) : b.Accessors (xs ++ ys) :=
  fun x hx => (List.mem_append.1 hx).elim (h x) (h' x)

/-- The operands with which an operation of the kind makes part `i`, given those of the whole. -/
def Narrowed (b : Body) (kind : OpKind) (i : Nat) (vs ws : List ValueId) : Prop :=
  List.Forall₂ (fun (x : ValueId × Nat) w => if kind.takesPart x.2 then b.PartOf x.1 i w else w = x.1)
    vs.zipIdx ws

theorem Narrowed.mono {kind : OpKind} {vs ws : List ValueId} (h : b.Narrowed kind i vs ws)
    (hb : Extends b b') : b'.Narrowed kind i vs ws := by
  refine List.Forall₂.imp (fun x w hw => ?_) h
  split at hw
  next ht =>
    rw [if_pos ht]
    exact hw.mono hb
  next ht =>
    rw [if_neg ht]
    exact hw

end Body

open Body Grows

variable {q : Setting} {b b₀ : Body} {r i : Nat} {ty c : Ty} {kind : OpKind} {vs ws : List ValueId}

/-- A new accessor is ready, and nothing about it nests. -/
theorem Allowed.part (hs : q.must → ∀ {v t}, b.ty? v = some t → t.lastId?.isSome ∧ t.depth ≤ q.depth)
    (hr : q.must → 0 < r) (v : ValueId) (i : Nat) : MakesPart (Allowed q r) b v i := by
  intro t c kind ht hreach hmust
  obtain ⟨hid, hd⟩ := hs hmust ht
  have hfix := hreach.fixedIndex?
  have hchecked : kind.Checked q [t] [c] := by
    have hsh := hreach.shaped
    cases kind <;> first | exact hsh | cases hfix
  refine ⟨.of_checked (fun hk => ?_) (.cons ht .nil) hchecked fun u hu => ?_, 0, hr hmust, ?_⟩
  · rw [hk] at hfix
    cases hfix
  · rw [List.mem_singleton.1 hu]
    exact ⟨Ty.isSome_lastId?_child hid hreach.1,
      Nat.le_trans (Nat.le_of_lt (Ty.depth_lt_of_child? hreach.1)) hd⟩
  · cases kind <;> trivial

theorem Annotated.nil {t : Ty} (h : t.lastId?.isSome) : Annotated [] t := by
  obtain ⟨l, hl⟩ := Option.isSome_iff_exists.1 h
  exact ⟨l, hl, by simp⟩

/-- The operands of the whole operation and those with which it makes a part. -/
theorem Body.Narrowed.types (hn : b.Narrowed kind i vs ws) {ins : List Ty} (hins : b.Types vs ins)
    {outs : List Ty} (hout : List.Forall₂ (fun (x : Ty × Nat) u =>
      if kind.takesPart x.2 then x.1.child? i = some u else x.1 = u) ins.zipIdx outs) :
    b.Types ws outs := by
  unfold Narrowed at hn
  revert hn hout
  generalize 0 = j
  intro hn hout
  induction hins generalizing ws outs j with
  | nil =>
    cases hn
    cases hout
    exact .nil
  | cons hv _ ih =>
    rw [List.zipIdx_cons] at hn hout
    cases hn with
    | cons hw hn =>
      cases hout with
      | cons hu hout =>
        refine .cons ?_ (ih _ hn hout)
        dsimp only at hw hu
        split at hw
        next ht =>
          rw [if_pos ht] at hu
          exact hw.ty? hv hu
        next ht =>
          rw [if_neg ht] at hu
          rw [hw, hv, hu]

theorem inputs_narrowed (hc : ty.child? i = some c) {rest : List Ty} (hrest : ∀ u ∈ rest, u = ty)
    (j : Nat) : List.Forall₂ (fun (x : Ty × Nat) u =>
      if OpKind.multiMux.takesPart x.2 then x.1.child? i = some u else x.1 = u)
      (rest.zipIdx (j + 1)) (rest.map fun _ => c) := by
  induction rest generalizing j with
  | nil => exact .nil
  | cons u rest ih =>
    rw [List.zipIdx_cons, List.map_cons]
    refine .cons ?_ (ih (fun u hu => hrest u (List.mem_cons_of_mem _ hu)) (j + 1))
    rw [hrest u List.mem_cons_self]
    exact hc

/-- The operation that makes a part is ready if the whole operation was. -/
theorem Body.Ready.narrowed (h : b₀.Ready q kind vs [ty]) (hp : kind.isProducer = true)
    (hext : Extends b₀ b) (hc : ty.child? i = some c) (hn : b.Narrowed kind i vs ws) :
    b.Ready q kind.bare ws [c] where
  types := by
    obtain ⟨ins, hins, hck⟩ := h.types
    have hins' := hext.types hins
    have hid : c.lastId?.isSome := Ty.isSome_lastId?_child (h.sized ty (by simp)).1 hc
    suffices hout : ∃ outs, List.Forall₂ (fun (x : Ty × Nat) u =>
        if kind.takesPart x.2 then x.1.child? i = some u else x.1 = u) ins.zipIdx outs ∧
        kind.bare.Checked q outs [c] by
      obtain ⟨outs, hout, hck'⟩ := hout
      exact ⟨outs, hn.types hins' hout, hck'⟩
    cases kind with
    | wire d =>
      obtain ⟨rfl, t, ht, -⟩ := hck
      exact ⟨[], .nil, rfl, c, rfl, .nil hid⟩
    | reg d =>
      obtain ⟨clk, t, rfl, ht, hclk, -⟩ := hck
      exact ⟨[clk], .cons rfl .nil, clk, c, rfl, rfl, hclk, .nil hid⟩
    | regReset d =>
      obtain ⟨clk, rst, t, rfl, ht, hclk, hrst, -⟩ := hck
      obtain rfl : ty = t := by simpa using ht
      exact ⟨[clk, rst, c], .cons rfl (.cons rfl (.cons hc .nil)), clk, rst, c, rfl, rfl, hclk, hrst,
        .nil hid⟩
    | node d =>
      obtain ⟨t, rfl, ht, -⟩ := hck
      obtain rfl : ty = t := by simpa using ht
      exact ⟨[c], .cons hc .nil, c, rfl, rfl, .nil hid⟩
    | invalid =>
      obtain ⟨rfl, -⟩ := hck
      exact ⟨[], .nil, rfl, c, rfl⟩
    | mux =>
      obtain ⟨s, t, rfl, ht, hs⟩ := hck
      obtain rfl : ty = t := by simpa using ht
      exact ⟨[s, c, c], .cons rfl (.cons hc (.cons hc .nil)), s, c, rfl, rfl, hs⟩
    | multiMux =>
      obtain ⟨x, rest, t, rfl, ht, hx, hrest⟩ := hck
      obtain rfl : ty = t := by simpa using ht
      exact ⟨x :: c :: rest.map fun _ => c, .cons rfl (.cons hc (inputs_narrowed hc hrest 1)), x,
        rest.map fun _ => c, c, rfl, rfl, hx, by simp⟩
    | unrealizedCast =>
      obtain ⟨a, t, rfl, ht, halike⟩ := hck
      obtain rfl : ty = t := by simpa using ht
      obtain ⟨d, hd, halike'⟩ := halike.child hc
      exact ⟨[d], .cons hd .nil, d, c, rfl, rfl, halike'⟩
    | _ => cases hp
  sized t ht := by
    rw [List.mem_singleton.1 ht]
    obtain ⟨hid, hd⟩ := h.sized ty (by simp)
    exact ⟨Ty.isSome_lastId?_child hid hc, Nat.le_trans (Nat.le_of_lt (Ty.depth_lt_of_child? hc)) hd⟩
  literal hk := absurd hk (OpKind.bare_ne_subaccess hp)

theorem Body.suffices_iff_of_isProducer {outs : List Ty} (hp : kind.isProducer = true) :
    b.Suffices q kind vs outs r ↔ ∀ t ∈ outs, t.depth ≤ r := by
  cases kind <;> first | exact Iff.rfl | cases hp

/-- An operand of a producer that is ready is ground, or structured like what it makes. -/
theorem Body.Ready.operand (h : b.Ready q kind vs [ty]) (hp : kind.isProducer = true) {j : Nat}
    {v : ValueId} {t : Ty} (hv : vs[j]? = some v) (ht : b.ty? v = some t) :
    (kind.takesPart j = false ∧ t.isGround) ∨
      kind.takesPart j = true ∧ t.Alike ty := by
  obtain ⟨ins, hins, hck⟩ := h.types
  obtain ⟨t', ht', hty⟩ := hins.getElem? hv
  rw [ht] at hty
  obtain rfl := Option.some.inj hty
  cases kind with
  | wire d | invalid =>
    obtain ⟨rfl, -⟩ := hck
    simp at ht'
  | reg d =>
    obtain ⟨c, u, rfl, -, hc, -⟩ := hck
    match j with
    | 0 => exact .inl ⟨rfl, by simpa using Option.some.inj ht' ▸ hc⟩
    | j + 1 => simp at ht'
  | regReset d =>
    obtain ⟨c, r, u, rfl, hu, hc, hr, -⟩ := hck
    obtain rfl : ty = u := by simpa using hu
    match j with
    | 0 => exact .inl ⟨rfl, by simpa using Option.some.inj ht' ▸ hc⟩
    | 1 => exact .inl ⟨rfl, by simpa using Option.some.inj ht' ▸ hr⟩
    | 2 =>
      obtain rfl : ty = t := by simpa using ht'
      exact .inr ⟨rfl, .refl _⟩
    | j + 3 => simp at ht'
  | node d =>
    obtain ⟨u, rfl, hu, -⟩ := hck
    obtain rfl : ty = u := by simpa using hu
    match j with
    | 0 =>
      obtain rfl : ty = t := by simpa using ht'
      exact .inr ⟨rfl, .refl _⟩
    | j + 1 => simp at ht'
  | mux =>
    obtain ⟨s, u, rfl, hu, hs⟩ := hck
    obtain rfl : ty = u := by simpa using hu
    match j with
    | 0 => exact .inl ⟨rfl, by simpa using Option.some.inj ht' ▸ hs⟩
    | 1 | 2 =>
      obtain rfl : ty = t := by simpa using ht'
      exact .inr ⟨rfl, .refl _⟩
    | j + 3 => simp at ht'
  | multiMux =>
    obtain ⟨x, rest, u, rfl, hu, hx, hrest⟩ := hck
    obtain rfl : ty = u := by simpa using hu
    match j with
    | 0 => exact .inl ⟨rfl, by simpa using Option.some.inj ht' ▸ hx⟩
    | 1 =>
      obtain rfl : ty = t := by simpa using ht'
      exact .inr ⟨rfl, .refl _⟩
    | j + 2 =>
      have hmem : t ∈ rest := List.mem_of_getElem? (i := j) (by simpa using ht')
      rw [hrest t hmem]
      exact .inr ⟨rfl, .refl _⟩
  | unrealizedCast =>
    obtain ⟨a, u, rfl, hu, ha⟩ := hck
    obtain rfl : ty = u := by simpa using hu
    match j with
    | 0 =>
      obtain rfl : a = t := by simpa using ht'
      exact .inr ⟨rfl, ha⟩
    | j + 1 => simp at ht'
  | _ => cases hp

/-- The annotations of a producer fit its type. -/
theorem Body.Ready.annotated (h : b.Ready q kind vs [ty]) (hp : kind.isProducer = true) :
    Annotated (kind.decl?.getD {}).annotations ty := by
  obtain ⟨ins, -, hck⟩ := h.types
  have hid := (h.sized ty (List.mem_singleton_self _)).1
  cases kind with
  | wire d =>
    obtain ⟨-, t, ht, ha⟩ := hck
    obtain rfl : ty = t := by simpa using ht
    exact ha
  | reg d =>
    obtain ⟨c, t, -, ht, -, ha⟩ := hck
    obtain rfl : ty = t := by simpa using ht
    exact ha
  | regReset d =>
    obtain ⟨c, r, t, -, ht, -, -, ha⟩ := hck
    obtain rfl : ty = t := by simpa using ht
    exact ha
  | node d =>
    obtain ⟨t, -, ht, ha⟩ := hck
    obtain rfl : ty = t := by simpa using ht
    exact ha
  | invalid | mux | multiMux | unrealizedCast => exact .nil hid
  | _ => cases hp

/-- A producer of a ground value reads ground values. -/
theorem Body.Ready.isGround_operand (h : b.Ready q kind vs [ty]) (hp : kind.isProducer = true)
    (hg : ty.isGround) {v : ValueId} {t : Ty} (hv : v ∈ vs) (ht : b.ty? v = some t) : t.isGround := by
  obtain ⟨j, hj⟩ := List.mem_iff_getElem?.1 hv
  rcases h.operand hp hj ht with ⟨-, hg'⟩ | ⟨-, halike⟩
  · exact hg'
  · rw [halike.isGround_eq, hg]

theorem OpKind.isProducer_bare (kind : OpKind) : kind.bare.isProducer = kind.isProducer := by
  cases kind <;> rfl

/-- A new operation for a part nests less deep than the whole one. -/
theorem Allowed.narrowed (h : q.must → b₀.Ready q kind vs [ty] ∧ b₀.Suffices q kind vs [ty] r)
    (hp : kind.isProducer = true) (hext : Extends b₀ b) (hc : ty.child? i = some c)
    (hn : b.Narrowed kind i vs ws) : Allowed q r b kind.bare ws [c] := by
  intro hmust
  obtain ⟨hready, hsuf⟩ := h hmust
  refine ⟨hready.narrowed hp hext hc hn, c.depth, ?_, ?_⟩
  · have hle := (suffices_iff_of_isProducer hp).1 hsuf ty (by simp)
    exact Nat.lt_of_lt_of_le (Ty.depth_lt_of_child? hc) hle
  · refine (suffices_iff_of_isProducer (by rw [OpKind.isProducer_bare, hp])).2 fun t ht => ?_
    exact Nat.le_of_eq (congrArg Ty.depth (List.mem_singleton.1 ht))

/-- A connection of two values of one type, to which the way is known, is made. -/
theorem Grows.connect_runs {S : ValueId → Prop} {A : OpKind → List Ty → Prop}
    {I : List OpId → Builder → Prop} {N : List OpId} {s : Builder} {v w : ValueId} {t u : Ty}
    (hI : Grows S (Allowed q r) A I) (h : I N s) {strict : Bool} (hv : AtHand S N s.body v)
    (hw : AtHand S N s.body w) (ht : s.body.ty? v = some t) (hu : s.body.ty? w = some u)
    (hm : q.must → t = u ∧ ∃ n, s.body.Accesses v n ∧
      t.depth * (2 * q.depth + 2) + 2 * n + q.depth + 3 < r) :
    Runs q.must (Build.connect strict v w) s fun d s' => Grew I N s (N ++ [d]) s' := by
  have hins : s.body.Types [v, w] [t, u] := .cons ht (.cons hu .nil)
  have hs : (OpKind.connect strict).Shaped True [t, u] [] := ⟨t, u, rfl, rfl⟩
  refine (hI.create_runs h rfl (by simp [hv, hw]) hins hs fun hmust => ?_).mono fun d s' hq => hq.1
  obtain ⟨rfl, n, hn, hlt⟩ := hm hmust
  refine ⟨.of_checked (by simp) hins ⟨t, rfl, rfl⟩ (by simp), _, hlt, fun x tx hx htx => ?_⟩
  obtain rfl : v = x := by simpa using hx
  rw [ht] at htx
  obtain rfl := Option.some.inj htx
  exact ⟨n, hn, Nat.le_refl _⟩

end Scalarize
