import Scalarize.Proofs.Body.Rewiring
import Scalarize.Proofs.Ty

/-!
# Bits

What operations make of bit strings, the low bit first. An aggregate has the bits of its parts, the first part lowest.

* `cut` : some bits of a string;
* `Ty.bitsBefore` : where the bits of a part lie;
* `OpKind.onBits`, `Body.Evaluates` : the bits that a value holds, given those of some values;
* `Evaluates.carried` : this is kept when a body changes; `Evaluates.unique` : a value holds one string only;
* `Body.Derives` : a value holds what is made of the bits of another one.
-/

namespace Scalarize

/-! ## Strings -/

/-- The `n` bits of a string from position `low` on. -/
def cut (bits : List Bool) (low n : Nat) : List Bool := (bits.drop low).take n

section Cut

variable {l : List Bool} {a b n m : Nat}

theorem length_cut (h : a + n ≤ l.length) : (cut l a n).length = n := by
  simp only [cut, List.length_take, List.length_drop]
  omega

theorem cut_zero (l : List Bool) : cut l 0 l.length = l := by
  simp [cut]

theorem cut_append (l : List Bool) (a n m : Nat) : cut l a n ++ cut l (a + n) m = cut l a (n + m) := by
  rw [cut, cut, cut, List.take_add, List.drop_drop]

theorem cut_cut (h : b + m ≤ n) : cut (cut l a n) b m = cut l (a + b) m := by
  rw [cut, cut, cut, List.drop_take, List.take_take, List.drop_drop, Nat.min_eq_left (by omega)]

end Cut

/-! ## Where bits lie -/

namespace Ty

variable {t c : Ty} {i : Nat}

/-- Number of bits in front of the part at a position. -/
def bitsBefore (t : Ty) (i : Nat) : Nat := total ((t.children.take i).map fun c => c.width.getD 0)

theorem bitsBefore_add_le {u w : Nat} (hc : t.child? i = some c) (hu : c.width = some u) (hw : t.width = some w) :
    t.bitsBefore i + u ≤ w := by
  have hg : t.isGround = false := by
    cases t with
    | ground g => cases hc
    | _ => rfl
  obtain ⟨hsum, -⟩ := width_children hw hg
  obtain ⟨hi, hci⟩ := List.getElem?_eq_some_iff.1 ((getElem?_children t i).trans hc)
  have hsplit : t.children = t.children.take i ++ [c] ++ t.children.drop (i + 1) := by
    conv_lhs => rw [← List.take_append_drop i t.children, List.drop_eq_getElem_cons hi, hci]
    rw [List.append_assoc, List.singleton_append]
  rw [hsplit] at hsum
  simp only [List.map_append, total_append, List.map_cons, List.map_nil, total, hu, Option.getD_some] at hsum
  unfold bitsBefore
  omega

end Ty

/-! ## What operations make of bits -/

/-- What an operation makes of the bits of its one operand, which is of a type. -/
def OpKind.onBits (t : Ty) : OpKind → Option (List Bool → List Bool)
  | subfield i | subindex i => (t.child? i).map fun c bits => cut bits (t.bitsBefore i) (c.width.getD 0)
  | prim (.bits hi lo) => some fun bits => cut bits lo (hi + 1 - lo)
  | prim .asUInt | prim .asSInt | bitcast => some id
  | _ => none

theorem OpKind.onBits_of_fixedIndex? {kind : OpKind} {i : Nat} (h : kind.fixedIndex? = some i) (t : Ty) :
    kind.onBits t = (t.child? i).map fun c bits => cut bits (t.bitsBefore i) (c.width.getD 0) := by
  cases kind with
  | subfield j | subindex j =>
    obtain rfl := Option.some.inj h
    rfl
  | _ => cases h

/-- A value holds bits, if some hold what is given and operations that are in `Z` compute. -/
inductive Body.Evaluates (given : ValueId → List Bool → Prop) (Z : OpId → Prop) (b : Body) : ValueId → List Bool → Prop
  | given {v : ValueId} {bits : List Bool} (h : given v bits) : Evaluates given Z b v bits
  | constant {o : OpId} {w : ValueId} {value n : Nat} (ho : Z o) (hw : b.Makes o (.constant value) [] [w])
      (ht : b.ty? w = some (.uint n)) : Evaluates given Z b w ((List.range n).map value.testBit)
  | unary {o : OpId} {kind : OpKind} {v w : ValueId} {t : Ty} {f : List Bool → List Bool} {bits : List Bool} (ho : Z o)
      (hw : b.Makes o kind [v] [w]) (ht : b.ty? v = some t) (hf : kind.onBits t = some f) (hl : t.width = some bits.length)
      (h : Evaluates given Z b v bits) : Evaluates given Z b w (f bits)
  | cat {o : OpId} {high low w : ValueId} {bits bits' : List Bool} (ho : Z o) (hw : b.Makes o (.prim .cat) [high, low] [w])
      (h : Evaluates given Z b high bits) (h' : Evaluates given Z b low bits') : Evaluates given Z b w (bits' ++ bits)

namespace Body

variable {given : ValueId → List Bool → Prop} {Z Z' : OpId → Prop} {N N' : List OpId} {b b' : Body} {o : OpId}
  {u v w : ValueId} {bits bits' : List Bool} {f g : List Bool → List Bool} {t : Ty} {kind : OpKind} {vs : List ValueId}

namespace Evaluates

/-- What values of a kind hold is held when a body changes, if operations of which these are made do the same, or are casts
that something else stands for. -/
theorem carried {f : ValueId → ValueId} {Q : ValueId → Prop} (hgiven : ∀ {v bits}, given v bits → f v = v)
    (hty : ∀ {v t}, b.ty? v = some t → b'.ty? (f v) = some t)
    (hop : ∀ {o kind vs w}, Z o → b.Makes o kind vs [w] → Q w → (∀ v ∈ vs, Q v) ∧
      (Z' o ∧ b'.Makes o kind (vs.map f) [f w] ∨ ∃ v, kind.bare = .bitcast ∧ vs = [v] ∧ ∀ {t bits}, b.ty? v = some t →
        t.width = some bits.length → b'.Evaluates given Z' (f v) bits → b'.Evaluates given Z' (f w) bits))
    (h : b.Evaluates given Z v bits) (hv : Q v) : b'.Evaluates given Z' (f v) bits := by
  induction h with
  | given h => exact .given (by rwa [hgiven h])
  | constant ho hw ht =>
    obtain ⟨-, ⟨ho', hw'⟩ | ⟨v, hk, -⟩⟩ := hop ho hw hv
    · exact .constant ho' hw' (hty ht)
    · cases hk
  | @unary o kind v w t g bits ho hw ht hg hl _ ih =>
    obtain ⟨hQ, hcases⟩ := hop ho hw hv
    have h := ih (hQ v (by simp))
    rcases hcases with ⟨ho', hw'⟩ | ⟨v', hk, hvs, hcast⟩
    · exact .unary ho' hw' (hty ht) hg hl h
    · obtain rfl : v = v' := by simpa using hvs
      obtain rfl : kind = .bitcast := by cases kind <;> first | rfl | cases hk
      obtain rfl : id = g := Option.some.inj hg
      exact hcast ht hl h
  | cat ho hw _ _ ih ih' =>
    obtain ⟨hQ, ⟨ho', hw'⟩ | ⟨v, hk, -⟩⟩ := hop ho hw hv
    · exact .cat ho' hw' (ih (hQ _ (by simp))) (ih' (hQ _ (by simp)))
    · cases hk

theorem mono (h : b.Evaluates given Z v bits) (hb : Extends b b') (hZ : ∀ o, Z o → Z' o) : b'.Evaluates given Z' v bits :=
  h.carried (f := id) (Q := fun _ => True) (fun _ => rfl) hb.ty?_some
    (fun ho hw _ => ⟨fun _ _ => trivial, .inl ⟨hZ _ ho, by simpa using hw.mono hb⟩⟩) trivial

/-- What a cast makes holds the bits of its operand. -/
theorem of_cast (h : b.Evaluates given Z w bits) (hb : b.Coherent) (ho : b.Makes o .bitcast [v] [w])
    (hw : ∀ bits, ¬given w bits) : ∃ t, b.ty? v = some t ∧ t.width = some bits.length ∧ b.Evaluates given Z v bits := by
  cases h with
  | given h => exact absurd h (hw _)
  | constant _ hmk => cases (hmk.unique ho hb).2.1
  | @unary _ kind v' _ t f _ _ hmk ht hf hl h =>
    obtain ⟨-, hk, hvs⟩ := hmk.unique ho hb
    obtain rfl : v' = v := by simpa using hvs
    obtain rfl : kind = .bitcast := by cases kind <;> first | rfl | cases hk
    obtain rfl : id = f := Option.some.inj hf
    exact ⟨t, ht, hl, h⟩
  | cat _ hmk => cases (hmk.unique ho hb).2.1

/-- A value holds one string only. -/
theorem unique (hb : b.Coherent) (hgiven : ∀ {v bits bits'}, given v bits → given v bits' → bits = bits')
    (hfree : ∀ {v bits o kind vs}, given v bits → Z o → ¬b.Makes o kind vs [v]) (h : b.Evaluates given Z v bits)
    (h' : b.Evaluates given Z v bits') : bits = bits' := by
  have hkind : ∀ {k k' : OpKind} {t g}, k.onBits t = some g → k.bare = k'.bare → k = k' := fun {k k' t g} hg hk =>
    OpKind.eq_of_bare_eq hk (by cases k <;> first | rfl | cases hg)
  induction h generalizing bits' with
  | given h =>
    cases h' with
    | given h' => exact hgiven h h'
    | constant ho hw | unary ho hw | cat ho hw => exact absurd hw (hfree h ho)
  | constant ho hw ht =>
    cases h' with
    | given h' => exact absurd hw (hfree h' ho)
    | constant _ hw' ht' =>
      obtain ⟨-, hk, -⟩ := hw.unique hw' hb
      cases hk
      cases ht.symm.trans ht'
      rfl
    | unary _ hw' => cases (hw.unique hw' hb).2.2
    | cat _ hw' => cases (hw.unique hw' hb).2.2
  | unary ho hw ht hf _ _ ih =>
    cases h' with
    | given h' => exact absurd hw (hfree h' ho)
    | constant _ hw' => cases (hw.unique hw' hb).2.2
    | unary _ hw' ht' hf' _ h' =>
      obtain ⟨-, hk, hvs⟩ := hw.unique hw' hb
      cases hvs
      obtain rfl := Option.some.inj (ht.symm.trans ht')
      obtain rfl := hkind hf hk
      obtain rfl := Option.some.inj (hf.symm.trans hf')
      rw [ih h']
    | cat _ hw' => cases (hw.unique hw' hb).2.2
  | cat ho hw _ _ ih ih' =>
    cases h' with
    | given h' => exact absurd hw (hfree h' ho)
    | constant _ hw' => cases (hw.unique hw' hb).2.2
    | unary _ hw' => cases (hw.unique hw' hb).2.2
    | cat _ hw' h₁ h₂ =>
      cases (hw.unique hw' hb).2.2
      rw [ih h₁, ih' h₂]

end Evaluates

/-! ## Values made of others -/

/-- One value is given. -/
def Holding (v : ValueId) (bits : List Bool) (w : ValueId) (bits' : List Bool) : Prop := w = v ∧ bits' = bits

/-- If `v` holds bits, then `w` holds what `f` makes of them, by operations among `N`. -/
structure Derives (N : List OpId) (b : Body) (v w : ValueId) (f : List Bool → List Bool) : Prop where
  typed : (b.ty? v).isSome
  evaluates : ∀ {t bits}, b.ty? v = some t → t.width = some bits.length → b.Evaluates (Holding v bits) (· ∈ N) w (f bits)

/-- What is given may be computed instead. -/
theorem Evaluates.computed {given' : ValueId → List Bool → Prop} (h : b.Evaluates given Z w bits) (hZ : ∀ o, Z o → Z' o)
    (hgiven : ∀ {v bits}, given v bits → b.Evaluates given' Z' v bits) : b.Evaluates given' Z' w bits := by
  induction h with
  | given h => exact hgiven h
  | constant ho hw ht => exact .constant (hZ _ ho) hw ht
  | unary ho hw ht hf hl _ ih => exact .unary (hZ _ ho) hw ht hf hl ih
  | cat ho hw _ _ ih ih' => exact .cat (hZ _ ho) hw ih ih'

namespace Derives

theorem refl (N : List OpId) (hv : b.ty? v = some t) : Derives N b v v id := ⟨by simp [hv], fun _ _ => .given ⟨rfl, rfl⟩⟩

theorem mono (h : Derives N b v w f) (hb : Extends b b') (hN : ∀ o ∈ N, o ∈ N') : Derives N' b' v w f := by
  obtain ⟨t, ht⟩ := Option.isSome_iff_exists.1 h.typed
  refine ⟨by simp [hb.ty?_some ht], fun {t' bits} ht' hl => ?_⟩
  obtain rfl := Option.some.inj ((hb.ty?_some ht).symm.trans ht')
  exact (h.evaluates ht hl).mono hb hN

theorem apply (h : Derives N b v w f) (hv : b.ty? v = some t) (hl : t.width = some bits.length) (hN : ∀ o ∈ N, Z o)
    (h' : b.Evaluates given Z v bits) : b.Evaluates given Z w (f bits) :=
  (h.evaluates hv hl).computed hN fun hgiven => by
    obtain ⟨rfl, rfl⟩ := hgiven
    exact h'

theorem unary (ho : o ∈ N) (hw : b.Makes o kind [v] [w]) (hv : b.ty? v = some t) (hf : kind.onBits t = some f) :
    Derives N b v w f := by
  refine ⟨by simp [hv], fun {t' bits} ht' hl => ?_⟩
  obtain rfl := Option.some.inj (hv.symm.trans ht')
  exact .unary ho hw ht' hf hl (.given ⟨rfl, rfl⟩)

end Derives

end Body

end Scalarize
