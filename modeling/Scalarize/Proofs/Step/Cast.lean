import Scalarize.Lower.Cast
import Scalarize.Proofs.Bits
import Scalarize.Proofs.Step.Access

/-!
# Bit casts

* `Ty.castWidth_ends`, `Ty.PartsOf.sum_width` : widths in a cast;
* `Body.Strung` : some parts of an aggregate as one unsigned value;
* `Grows.flatten_runs`, `Grows.slice_runs` : an aggregate as one unsigned value, and a part of such a value, with the
  bits that they hold;
* `Start.bitcast_runs` : the cast gives way, or stays.
-/

namespace Scalarize

open Body Lower

/-! ## Widths -/

namespace Ty

variable {must : Prop} {t : Ty}

theorem castWidth_ends (hm : must → ∃ w, t.width = some w ∧ w < UInt32.size) :
    Ends must t.castWidth fun w => t.width = some w ∧ w < UInt32.size := by
  unfold castWidth
  split
  next hw =>
    refine .throw fun hmust => ?_
    obtain ⟨w, hw', -⟩ := hm hmust
    rw [hw] at hw'
    cases hw'
  next w hw =>
    split
    next hlt => exact .pure ⟨hw, hlt⟩
    next hge =>
      refine .throw fun hmust => ?_
      obtain ⟨w', hw', hlt⟩ := hm hmust
      rw [hw] at hw'
      exact hge (Option.some.inj hw' ▸ hlt)

/-- Number of bits that a list of parts takes. -/
def bitsOf (ps : List Part) : Nat := total (ps.map fun p => p.ty.width.getD 0)

theorem bitsOf_append (ps ps' : List Part) : bitsOf (ps ++ ps') = bitsOf ps + bitsOf ps' := by
  simp [bitsOf]

theorem bitsOf_singleton {p : Part} {u : Nat} (hu : p.ty.width = some u) : bitsOf [p] = u := by
  simp [bitsOf, hu, total]

theorem PartsOf.sum_width {ps : List Part} {w : Nat} (h : PartsOf t ps) (hw : t.width = some w) :
    bitsOf ps = w ∧ ∀ p ∈ ps, ∃ u, p.ty.width = some u ∧ u ≤ w := by
  have hsum := (width_children hw h.aggregate).1
  rw [← h.map_ty, List.map_map] at hsum
  exact ⟨hsum, fun p hp => width_child hw (h.child_index hp)⟩

theorem PartsOf.bitOffset_eq {ps : List Part} (h : PartsOf t ps) (i : Nat) : bitOffset ps i = t.bitsBefore i := by
  rw [bitOffset, bitsBefore, ← h.map_ty, ← List.map_take, List.map_map]
  rfl

/-- The part at a position ends within the whole. -/
theorem PartsOf.offset_add_le {ps : List Part} {c : Ty} {i u w : Nat} (h : PartsOf t ps)
    (hc : t.child? i = some c) (hu : c.width = some u) (hw : t.width = some w) :
    bitOffset ps i + u ≤ w := by
  rw [h.bitOffset_eq]
  exact bitsBefore_add_le hc hu hw

theorem PartsOf.bitsBefore_index {done rest : List Part} {p : Part} (h : PartsOf t (done ++ p :: rest)) :
    t.bitsBefore p.index = bitsOf done := by
  have hi : p.index = done.length := h.index (by simp)
  rw [← h.bitOffset_eq, hi, bitOffset, List.take_left' rfl]
  rfl

end Ty

/-! ## What is made -/

/-- The last of the operations made the value. -/
def Body.MadeLast (N : List OpId) (b : Body) (v : ValueId) : Prop :=
  ∃ L o kind vs, N = L ++ [o] ∧ b.Makes o kind vs [v]

/-- The parts of `input` that are listed are strung together, the first one lowest: there is nothing if all are of width zero. -/
structure Body.Strung (N : List OpId) (b : Body) (input : ValueId) (done : List Part) (flat : Option ValueId) : Prop where
  width_of_none : flat = none → Ty.bitsOf done = 0
  made : ∀ {low}, flat = some low → MadeLast N b low
  ty? : ∀ {low}, flat = some low → b.ty? low = some (.uint (Ty.bitsOf done))
  lt : ∀ {low}, flat = some low → Ty.bitsOf done < UInt32.size
  derives : ∀ {low}, flat = some low → Derives N b input low fun bits => cut bits 0 (Ty.bitsOf done)

variable {b b' : Body} {input v w : ValueId} {ty : Ty} {N : List OpId}

theorem Body.Strung.nil : b.Strung N input [] none := ⟨fun _ => rfl, nofun, nofun, nofun, nofun⟩

theorem Body.MadeLast.madeIn (h : MadeLast N b v) : MadeIn N b v := by
  obtain ⟨L, o, kind, vs, rfl, hmk⟩ := h
  exact ⟨o, by simp, kind, vs, hmk⟩

theorem Body.MadeLast.mono (h : MadeLast N b v) (hb : Extends b b') : MadeLast N b' v := by
  obtain ⟨L, o, kind, vs, hN, hmk⟩ := h
  exact ⟨L, o, kind, vs, hN, hmk.mono hb⟩

namespace Grows

variable {must : Prop} {S : ValueId → Prop} {M : Body → OpKind → List ValueId → List Ty → Prop}
  {A : OpKind → List Ty → Prop} {I : List OpId → Builder → Prop} {s : Builder}

/-- A value that was made, as another type. -/
theorem castTo_runs (hI : Grows S M A I) (h : I N s) {t : Ty} (hv : MadeLast N s.body v)
    (ht : s.body.ty? v = some t) (hM : M s.body .bitcast [v] [ty]) :
    Runs must (castTo ty v) s fun w s' => ∃ N', Grew I N s N' s' ∧ MadeLast N' s'.body w ∧
      s'.body.ty? w = some ty ∧ Derives N' s'.body v w id := by
  unfold castTo
  refine bind_typeOf (fun _ => by rw [ht]; rfl) fun t' ht' => ?_
  split
  next he =>
    rw [he] at ht'
    exact .pure ⟨N, .refl h, hv, ht', .refl _ ht'⟩
  next =>
    refine (hI.cast_runs h (.inl rfl) (hv.madeIn.atHand (hI.coherent h)) (by rw [ht]; rfl) hM).mono ?_
    rintro w s' ⟨o, hg, hmk, hty, -⟩
    exact ⟨_, hg, ⟨N, o, _, _, rfl, hmk⟩, hty, .unary (by simp) hmk (hg.body.ty?_some ht) rfl⟩

/-- What is made to string the parts of a value together may be made. -/
structure Strings (M : Body → OpKind → List ValueId → List Ty → Prop) (ty : Ty) : Prop where
  prim : ∀ {b p vs ins t}, b.Types vs ins → (∀ u ∈ ins, u.isGround) → t.isGround → (∀ hi lo, p ≠ .bits hi lo) →
    M b (.prim p) vs [t]
  constant : ∀ {b w n}, M b (.constant n) [] [.uint w]
  cast : ∀ {b v c i w}, ty.child? i = some c → b.ty? v = some c → c.width = some w → w < UInt32.size →
    M b .bitcast [v] [.uint w]

/-- A part is put above those that are strung together so far. -/
theorem appendPart_runs (hI : Grows S M A I) (hM : Strings M ty) (h : I N s)
    (hv : AtHand S N s.body input) (hty : s.body.ty? input = some ty)
    (hpart : ∀ i, MakesPart M s.body input i) {ps done rest : List Part} {p : Part}
    (hps : ty.PartsOf ps) (hl : ps = done ++ p :: rest) {flat : Option ValueId}
    (hflat : s.body.Strung N input done flat)
    (hm : must → ∃ w, ty.width = some w ∧ w < UInt32.size) :
    Runs must (appendPart input flat p) s fun flat' s' => ∃ N', Grew I N s N' s' ∧
      s'.body.Strung N' input (done ++ [p]) flat' := by
  subst hl
  have hc := hps.child_index (p := p) (by simp)
  have hbefore := hps.bitsBefore_index
  unfold appendPart
  refine Runs.bind_exceptBuild (Ty.castWidth_ends fun hmust => ?_) fun u ⟨hu, hlt⟩ => ?_
  · obtain ⟨w, hw, hlt⟩ := hm hmust
    obtain ⟨u, hu, hle⟩ := Ty.width_child hw hc
    exact ⟨u, hu, Nat.lt_of_le_of_lt hle hlt⟩
  have hbits : Ty.bitsOf (done ++ [p]) = Ty.bitsOf done + u := by
    rw [Ty.bitsOf_append, Ty.bitsOf_singleton hu]
  split
  next hu0 =>
    rw [hu0, Nat.add_zero] at hbits
    obtain ⟨h₁, h₂, h₃, h₄, h₅⟩ := hflat
    exact .pure ⟨N, .refl h, by rwa [hbits], h₂, by rwa [hbits], by rwa [hbits], by rwa [hbits]⟩
  next hu0 =>
    refine (hI.part_runs h hv (hpart p.index) fun _ => ⟨ty, _, hty, hc⟩).bind ?_
    rintro part s₁ ⟨t, c, kind, ht, hreach, o, hg₁, hmk, hpty, -⟩
    obtain rfl := Option.some.inj (hty.symm.trans ht)
    obtain rfl := Option.some.inj (hc.symm.trans hreach.1)
    refine (hI.castTo_runs hg₁.holds ⟨N, o, _, _, rfl, hmk⟩ hpty (hM.cast hc hpty hu hlt)).bind ?_
    rintro leaf s₂ ⟨N₂, hg₂, hleaf, hlty, hre⟩
    have hg := hg₁.trans hg₂
    -- the bits of the part come next
    have hderives : Derives N₂ s₂.body input leaf fun bits => cut bits (Ty.bitsOf done) u := by
      refine ⟨by simp [hg.body.ty?_some hty], fun {t bits} ht hl => ?_⟩
      obtain rfl := Option.some.inj ((hg.body.ty?_some hty).symm.trans ht)
      have hle := Ty.bitsBefore_add_le hc hu hl
      rw [hbefore] at hle
      have hpart := (Derives.unary (N := N ++ [o]) (by simp) hmk (hg₁.body.ty?_some hty)
        ((OpKind.onBits_of_fixedIndex? hreach.fixedIndex? ty).trans (congrArg _ hc))).mono hg₂.body fun _ => hg₂.mem
      have hbits := hpart.evaluates ht hl
      simp only [hbefore, hu, Option.getD_some] at hbits
      have hlen : p.ty.width = some (cut bits (Ty.bitsOf done) u).length := by rw [hu, length_cut hle]
      have hleaf := hre.apply (hg₂.body.ty?_some hpty) hlen (fun _ => id) hbits
      exact hleaf
    split
    next =>
      have h0 := hflat.width_of_none rfl
      rw [h0, Nat.zero_add] at hbits
      rw [h0] at hderives
      refine .pure ⟨N₂, hg, nofun, ?_, ?_, ?_, ?_⟩ <;> rintro _ ⟨⟩
      · exact hleaf
      · rwa [hbits]
      · rwa [hbits]
      · rwa [hbits]
    next low =>
      have hlow := hg.madeIn (hflat.made rfl).madeIn
      have hlowty := hg.body.ty?_some (hflat.ty? rfl)
      refine Runs.bind (P := fun w s' => Ty.bitsOf done + u < UInt32.size ∧
        NewValue I N₂ s₂ (.prim .cat) [leaf, low] (.uint (Ty.bitsOf done + u)) w s') ?_ ?_
      · unfold Build.cat
        refine bind_knownWidth (fun _ => ⟨_, _, hlty, rfl, hlt⟩) fun t' w' ht' hw' _ => ?_
        rw [hlty] at ht'
        obtain rfl := Option.some.inj ht'
        obtain rfl : u = w' := Option.some.inj hw'
        refine bind_knownWidth (fun _ => ⟨_, _, hlowty, rfl, hflat.lt rfl⟩) fun t' w' ht' hw' _ => ?_
        rw [hlowty] at ht'
        obtain rfl := Option.some.inj ht'
        obtain rfl : Ty.bitsOf done = w' := Option.some.inj hw'
        dsimp only
        rw [Nat.add_comm u]
        split
        next hsum =>
          have hins : s₂.body.Types [leaf, low] [.uint u, .uint (Ty.bitsOf done)] := .cons hlty (.cons hlowty .nil)
          refine (hI.prim_runs hg₂.holds ?_ hins rfl (hM.prim hins (by simp [Ty.isGround]) rfl (by simp))).mono
            fun w s' hw => ⟨hsum, hw⟩
          have hb := hI.coherent hg₂.holds
          simpa using ⟨hleaf.madeIn.atHand hb, hlow.atHand hb⟩
        next hsum =>
          refine .throw fun hmust => hsum ?_
          obtain ⟨w, hw, hwlt⟩ := hm hmust
          have hle := Ty.bitsBefore_add_le hc hu hw
          omega
      · rintro w s₃ ⟨hsum, o', hg₃, hmk', hwty, -⟩
        refine .pure ⟨_, hg.trans hg₃, nofun, ?_, ?_, ?_, ?_⟩ <;> rintro _ ⟨⟩
        · exact ⟨_, _, _, _, rfl, hmk'⟩
        · rwa [hbits]
        · rwa [hbits]
        · have hty₃ := (hg.trans hg₃).body.ty?_some hty
          refine ⟨by simp [hty₃], fun {t bits} ht hl => ?_⟩
          rw [hbits, ← cut_append, Nat.zero_add]
          exact .cat (by simp) hmk' ((hderives.mono hg₃.body fun _ => hg₃.mem).evaluates ht hl)
            (((hflat.derives rfl).mono (hg.trans hg₃).body fun _ => (hg.trans hg₃).mem).evaluates ht hl)

/-- A value is made one unsigned value with the same bits; an aggregate is never this value itself. -/
theorem flatten_runs (hI : Grows S M A I) (hM : Strings M ty) (h : I N s)
    (hv : AtHand S N s.body input) (hty : s.body.ty? input = some ty)
    (hpart : ∀ {N' s'} i, Grew I N s N' s' → MakesPart M s'.body input i)
    (hm : must → ty.lastId?.isSome ∧ ∃ w, ty.width = some w ∧ w < UInt32.size) :
    Runs must (flatten input) s fun w s' => ∃ N' t, Grew I N s N' s' ∧ AtHand S N' s'.body w ∧
      s'.body.ty? w = some t ∧ t.isGround ∧
      (∀ n, ty.width = some n → t.width = some n ∧ Derives N' s'.body input w id) ∧
      (ty.isGround = false → MadeLast N' s'.body w ∧ ∃ n < UInt32.size, t = .uint n) ∧
      (ty.isGround → MadeLast N' s'.body w ∨ w = input ∧ N' = N) := by
  unfold flatten
  refine bind_typeOf (fun _ => by rw [hty]; rfl) fun t ht => ?_
  rw [hty] at ht
  obtain rfl := Option.some.inj ht
  refine Runs.bind_exceptBuild (Ty.peel_ends fun hmust => (hm hmust).1) fun r hr => ?_
  cases r with
  | some ps =>
    obtain ⟨hps, -⟩ := hr
    have hground : ty.isGround → False := fun hg => by
      rw [hps.aggregate] at hg
      cases hg
    refine (Runs.foldlM (fun done flat s' => ∃ N', Grew I N s N' s' ∧ s'.body.Strung N' input done flat) ps
      ⟨N, .refl h, .nil⟩ ?_).bind ?_
    · rintro done p rest flat s' hl ⟨N', hg, hflat⟩
      refine (hI.appendPart_runs hM hg.holds (hg.atHand hv) (hg.body.ty?_some hty)
        (fun i => hpart i hg) hps hl hflat fun hmust => (hm hmust).2).mono ?_
      rintro flat' s'' ⟨N'', hg', hflat'⟩
      exact ⟨N'', hg.trans hg', hflat'⟩
    · rintro flat s' ⟨N', hg, hflat⟩
      have ht' := hg.body.ty?_some hty
      split
      next w =>
        have hmade := hflat.made rfl
        refine .pure ⟨N', _, hg, hmade.madeIn.atHand (hI.coherent hg.holds), hflat.ty? rfl, rfl, fun n hn => ?_,
          fun _ => ⟨hmade, _, hflat.lt rfl, rfl⟩, fun hg => (hground hg).elim⟩
        have hsum := (hps.sum_width hn).1
        refine ⟨congrArg some hsum, by simp [ht'], fun {t bits} ht hl => ?_⟩
        obtain rfl := Option.some.inj (ht'.symm.trans ht)
        have hall := (hflat.derives rfl).evaluates ht hl
        obtain rfl := Option.some.inj (hn.symm.trans hl)
        rwa [hsum, cut_zero] at hall
      next =>
        refine (hI.constant_runs hg.holds rfl hM.constant).mono ?_
        rintro w s'' ⟨o, hg', hmk, hwty, -⟩
        have hmade : MadeLast (N' ++ [o]) s''.body w := ⟨_, _, _, _, rfl, hmk⟩
        refine ⟨_, _, hg.trans hg', hmade.madeIn.atHand (hI.coherent hg'.holds), hwty, rfl, fun n hn => ?_,
          fun _ => ⟨hmade, 0, by decide, rfl⟩, fun hg => (hground hg).elim⟩
        obtain rfl : 0 = n := (hflat.width_of_none rfl).symm.trans (hps.sum_width hn).1
        have ht'' := hg'.body.ty?_some ht'
        refine ⟨rfl, by simp [ht''], fun {t bits} ht hl => ?_⟩
        obtain rfl := Option.some.inj (ht''.symm.trans ht)
        obtain rfl : bits = [] := List.length_eq_zero_iff.1 (Option.some.inj (hl.symm.trans hn))
        exact .constant (by simp) hmk hwty
  | none =>
    have hg : ty.isGround := by simpa using hr
    dsimp only
    split
    next u =>
      exact .pure ⟨N, _, .refl h, hv, hty, rfl, fun n hn => ⟨hn, .refl _ hty⟩, by simp [Ty.isGround],
        fun _ => .inr ⟨rfl, rfl⟩⟩
    next =>
      unfold Build.asUInt
      refine bind_knownWidth (fun hmust => ?_) fun t' w ht' hw hlt => ?_
      · obtain ⟨-, w, hw, hlt⟩ := hm hmust
        exact ⟨ty, w, hty, hw, hlt⟩
      rw [hty] at ht'
      obtain rfl := Option.some.inj ht'
      have hins : s.body.Types [input] [ty] := .cons hty .nil
      refine (hI.prim_runs h (by simpa using hv) hins rfl (hM.prim hins (by simpa using hg) rfl (by simp))).mono ?_
      rintro w' s' ⟨o, hg', hmk, hwty, -⟩
      have hmade : MadeLast (N ++ [o]) s'.body w' := ⟨_, _, _, _, rfl, hmk⟩
      refine ⟨_, _, hg', hmade.madeIn.atHand (hI.coherent hg'.holds), hwty, rfl, fun n hn => ?_,
        fun hng => ?_, fun _ => .inl hmade⟩
      · obtain rfl := Option.some.inj (hw.symm.trans hn)
        exact ⟨rfl, .unary (by simp) hmk (hg'.body.ty?_some hty) rfl⟩
      · rw [hg] at hng
        cases hng

/-- A part is cut out of an unsigned value. -/
theorem slice_runs (hI : Grows S M A I) (h : I N s) {flat : ValueId} {t : Ty} {ps : List Part}
    {p : Part} (hv : AtHand S N s.body flat) (ht : s.body.ty? flat = some t) (hg : t.isGround) (hps : ty.PartsOf ps)
    (hc : ty.child? p.index = some p.ty) (hinv : p.ty.width = some 0 → M s.body .invalid [] [p.ty])
    (hbits : ∀ {hi lo w}, lo ≤ hi → (∀ n, ty.width = some n → hi < n) → M s.body (.prim (.bits hi lo)) [flat] [.uint w])
    (hcast : ∀ {b v w}, b.ty? v = some (.uint w) → w < UInt32.size → p.ty.width = some w →
      M b .bitcast [v] [p.ty])
    (hm : must → ∃ w, ty.width = some w ∧ w < UInt32.size) :
    Runs must (slice flat ps p) s fun w s' => ∃ L o kind vs, Grew I N s (L ++ [o]) s' ∧
      (∀ y ∈ L, y ∈ N ∨ ∃ p us u, s'.body.Makes y (.prim p) us [u]) ∧
      s'.body.Makes o kind vs [w] ∧ s'.body.ty? w = some p.ty ∧ kind.fixedIndex? = none ∧
      (∀ a ∈ vs, ∃ u, s'.body.ty? a = some u ∧ u.isGround) ∧
      ∀ n u, ty.width = some n → t.width = some n → p.ty.width = some u → u ≠ 0 →
        Derives (L ++ [o]) s'.body flat w fun bits => cut bits (ty.bitsBefore p.index) u := by
  unfold slice
  refine Runs.bind_exceptBuild (Ty.castWidth_ends fun hmust => ?_) fun u ⟨hu, hlt⟩ => ?_
  · obtain ⟨w, hw, hlt⟩ := hm hmust
    obtain ⟨u, hu, hle⟩ := Ty.width_child hw hc
    exact ⟨u, hu, Nat.lt_of_le_of_lt hle hlt⟩
  split
  next hu0 =>
    subst hu0
    refine (hI.invalid_runs h (hinv hu)).mono fun w s' ⟨o, hg, hmk, hty, _⟩ => ?_
    refine ⟨_, o, _, _, hg, fun _ => .inl, hmk, hty, rfl, by simp, fun n u _ _ hu' hne => ?_⟩
    rw [hu] at hu'
    exact absurd (Option.some.inj hu').symm hne
  next hu0 =>
    obtain ⟨u, rfl⟩ := Nat.exists_eq_succ_of_ne_zero hu0
    dsimp only
    have hhigh : bitOffset ps p.index + u.succ - 1 = bitOffset ps p.index + u := by omega
    rw [hhigh]
    split
    next hge =>
      refine .bind_throw fun hmust => ?_
      obtain ⟨w, hw, hlt⟩ := hm hmust
      have := hps.offset_add_le hc hu hw
      omega
    have hsmall : ¬(decide (bitOffset ps p.index + u < bitOffset ps p.index) ||
        decide (UInt32.size ≤ bitOffset ps p.index + u - bitOffset ps p.index + 1)) = true := by
      simp only [Bool.or_eq_true, decide_eq_true_eq, not_or]
      omega
    have hwidth : bitOffset ps p.index + u - bitOffset ps p.index + 1 = u + 1 := by omega
    unfold Build.bits
    rw [if_neg hsmall, hwidth]
    refine (hI.prim_runs h (by simpa using hv) (.cons ht .nil) rfl (hbits (by omega) fun n hn => ?_)).bind ?_
    · have := hps.offset_add_le hc hu hn
      omega
    rintro bits s₁ ⟨o, hg₁, hmk, hty, -⟩
    have ht₁ := hg₁.body.ty?_some ht
    have hcut : Derives (N ++ [o]) s₁.body flat bits fun bits => cut bits (ty.bitsBefore p.index) (u + 1) := by
      refine .unary (by simp) hmk ht₁ ?_
      rw [OpKind.onBits, hps.bitOffset_eq, Nat.add_assoc, Nat.add_sub_cancel_left]
    split
    next he =>
      refine .pure ⟨_, o, _, _, hg₁, fun _ => .inl, hmk, by rw [he]; exact hty, rfl, by simpa [ht₁] using hg,
        fun n u' hn hnt hu' _ => ?_⟩
      obtain rfl := Option.some.inj (hu.symm.trans hu')
      exact hcut
    next =>
      have hat := hI.atHand_of_makes hg₁.holds (by simp) hmk
      refine (hI.cast_runs hg₁.holds (.inl rfl) hat (by rw [hty]; rfl) (hcast hty hlt hu)).mono ?_
      rintro w s₂ ⟨o', hg₂, hmk', hty', -⟩
      refine ⟨_, o', _, _, hg₁.trans hg₂, fun y hy => ?_, hmk', hty', rfl, by simp [hg₂.body.ty?_some hty, Ty.isGround],
        fun n u' hn hnt hu' _ => ?_⟩
      · refine (List.mem_append.1 hy).imp_right fun hy => ?_
        exact ⟨_, _, _, List.mem_singleton.1 hy ▸ hmk.mono hg₂.body⟩
      obtain rfl := Option.some.inj (hu.symm.trans hu')
      have ht₂ := hg₂.body.ty?_some ht₁
      refine ⟨by simp [ht₂], fun {t' bits'} ht' hl => ?_⟩
      obtain rfl := Option.some.inj (ht₂.symm.trans ht')
      obtain rfl := Option.some.inj (hnt.symm.trans hl)
      have hle := Ty.bitsBefore_add_le hc hu hn
      have hbits' := (hcut.mono hg₂.body fun _ => hg₂.mem).evaluates ht' hl
      have hlen : (Ty.uint (u + 1)).width = some (cut bits' (ty.bitsBefore p.index) (u + 1)).length := by
        rw [length_cut hle]
        rfl
      exact .unary (f := id) (by simp) hmk' (hg₂.body.ty?_some hty) rfl hlen hbits'

end Grows

namespace Start

variable {q : Setting} {b₀ : Body} {R₀ : OpId → Nat} {P D N : List OpId} {o : OpId} {k : BlockId}
  {A B : List OpId} {op : Operation} {y : Symbols}

theorem allowed_prim {r : Nat} {b : Body} {p : Prim} {vs : List ValueId} {ins : List Ty} {t : Ty} (hr : q.must → 0 < r)
    (hins : b.Types vs ins) (hg : ∀ u ∈ ins, u.isGround) (ht : t.isGround) : Allowed q r b (.prim p) vs [t] := fun hm => by
  refine ⟨.of_checked (by simp) hins ⟨hg, t, rfl, ht⟩ ?_, 0, hr hm, trivial⟩
  intro u hu
  rw [List.mem_singleton.1 hu, Ty.depth_of_isGround ht]
  cases t with
  | ground g => exact ⟨rfl, Nat.zero_le _⟩
  | _ => cases ht

/-- What a cast takes apart or makes is less deep than the cast nests. -/
theorem strings {r : Nat} {t : Ty} (hr : q.must → t.depth ≤ r ∧ 0 < r) : Grows.Strings (Allowed q r) t where
  prim hins hg hu _ := allowed_prim (fun hm => (hr hm).2) hins hg hu
  constant {b w n} hm := by
    refine ⟨.of_checked (by simp) .nil ⟨rfl, _, rfl, rfl⟩ ?_, 0, (hr hm).2, trivial⟩
    intro u hu
    rw [List.mem_singleton.1 hu]
    exact ⟨rfl, Nat.zero_le _⟩
  cast {b v c i w} hc hv hw hlt hm := by
    have hck : OpKind.bitcast.Checked q [c] [.uint w] := ⟨c, _, w, w, rfl, rfl, hw, hlt, rfl, hlt⟩
    refine ⟨.of_checked (by simp) (.cons hv .nil) hck ?_, c.depth, ?_, ?_⟩
    · intro u hu
      rw [List.mem_singleton.1 hu]
      exact ⟨rfl, Nat.zero_le _⟩
    · exact Nat.lt_of_lt_of_le (Ty.depth_lt_of_child? hc) (hr hm).1
    · intro v' hv' t' ht' u hu
      rw [List.mem_singleton.1 hv', hv] at ht'
      rw [List.mem_singleton.1 hu, ← Option.some.inj ht']
      exact Nat.le_refl _

/-- Casts with an aggregate on either side give way. -/
theorem bitcast_runs (h : Start q b₀ R₀ P o D k A B) (htr : b₀.Tracked y)
    (hop : b₀.op? o = some op) (he : op.erased = false) (hk : op.kind = .bitcast) :
    Runs q.must (Lower.bitcast o) ⟨⟨b₀, ⟨k, A.length⟩⟩, y⟩
      (Stepped q.must (Lowering.stage q) b₀ R₀ k A o B P D) := by
  obtain ⟨ins, outs, hins, houts, hsh⟩ := h.shaped hop he
  have hready := fun hm => h.ready hm hop he houts
  rw [hk] at hsh hready
  obtain ⟨a, t, rfl, rfl⟩ := hsh
  obtain ⟨input, hin, hops⟩ := hins.singleton
  obtain ⟨r, hty, hres⟩ := houts.singleton
  rw [hops] at hready
  have hv : b₀.Readable q P input := h.readable hop (by simp [hops])
  have hwidth : q.must → (∃ w, a.width = some w ∧ w < UInt32.size) ∧ ∃ w, t.width = some w ∧ w < UInt32.size := by
    intro hm
    obtain ⟨⟨ins', hins', a', t', w, u, rfl, ht', hw, hwlt, hu, hult⟩, -⟩ := (hready hm).1
    rw [← hops] at hins'
    obtain rfl : a = a' := by simpa using hins.unique hins'
    obtain rfl : t = t' := by simpa using ht'
    exact ⟨⟨w, hw, hwlt⟩, u, hu, hult⟩
  have hrank : q.must → a.depth + t.depth ≤ R₀ o := fun hm =>
    (hready hm).2 input (List.mem_singleton_self _) a hin t (List.mem_singleton_self _)
  have hsized : q.must → t.lastId?.isSome ∧ t.depth ≤ q.depth := fun hm =>
    (hready hm).1.sized t (List.mem_singleton_self _)
  unfold Lower.bitcast
  refine Body.bind_operand hop (v := input) (by rw [hops]; rfl) ?_
  refine Body.bind_result hop (v := r) (by rw [hres]; rfl) ?_
  refine Body.bind_typeOf hin ?_
  refine Body.bind_typeOf hty ?_
  split
  next hground =>
    rw [Bool.and_eq_true] at hground
    refine .pure (h.kept rfl htr (fun {op'} hop' _ => ?_) fun hm {op' v t'} hop' hv' ht' hg => ?_)
    · rw [hop] at hop'
      obtain rfl := Option.some.inj hop'
      refine ⟨[a], [t], hins, houts, by rw [hk]; exact ⟨a, t, rfl, rfl⟩, ?_⟩
      rw [hk]
      exact ⟨by simpa using hground.1, by simpa using hground.2⟩
    · rw [hop] at hop'
      obtain rfl := Option.some.inj hop'
      rw [hops, List.mem_singleton] at hv'
      rw [hv', hin] at ht'
      rw [← Option.some.inj ht', hground.1] at hg
      cases hg
  next hground =>
    have hpos : q.must → 0 < R₀ o := by
      intro hm
      have := hrank hm
      rw [Bool.and_eq_true, not_and_or, Bool.not_eq_true, Bool.not_eq_true] at hground
      rcases hground with hg | hg
      · have := Ty.depth_pos hg
        omega
      · have := Ty.depth_pos hg
        omega
    have hstr : Grows.Strings (Allowed q (R₀ o)) a := strings fun hm =>
      ⟨Nat.le_trans (Nat.le_add_right _ _) (hrank hm), hpos hm⟩
    refine Runs.bind_build (h.grows.flatten_runs (s := ⟨b₀, ⟨k, A.length⟩⟩) hstr h.front (.inl hv) hin
      (fun i hg => .part (fun hm {_ _} hu => hg.holds.sized hm hu) hpos input i) fun hm =>
        ⟨(h.holds.sized hm hin).1, (hwidth hm).1⟩) ?_
    rintro flat s₁ ⟨N₁, u, hg₁, hat, huty, hug, -, hagg, -⟩
    obtain ⟨op₁, hop₁, hbare₁, -, hres₁, -, -⟩ := hg₁.body.op? hop
    have hk₁ : op₁.kind = .bitcast := by
      rw [← hk]
      exact (OpKind.eq_of_bare_eq hbare₁.symm (by rw [hk]; rfl)).symm
    refine Runs.bind_except (Ty.peel_ends fun hm => (hsized hm).1) fun r' hr' => ?_
    cases r' with
    | some ps =>
      obtain ⟨hps, -⟩ := hr'
      refine h.grows.splitProducer_runs (t := ⟨s₁, y⟩) (fun kind new u' hann hm => ?_) hg₁.holds
        (htr.persists hg₁.body.persists) hop₁ (hres₁.trans hres) (hg₁.body.ty?_some hty)
        (fun hm => ?_) ?_ ?_ ?_
      · cases kind <;> first | trivial | exact fun t ht => by rw [List.mem_singleton.1 ht]; exact hann hm
      · rw [hk₁]
        exact .nil (hsized hm).1
      · rintro N s ps' p hps' hmem hg
        have hc := hps'.child_index hmem
        have hdepth := Ty.depth_lt_of_child? hc
        have hid : q.must → p.ty.lastId?.isSome ∧ p.ty.depth ≤ q.depth := fun hm =>
          ⟨Ty.isSome_lastId?_child (hsized hm).1 hc, Nat.le_trans (Nat.le_of_lt hdepth) (hsized hm).2⟩
        have hlt : q.must → p.ty.depth < R₀ o := fun hm => by
          have := hrank hm
          omega
        refine (h.grows.slice_runs hg.holds (hg.atHand hat) (hg.body.ty?_some huty) hug hps hc (fun _ hm => ?_)
          (fun _ _ => allowed_prim hpos (.cons (hg.body.ty?_some huty) .nil) (by simpa using hug) rfl)
          (fun {b v w} hv' hw hpw hm => ?_) fun hm => (hwidth hm).2).mono ?_
        · refine ⟨.of_checked (by simp) .nil ⟨rfl, _, rfl⟩ (by simpa using hid hm), _, hlt hm, ?_⟩
          intro t' ht'
          exact Nat.le_of_eq (congrArg Ty.depth (List.mem_singleton.1 ht'))
        · refine ⟨.of_checked (by simp) (.cons hv' .nil) ⟨_, _, w, w, rfl, rfl, rfl, hw, hpw, hw⟩
            (by simpa using hid hm), _, hlt hm, ?_⟩
          intro v' hmem' t' ht' u' hu'
          rw [List.mem_singleton.1 hmem', hv'] at ht'
          rw [← Option.some.inj ht', List.mem_singleton.1 hu']
          exact Nat.le_of_eq (Nat.zero_add _)
        · rintro w s' ⟨L, o', kind, vs, hg', -, hmk, hwty, hfix, -⟩
          refine ⟨L ++ [o'], o', kind, vs, hg', by simp, hmk, hwty, hfix, fun hd => ?_⟩
          rw [hk₁] at hd
          cases hd
      · rintro (hg | ⟨hf, -⟩)
        · rw [hps.aggregate] at hg
          cases hg
        · cases hf
      · rintro ps' values N' t' hps' - hg' htr' hmade
        exact h.rewire_ends hg'.holds (hg₁.body.trans hg'.body) htr' hop (by rw [hk]; rfl)
          (by rw [hk]; rfl) hres hty hps' hmade
    | none =>
      have htg : t.isGround := by simpa using hr'
      have hag : a.isGround = false := by
        cases ha : a.isGround with
        | false => rfl
        | true => exact absurd (by rw [ha, htg]; rfl) hground
      obtain ⟨hmade, n, hn, rfl⟩ := hagg hag
      -- whatever the ground value is, it is read in the same way
      have hend : ∀ {N₂ s₂ w u}, Grew (Front q b₀ R₀ P o D k A B) N₁ s₁ N₂ s₂ → MadeIn N₂ s₂.body w →
          s₂.body.ty? w = some u → u.isGround →
          Runs q.must (do Lower.change (·.replaceAllUses r w); return true) ⟨s₂, y⟩
            (Stepped q.must (Lowering.stage q) b₀ R₀ k A o B P D) := by
        intro N₂ s₂ w u hg₂ hw hwty hu
        have hg := hg₁.trans hg₂
        exact Runs.bind_change (h.replaceAllUses_ends hg₂.holds hg.body
          (htr.persists hg.body.persists) hop (by rw [hk]; rfl) hres hty hw hwty (.inr ⟨htg, hu⟩))
          fun b hb => .pure hb
      have hins₁ : s₁.body.Types [flat] [.uint n] := .cons huty .nil
      dsimp only
      split
      next w =>
        refine Runs.bind_build (P := fun w s₂ => ∃ N₂ u, Grew (Front q b₀ R₀ P o D k A B) N₁ s₁ N₂ s₂ ∧
          MadeIn N₂ s₂.body w ∧ s₂.body.ty? w = some u ∧ u.isGround) ?_ ?_
        · unfold Build.asSInt
          refine Grows.bind_knownWidth (fun _ => ⟨_, n, huty, rfl, hn⟩) fun t' w' _ _ _ => ?_
          refine (h.grows.prim_runs hg₁.holds (by simpa using hat) hins₁ rfl
            (allowed_prim hpos hins₁ (by simp [Ty.isGround]) rfl)).mono fun w s₂ hnew => ?_
          obtain ⟨N₂, hg₂, hw, hwty⟩ := hnew.madeIn
          exact ⟨N₂, _, hg₂, hw, hwty, rfl⟩
        · rintro w s₂ ⟨N₂, u, hg₂, hw, hwty, hu⟩
          exact hend hg₂ hw hwty hu
      next =>
        refine Runs.bind_build (h.grows.castTo_runs hg₁.holds hmade huty fun hm => ?_) ?_
        · obtain ⟨w, hw, hwlt⟩ := (hwidth hm).2
          refine ⟨.of_checked (by simp) hins₁ ⟨_, _, n, w, rfl, rfl, rfl, hn, hw, hwlt⟩
            (by simpa using hsized hm), 0, hpos hm, ?_⟩
          intro v' hmem' t' ht' u' hu'
          rw [List.mem_singleton.1 hmem', huty] at ht'
          rw [← Option.some.inj ht', List.mem_singleton.1 hu', Ty.depth_of_isGround htg]
          exact Nat.le_refl _
        · rintro w s₂ ⟨N₂, hg₂, hw, hwty, -⟩
          exact hend hg₂ hw.madeIn hwty htg

end Start

end Scalarize
