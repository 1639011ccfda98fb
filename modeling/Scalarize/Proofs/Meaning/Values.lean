import Scalarize.Proofs.Meaning.Drafts
import Scalarize.Proofs.Step.Cast

/-!
# Values that are made

* `Has.node_makes`, `Has.mux_makes`, `Has.multiMux_makes`, `Draft.constant_makes`, … : one function for each kind of
  operation;
* `Has.castTo_gives`, `Has.flatten_gives`, `Has.slice_makes` : casts by way of one unsigned value.
-/

namespace Scalarize

open Body Lower

/-- Equality of two numbers, as one bit. -/
theorem Ty.unpack_bit (x : Bool) : (Ty.uint 1).unpack [x] [] = [x] := rfl

namespace Draft

variable {I : Interpretation} {idle : OpId → Prop} {W : List OpId → Builder → Prop} {P : List OpId} [Site W]
  {d d' : Draft I idle W P} {E : List Effect} {v u input index sel high low : ValueId} {t c : Ty} {σ s s' : Sense}
  {vs : List ValueId} {xs : List (Ty × Sense)} {i n m w : Nat}

/-! ## Choices -/

/-- A name for a value. -/
theorem Has.node_makes (hv : d.Has input t σ) (decl : Decl) :
    Runs False (firstResult (Build.node input decl)) d.builder (d.Makes [] t ⟨σ.bits, none⟩) := by
  have hmade : Runs False (firstResult (Build.node input decl)) d.builder (d.builder.Made (.node decl) [input] t) := by
    refine Build.result_any (Build.typeOf_any fun t' ht' => ?_)
    obtain rfl := Option.some.inj (hv.ty?.symm.trans ht')
    exact Build.create_any rfl _ _
  refine hmade.mono fun v s hm => HasAll.makes (.cons hv .nil) hm rfl trivial rfl ⟨t, rfl, rfl⟩
    ⟨t, t, rfl, rfl, .refl t⟩ hv.accepts (fun f hf => ?_) (fun _ => rfl) nofun nofun
  rw [← Option.some.inj hf]

theorem Has.mux_makes {tsel : Ty} (hsel : d.Has sel tsel σ) (hh : d.Has high t s) (hl : d.Has low t s') :
    Runs False (Build.mux sel high low) d.builder
      (d.Makes [] t ⟨if true ∈ σ.bits [] then s.bits else s'.bits, none⟩) := by
  refine Build.typeOf_any fun t' ht' => ?_
  obtain rfl := Option.some.inj (hh.ty?.symm.trans ht')
  refine (Build.createValue_any rfl _ _).mono fun v _ hm => HasAll.makes
    (.cons hsel (.cons hh (.cons hl .nil))) hm rfl trivial rfl ⟨tsel, t, rfl, rfl⟩
    ⟨tsel, t, t, t, rfl, rfl, .refl t⟩ ?_ (fun f hf => ?_) (fun _ => rfl) nofun nofun
  · dsimp only
    split
    · exact hh.accepts
    · exact hl.accepts
  · rw [← Option.some.inj hf]

/-- The choice of one of several inputs, listed from the highest position down. -/
def choice (t : Ty) (index : Reading) (inputs : List (List Nat → List Bool)) : List Nat → List Bool :=
  (index.position?.bind fun i => inputs.reverse[i]?).elim (t.unpack []) id

theorem value?_multiMux (t : Ty) (index : Reading) (inputs : List Reading) :
    OpKind.multiMux.value? I t (index :: inputs) = some (choice t index (inputs.map (·.2))) := by
  change some _ = some _
  unfold choice
  cases index.position? with
  | none => rfl
  | some i =>
    rw [Option.bind_some, Option.bind_some, ← List.map_reverse, List.getElem?_map]
    cases inputs.reverse[i]? <;> rfl

/-- The choice holds bits of one of the inputs, or none. -/
theorem accepts_choice {index : Reading} {inputs : List (List Nat → List Bool)} (h : ∀ f ∈ inputs, t.Accepts f) :
    t.Accepts (choice t index inputs) := by
  unfold choice
  cases hp : index.position?.bind fun i => inputs.reverse[i]? with
  | none => exact (Ty.exact_unpack t []).accepts
  | some f =>
    obtain ⟨i, -, hi⟩ := Option.bind_eq_some_iff.1 hp
    exact h f (List.mem_reverse.1 (List.mem_of_getElem? hi))

theorem HasAll.multiMux_makes {tindex : Ty} {ss : List Sense} (hx : d.Has index tindex σ)
    (h : d.HasAll vs (ss.map fun s => (t, s))) : Runs False (Build.multiMux index vs) d.builder
      (d.Makes [] t ⟨choice t (tindex, σ.bits) (ss.map (·.bits)), none⟩) := by
  have hholds : ∀ f ∈ ss.map (·.bits), t.Accepts f := fun f hf => by
    obtain ⟨s, hs, rfl⟩ := List.mem_map.1 hf
    obtain ⟨v, -, hv⟩ := exists_of_forall₂ h (List.mem_map_of_mem hs)
    exact hv.accepts
  cases ss with
  | nil =>
    cases h
    exact .throw id
  | cons s ss =>
    cases h with
    | @cons first _ rest _ hfirst hrest =>
    refine Build.typeOf_any fun t' ht' => ?_
    obtain rfl := Option.some.inj (hfirst.ty?.symm.trans ht')
    have hall : d.HasAll (index :: first :: rest) ((tindex, σ) :: (s :: ss).map fun s => (t, s)) :=
      .cons hx (.cons hfirst hrest)
    refine (Build.createValue_any rfl _ _).mono fun v _ hm => hall.makes hm rfl trivial rfl
      ⟨tindex, _, t, rfl, fun u hu => ?_, rfl⟩ ⟨tindex, t, _, t, rfl, rfl, .refl t⟩ (accepts_choice hholds)
      (fun f hf => ?_) (fun _ => rfl) nofun nofun
    · rw [List.map_map] at hu
      obtain ⟨-, -, rfl⟩ := List.mem_map.1 hu
      rfl
    · rw [List.map_cons, value?_multiMux, List.map_map, List.map_map] at hf
      rw [← Option.some.inj hf]
      rfl

/-! ## Literals and variables -/

/-- A literal. -/
theorem constant_makes (d : Draft I idle W P) (g : Ground) (value : Nat) :
    Runs False (Build.constant (.ground g) value) d.builder
      (d.Makes [] (.ground g) ⟨(Ty.ground g).literal value, none⟩) :=
  (Build.createValue_any rfl _ _).mono fun _ _ hm => HasAll.makes .nil hm rfl trivial rfl trivial
    ⟨rfl, _, rfl, fun _ => rfl⟩ (Ty.holds_ground_iff.2 fun path hp => by cases path <;> first | rfl | cases hp rfl)
    (fun f hf => by rw [← Option.some.inj hf]) (fun _ => rfl) nofun nofun

/-- A value that nothing is known of. -/
theorem invalid_makes (d : Draft I idle W P) (t : Ty) (hσ : t.Exact σ.bits) (hp : σ.place = none) :
    Runs False (Build.invalid t) d.builder (d.Makes (t.holding .invalid σ) t σ) :=
  (Build.createValue_any rfl _ _).mono fun _ _ hm => HasAll.makes .nil hm rfl trivial rfl trivial
    ⟨rfl, t, rfl⟩ hσ.accepts nofun (fun _ => hp) (fun _ => hσ) nofun

/-- A wire. -/
theorem wire_makes (d : Draft I idle W P) (t : Ty) (decl : Decl) (hσ : t.Accepts σ.bits) :
    Runs False (firstResult (Build.wire t decl)) d.builder (d.Makes (t.holding .wire σ) t σ) :=
  (Build.result_any (Build.create_any rfl _ _)).mono fun _ _ hm => HasAll.makes .nil hm rfl trivial rfl
    trivial ⟨rfl, t, rfl⟩ hσ nofun nofun nofun nofun

/-- A register without a reset. -/
theorem Has.reg_makes {tclock : Ty} {clock : ValueId} (hclock : d.Has clock tclock s) (t : Ty) (decl : Decl)
    (hσ : t.Accepts σ.bits) :
    Runs False (firstResult (Build.reg t clock decl)) d.builder (d.Makes (t.holding .register σ) t σ) :=
  (Build.result_any (Build.create_any rfl _ _)).mono fun _ _ hm => HasAll.makes
    (.cons hclock .nil) hm rfl trivial rfl trivial ⟨tclock, t, rfl, rfl⟩ hσ nofun nofun nofun nofun

/-- A register with a reset value. -/
theorem HasAll.regReset_makes {tclock treset : Ty} {clock reset init : ValueId} {sc sr si : Sense}
    (h : d.HasAll [clock, reset, init] [(tclock, sc), (treset, sr), (t, si)]) (decl : Decl) (hσ : t.Accepts σ.bits) :
    Runs False (firstResult (Build.regReset t clock reset init decl)) d.builder
      (d.Makes (t.holding .register σ) t σ) :=
  (Build.result_any (Build.create_any rfl _ _)).mono fun _ _ hm => h.makes hm rfl trivial rfl
    ⟨tclock, treset, t, rfl, rfl⟩ ⟨tclock, treset, t, t, rfl, rfl⟩ hσ nofun nofun nofun nofun

/-! ## Primitives -/

/-- A primitive of values at hand. -/
theorem HasAll.prim_makes (h : d.HasAll vs xs) (p : Prim) (g : Ground) :
    Runs False (Build.prim p vs (.ground g)) d.builder
      (d.Makes [] (.ground g) ⟨(Ty.ground g).unpack (p.result I (xs.map fun x => (x.1, x.2.bits))), none⟩) :=
  (Build.createValue_any rfl _ _).mono fun _ _ hm => h.makes hm rfl trivial rfl trivial ⟨_, rfl, fun _ => rfl⟩
    (Ty.exact_unpack _ _).accepts (fun f hf => by rw [← Option.some.inj hf]) (fun _ => rfl) nofun nofun

/-- Equality of two values. -/
theorem Has.eq_makes {tu : Ty} (hv : d.Has v t σ) (hu : d.Has u tu s) : Runs False (Build.eq v u) d.builder
    (d.Makes [] (.uint 1) ⟨(Ty.uint 1).unpack [decide (t.number σ.bits = tu.number s.bits)], none⟩) :=
  HasAll.prim_makes (.cons hv (.cons hu .nil)) .eq _

/-- Concatenation of two values. -/
theorem Has.cat_makes {tl : Ty} (hh : d.Has high t σ) (hl : d.Has low tl s) (hm : t.width = some m)
    (hn : tl.width = some n) : Runs False (Build.cat high low) d.builder
      (d.Makes [] (.uint (m + n)) ⟨(Ty.uint (m + n)).unpack (tl.pack s.bits ++ t.pack σ.bits), none⟩) := by
  refine Grows.bind_knownWidth nofun fun t₁ w₁ ht₁ hw₁ _ => Grows.bind_knownWidth nofun fun t₂ w₂ ht₂ hw₂ _ => ?_
  obtain rfl := Option.some.inj (hh.ty?.symm.trans ht₁)
  obtain rfl := Option.some.inj (hl.ty?.symm.trans ht₂)
  obtain rfl := Option.some.inj (hm.symm.trans hw₁)
  obtain rfl := Option.some.inj (hn.symm.trans hw₂)
  dsimp only
  split
  next => exact HasAll.prim_makes (.cons hh (.cons hl .nil)) .cat _
  next => exact .throw id

/-- Some bits of a value. -/
theorem Has.bits_makes (hv : d.Has input t σ) (hi lo : Nat) : Runs False (Build.bits input hi lo) d.builder
    (d.Makes [] (.uint (hi - lo + 1)) ⟨(Ty.uint (hi - lo + 1)).unpack (((t.pack σ.bits).drop lo).take (hi + 1 - lo)), none⟩) := by
  unfold Build.bits
  split
  · exact .throw id
  · exact HasAll.prim_makes (.cons hv .nil) (.bits hi lo) _

theorem Has.asUInt_makes (hv : d.Has input t σ) (hw : t.width = some w) : Runs False (Build.asUInt input) d.builder
    (d.Makes [] (.uint w) ⟨(Ty.uint w).unpack (t.pack σ.bits), none⟩) := by
  refine Grows.bind_knownWidth nofun fun t' w' ht' hw' _ => ?_
  obtain rfl := Option.some.inj (hv.ty?.symm.trans ht')
  obtain rfl := Option.some.inj (hw.symm.trans hw')
  exact HasAll.prim_makes (.cons hv .nil) .asUInt _

theorem Has.asSInt_makes (hv : d.Has input t σ) (hw : t.width = some w) : Runs False (Build.asSInt input) d.builder
    (d.Makes [] (.sint w) ⟨(Ty.sint w).unpack (t.pack σ.bits), none⟩) := by
  refine Grows.bind_knownWidth nofun fun t' w' ht' hw' _ => ?_
  obtain rfl := Option.some.inj (hv.ty?.symm.trans ht')
  obtain rfl := Option.some.inj (hw.symm.trans hw')
  exact HasAll.prim_makes (.cons hv .nil) .asSInt _

/-- The bits of a value as another type. -/
theorem Has.bitcast_made (hv : d.Has input t σ) (hw : t.width = some w) (hc : c.width = some w)
    (hlt : w < UInt32.size) : Runs False (Build.bitcast c input) d.builder fun v s =>
      d.Gives [] c ⟨c.unpack (t.pack σ.bits), none⟩ v s ∧
        ((c.isGround → t.isGround) → d.Makes [] c ⟨c.unpack (t.pack σ.bits), none⟩ v s) := by
  refine (Build.createValue_any rfl _ _).mono fun v _ hm => ?_
  obtain ⟨d', hs, hnext, hv', hrooted⟩ := HasAll.made (.cons hv .nil) hm rfl trivial rfl
    ⟨t, c, w, rfl, rfl, hw, hc, hlt⟩ ⟨t, c, rfl, rfl⟩ (Ty.exact_unpack _ _).accepts
    (fun f hf => by rw [← Option.some.inj hf]) (fun _ => rfl) nofun
  refine ⟨⟨d', hs, hnext, hv'⟩, fun hg => ⟨d', hs, hnext, hv', hrooted fun _ hground x hx => ?_⟩⟩
  obtain rfl := List.mem_singleton.1 hx
  exact hg hground

/-! ## Statements -/

/-- A connection. -/
theorem Has.connect_next (hd : d.Has v t σ) (hs : d.Has u t s) (strict : Bool) (hcast : ¬d.body.GroundCast idle v) :
    Runs False (Build.connect strict v u) d.builder
      fun _ s' => ∃ d', d'.builder = s' ∧ d.Next (t.driving σ s) d' := by
  have hall : d.HasAll [v, u] [(t, σ), (t, s)] := .cons hd (.cons hs .nil)
  refine (Build.create_any rfl _ _).mono ?_
  rintro o _ ⟨b', hc, rfl⟩
  obtain ⟨d', hd', hS, hnext, -⟩ := d.create hc rfl (τ := fun _ => ⟨fun _ => [], none⟩)
    { typed := ⟨_, hall.types, ⟨t, rfl⟩, ⟨t, t, rfl, rfl⟩⟩
      meant := trivial
      reads := fun w hw => by
        obtain ⟨x, -, hx⟩ := hall.mem hw
        exact ⟨hx.made, hx.owned⟩
      proper := nofun
      sense := nofun
      placeless := fun _ _ _ => rfl
      reaches := nofun
      short := nofun
      exact := nofun
      dest := fun {_ w} _ hw => by
        obtain rfl : v = w := by simpa using hw
        exact hcast }
  refine ⟨d', hd', ?_⟩
  have hty : b'.tyOf v = t := by
    have := (hd.next hnext).ty?
    rw [body, hd'] at this
    exact tyOf_eq this
  have heffects : b'.effectsBy d'.senses o = t.driving σ s := by
    rw [effectsBy_eq hc.op?_self]
    change (b'.tyOf v).driving (d'.senses v) (d'.senses u) = _
    rw [hty, (hd.next hnext).sense, (hs.next hnext).sense]
  exact heffects ▸ hnext

/-! ## Casts -/

/-- A value as a ground type of its width, itself if it has that type. -/
theorem Has.castTo_gives {g : Ground} (hv : d.Has v t σ) (hw : t.width = some w) (hg : g.width = some w)
    (hlt : w < UInt32.size) (hex : t.Exact σ.bits) : Runs False (castTo (.ground g) v) d.builder fun v' s' =>
      ∃ p, d.Gives [] (.ground g) ⟨(Ty.ground g).unpack (t.pack σ.bits), p⟩ v' s' := by
  refine Build.typeOf_any fun t' ht' => ?_
  obtain rfl := Option.some.inj (hv.ty?.symm.trans ht')
  split
  next he =>
    subst he
    refine .pure ⟨σ.place, ?_⟩
    rw [hex.unpack_pack_ground hg]
    exact hv.gives
  next => exact (hv.bitcast_made (c := .ground g) hw hg hlt).mono fun _ _ h => ⟨none, h.1⟩

end Draft

/-! ## Parts strung together -/

namespace Ty

variable {t : Ty} {ps : List Part} {f : List Nat → List Bool} {n : Nat}

/-- The bits of some parts of a value, strung together. -/
def packParts (ps : List Part) (f : List Nat → List Bool) : List Bool :=
  ps.flatMap fun p => p.ty.pack fun path => f (p.index :: path)

theorem packParts_concat (ps : List Part) (p : Part) (f : List Nat → List Bool) :
    packParts (ps ++ [p]) f = packParts ps f ++ p.ty.pack fun path => f (p.index :: path) := by
  simp [packParts]

theorem length_packParts (h : ∀ p ∈ ps, ∃ u, p.ty.width = some u) : (packParts ps f).length = bitsOf ps := by
  induction ps with
  | nil => rfl
  | cons p ps ih =>
    obtain ⟨u, hu⟩ := h p List.mem_cons_self
    have hbits := bitsOf_append [p] ps
    rw [bitsOf_singleton hu] at hbits
    rw [← List.singleton_append, hbits, packParts, List.flatMap_append, List.length_append, List.flatMap_singleton,
      length_pack hu, ← ih fun p hp => h p (List.mem_cons_of_mem _ hp)]
    rfl

/-- A string of the width is packed again as it was. -/
theorem pack_unpack_uint {word : List Bool} (h : word.length = n) : (uint n).pack ((uint n).unpack word) = word := by
  rw [pack_unpack_ground, Ground.fit_eq (n := n) rfl, fit_eq_self h]

end Ty

namespace Draft

variable {I : Interpretation} {idle : OpId → Prop} {W : List OpId → Builder → Prop} {P : List OpId} [Site W]
  {d d' : Draft I idle W P} {v input flat : ValueId} {t c : Ty} {σ s : Sense} {n w : Nat} {ps : List Part} {p : Part}

/-- The parts that are strung together so far are one unsigned value, or have no bits. -/
def Strung (d : Draft I idle W P) (σ : Sense) (done : List Part) : Option ValueId → Prop
  | none => Ty.bitsOf done = 0
  | some v => ∃ place, d.Has v (.uint (Ty.bitsOf done)) ⟨(Ty.uint (Ty.bitsOf done)).unpack (Ty.packParts done σ.bits), place⟩

theorem Has.appendPart_runs (hv : d.Has input t σ) (hps : t.PartsOf ps) (hn : t.width = some n) {done rest : List Part}
    (hl : ps = done ++ p :: rest) {flat : Option ValueId} (hflat : d.Strung σ done flat) :
    Runs False (appendPart input flat p) d.builder fun flat' s' =>
      ∃ d', d'.builder = s' ∧ d.Next [] d' ∧ d'.Strung σ (done ++ [p]) flat' := by
  have hp : p ∈ ps := hl ▸ List.mem_append_right _ List.mem_cons_self
  have hc := hps.child_index hp
  refine .bind_exceptBuild (P := fun w => p.ty.width = some w ∧ w < UInt32.size)
    (Ty.castWidth_ends (nofun : False → _)) fun w ⟨hw, hlt⟩ => ?_
  have hwidth : ∀ q ∈ done, ∃ u, q.ty.width = some u := fun q hq =>
    let ⟨u, hu, _⟩ := (hps.sum_width hn).2 q (hl ▸ List.mem_append_left _ hq)
    ⟨u, hu⟩
  have hbits : Ty.bitsOf (done ++ [p]) = w + Ty.bitsOf done := by
    rw [Ty.bitsOf_append, Ty.bitsOf_singleton hw, Nat.add_comm]
  have hlen := Ty.length_packParts (f := σ.bits) hwidth
  have hpack := Ty.packParts_concat done p σ.bits
  split
  next hzero =>
    have hnil : p.ty.pack (fun path => σ.bits (p.index :: path)) = [] :=
      List.length_eq_zero_iff.1 (by rw [Ty.length_pack hw, hzero])
    refine .pure ⟨d, rfl, .refl d, ?_⟩
    unfold Strung at hflat ⊢
    rwa [hbits, hzero, Nat.zero_add, hpack, hnil, List.append_nil]
  next =>
    refine Gives.bind (hv.part_gives hc) fun part d₁ h₁ hpart => ?_
    refine (hpart.castTo_gives hw (g := .uint (some w)) rfl hlt (hv.accepts.child hc)).bind ?_
    rintro leaf _ ⟨place, d₂, rfl, h₂, hleaf⟩
    have h₁₂ := h₁.trans h₂
    unfold Strung at hflat
    split
    next =>
      have hnil : Ty.packParts done σ.bits = [] := List.length_eq_zero_iff.1 (by rw [hlen, hflat])
      refine .pure ⟨d₂, rfl, h₁₂, place, ?_⟩
      rw [hbits, hflat, Nat.add_zero, hpack, hnil, List.nil_append]
      exact hleaf
    next low =>
      obtain ⟨place', hlow⟩ := hflat
      refine Gives.bind ((hleaf.cat_makes (hlow.next h₁₂) (m := w) (n := Ty.bitsOf done) rfl rfl).mono
        fun _ _ => Makes.gives) fun v d₃ h₃ hv => .pure ⟨d₃, rfl, h₁₂.trans h₃, none, ?_⟩
      rw [hbits, hpack]
      rwa [Ty.pack_unpack_uint hlen, Ty.pack_unpack_uint (Ty.length_pack hw _)] at hv

/-- A value of known width as one unsigned value, which is exact if the value is an aggregate. -/
theorem Has.flatten_gives (hv : d.Has input t σ) (hn : t.width = some n) :
    Runs False (flatten input) d.builder fun v s' => ∃ σ', d.Gives [] (.uint n) σ' v s' ∧
      (Ty.uint n).pack σ'.bits = t.pack σ.bits ∧ (t.isGround = false → (Ty.uint n).Exact σ'.bits) := by
  have hpack := Ty.pack_unpack_uint (Ty.length_pack hn σ.bits)
  refine Build.typeOf_any fun t' ht' => ?_
  obtain rfl := Option.some.inj (hv.ty?.symm.trans ht')
  refine .bind_exceptBuild (Ty.peel_ends (nofun : False → _)) fun parts? hparts => ?_
  split
  next parts =>
    have hps : t.PartsOf parts := hparts.1
    have hsum := (hps.sum_width hn).1
    have hnone : d.Strung σ [] none := rfl
    refine (Runs.foldlM (fun done flat s' => ∃ d', d'.builder = s' ∧ d.Next [] d' ∧ d'.Strung σ done flat) parts
      ⟨d, rfl, .refl d, hnone⟩ ?_).bind ?_
    · rintro done p rest flat _ hl ⟨d', rfl, h', hflat⟩
      exact ((hv.next h').appendPart_runs hps hn hl hflat).mono fun _ _ ⟨d'', hs, h'', hflat'⟩ =>
        ⟨d'', hs, h'.trans h'', hflat'⟩
    · rintro flat _ ⟨d', rfl, h', hflat⟩
      unfold Strung at hflat
      split
      next v =>
        obtain ⟨place, hflat⟩ := hflat
        rw [hsum, Ty.packParts, ← hps.pack_eq] at hflat
        exact .pure ⟨_, ⟨d', rfl, h', hflat⟩, hpack, fun _ => Ty.exact_unpack _ _⟩
      next =>
        rw [hsum] at hflat
        subst hflat
        refine (d'.constant_makes (.uint (some 0)) 0).mono fun _ _ h => ⟨_, h.gives.after h', ?_, fun _ => ?_⟩
        · rw [List.length_eq_zero_iff.1 (Ty.length_pack hn σ.bits)]
          rfl
        · have hnil : (Ty.ground (.uint (some 0))).literal 0 = (Ty.uint 0).unpack [] := by
            funext path
            cases path <;> rfl
          exact hnil ▸ Ty.exact_unpack _ _
  next =>
    have hground : t.isGround := hparts.resolve_right nofun
    split
    next w =>
      obtain rfl : w = some n := hn
      exact .pure ⟨σ, hv.gives, rfl, nofun⟩
    next => exact (hv.asUInt_makes hn).mono fun _ _ h => ⟨_, h.gives, hpack, fun hf => by rw [hground] at hf; cases hf⟩

/-- A part cut out of an unsigned value. -/
theorem Has.slice_makes (hv : d.Has flat (.uint n) σ) (hps : t.PartsOf ps) (hc : t.child? p.index = some p.ty) :
    Runs False (slice flat ps p) d.builder
      (d.Makes [] p.ty ⟨fun path => t.unpack ((Ty.uint n).pack σ.bits) (p.index :: path), none⟩) := by
  rw [Ty.unpack_child hc, ← hps.bitOffset_eq]
  refine .bind_exceptBuild (P := fun w => p.ty.width = some w ∧ w < UInt32.size)
    (Ty.castWidth_ends (nofun : False → _)) fun w ⟨hw, hlt⟩ => ?_
  split
  next hzero =>
    subst hzero
    have := d.invalid_makes (σ := ⟨p.ty.unpack (((Ty.uint n).pack σ.bits).drop (bitOffset ps p.index)), none⟩) p.ty
      (Ty.exact_unpack _ _) rfl
    rwa [Ty.holding_invalid hw] at this
  next hne =>
    dsimp only
    split
    next => exact .bind_throw id
    next =>
      have hbits := hv.bits_makes (bitOffset ps p.index + w - 1) (bitOffset ps p.index)
      have hw₁ : bitOffset ps p.index + w - 1 - bitOffset ps p.index + 1 = w := by omega
      have hw₂ : bitOffset ps p.index + w - 1 + 1 - bitOffset ps p.index = w := by omega
      rw [hw₁, hw₂] at hbits
      -- what is cut off lies beyond the width of the part
      have hcut : ∀ {u : Ty}, u.width = some w → ∀ word : List Bool, u.unpack (word.take w) = u.unpack word :=
        fun hu word => by rw [← Ty.unpack_fit hu (word.take w), fit_take, Ty.unpack_fit hu]
      refine hbits.bind ?_
      rintro bits _ ⟨d₁, rfl, h₁, hbits, hrooted⟩
      rw [hcut rfl] at hbits
      split
      next he =>
        rw [← he] at hbits
        exact .pure ⟨d₁, rfl, h₁, hbits, hrooted⟩
      next =>
        refine (hbits.bitcast_made (w := w) rfl hw hlt).mono fun _ _ h => ?_
        have hmade := (h.2 fun _ => rfl).after h₁
        rwa [Ty.pack_unpack_ground, Ground.fit_eq (n := w) rfl, Ty.unpack_fit hw] at hmade

end Draft

end Scalarize
