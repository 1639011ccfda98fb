import Scalarize.Proofs.Step.Cast
import Scalarize.Proofs.Typing.Rules

/-!
# Building well-typed operations

* `Builder.Gives` : a value of a known type is made, and what is made for it keeps the rule;
* `Build.part_gives`, `Build.multiMux_gives`, `Build.cat_gives`, … : one function for each kind of operation;
* `Lower.flatten_gives`, `Lower.slice_gives` : casts by way of one unsigned value.
-/

namespace Scalarize

open Body

/-- A value of the type is at hand, and nothing but well-typed operations was made. -/
structure Builder.Gives (s : Builder) (t : Ty) (v : ValueId) (s' : Builder) : Prop where
  refits : s.body.Refits s'.body
  ty? : s'.body.ty? v = some t

theorem Builder.Gives.after {s s' s'' : Builder} {t : Ty} {v : ValueId} (h : s.body.Refits s'.body)
    (h' : s'.Gives t v s'') : s.Gives t v s'' := ⟨h.trans h'.refits, h'.ty?⟩

theorem Builder.Made.gives {s s' : Builder} {kind : OpKind} {vs : List ValueId} {ty : Ty} {v : ValueId}
    (h : s.Made kind vs ty v s') (hb : s.body.Coherent)
    (hf : ∀ {ins}, s.body.Types vs ins → kind.Fits ins [ty]) : s.Gives ty v s' := by
  refine ⟨?_, h.ty?⟩
  obtain ⟨o, b, hc, rfl, -⟩ := h
  exact .created hb hc hf _

namespace Build

variable {s : Builder} {kind : OpKind} {vs : List ValueId} {tys : List Ty} {ty t c : Ty} {input v : ValueId}
  {i : Nat}

theorem create_gives (hb : s.body.Coherent) (hk : kind.blocks = [])
    (hf : ∀ {ins}, s.body.Types vs ins → kind.Fits ins tys) :
    Runs False (create kind vs tys) s fun o s' => s.body.Refits s'.body ∧
      ∃ rs, s'.body.op? o = some ⟨kind, vs, rs, s.point.block, false⟩ ∧ s'.body.Types rs tys := by
  refine (create_any hk vs tys).mono ?_
  rintro o s' ⟨b, hc, rfl⟩
  exact ⟨.created hb hc hf _, _, hc.toJoined.op?_self, hc.types_results⟩

theorem createValue_gives (hb : s.body.Coherent) (hk : kind.blocks = [])
    (hf : ∀ {ins}, s.body.Types vs ins → kind.Fits ins [ty]) :
    Runs False (createValue kind vs ty) s (s.Gives ty) :=
  (createValue_any hk vs ty).mono fun _ _ hm => hm.gives hb hf

/-- The first result of a new operation. -/
theorem firstResult_gives (hb : s.body.Coherent) (hk : kind.blocks = [])
    (hf : ∀ {ins}, s.body.Types vs ins → kind.Fits ins [ty]) :
    Runs False (Lower.firstResult (create kind vs [ty])) s (s.Gives ty) :=
  createValue_gives hb hk hf

theorem wire_gives (hb : s.body.Coherent) (ty : Ty) (d : Decl) :
    Runs False (wire ty d) s fun o s' => s.body.Refits s'.body ∧
      ∃ rs, s'.body.op? o = some ⟨.wire d, [], rs, s.point.block, false⟩ ∧ s'.body.Types rs [ty] :=
  create_gives hb rfl fun _ => trivial

/-- A name for a value. -/
theorem node_gives (hb : s.body.Coherent) (ht : s.body.ty? input = some t) (d : Decl) :
    Runs False (Lower.firstResult (node input d)) s (s.Gives t) := by
  have hmade : Runs False (Lower.firstResult (node input d)) s (s.Made (.node d) [input] t) := by
    refine result_any (typeOf_any fun t' ht' => ?_)
    obtain rfl := Option.some.inj (ht.symm.trans ht')
    exact create_any rfl _ _
  exact hmade.mono fun _ _ hm => hm.gives hb fun hins => ⟨t, hins.unique (.cons ht .nil), rfl⟩

/-! ## Parts -/

theorem subfield_gives (hb : s.body.Coherent) (ht : s.body.ty? input = some t) (i : Nat) :
    Runs False (subfield input i) s fun v s' => ∃ c, t.child? i = some c ∧ s.Gives c v s' := by
  refine typeOf_any fun t' ht' => ?_
  obtain rfl := Option.some.inj (ht.symm.trans ht')
  split
  next fs =>
    split
    next f hf =>
      have hc : (Ty.bundle fs).child? i = some f.ty := by simp [Ty.child?, hf]
      have hf : ∀ {ins}, s.body.Types [input] ins → (OpKind.subfield i).Fits ins [f.ty] := fun hins =>
        ⟨_, _, hins.unique (.cons ht .nil), hc, rfl⟩
      exact (createValue_gives hb rfl hf).mono fun v s' h => ⟨_, hc, h⟩
    next => exact .throw id
  next => exact .throw id

theorem subindex_gives (hb : s.body.Coherent) (ht : s.body.ty? input = some t) (i : Nat) :
    Runs False (subindex input i) s fun v s' => ∃ c, t.child? i = some c ∧ s.Gives c v s' := by
  refine typeOf_any fun t' ht' => ?_
  obtain rfl := Option.some.inj (ht.symm.trans ht')
  split
  next e n =>
    split
    next hi =>
      have hc : (Ty.vector e n).child? i = some e := by simp [Ty.child?, hi]
      have hf : ∀ {ins}, s.body.Types [input] ins → (OpKind.subindex i).Fits ins [e] := fun hins =>
        ⟨_, _, hins.unique (.cons ht .nil), hc, rfl⟩
      exact (createValue_gives hb rfl hf).mono fun v s' h => ⟨_, hc, h⟩
    next => exact .throw id
  next => exact .throw id

/-- An element of a vector. -/
theorem element_gives (hb : s.body.Coherent) {e : Ty} {n : Nat} (ht : s.body.ty? input = some (.vector e n))
    (i : Nat) : Runs False (subindex input i) s (s.Gives e) := by
  refine (subindex_gives hb ht i).mono fun v s' ⟨c, hc, h⟩ => ?_
  change (if i < n then some e else none) = some c at hc
  split at hc
  · exact Option.some.inj hc ▸ h
  · cases hc

theorem exists_part_gives (hb : s.body.Coherent) (ht : s.body.ty? input = some t) (i : Nat) :
    Runs False (part input i) s fun v s' => ∃ c, t.child? i = some c ∧ s.Gives c v s' := by
  refine typeOf_any fun t' _ => ?_
  split
  · exact subfield_gives hb ht i
  · exact subindex_gives hb ht i
  · exact .throw id

theorem part_gives (hb : s.body.Coherent) (ht : s.body.ty? input = some t) (hc : t.child? i = some c) :
    Runs False (part input i) s (s.Gives c) :=
  (exists_part_gives hb ht i).mono fun _ _ ⟨c', hc', h⟩ => by
    obtain rfl := Option.some.inj (hc.symm.trans hc')
    exact h

theorem subaccess_gives (hb : s.body.Coherent) {e : Ty} {n : Nat} (ht : s.body.ty? input = some (.vector e n))
    {index : ValueId} (hx : (s.body.ty? index).isSome) :
    Runs False (subaccess input index) s (s.Gives e) := by
  obtain ⟨x, hx⟩ := Option.isSome_iff_exists.1 hx
  refine typeOf_any fun t' ht' => ?_
  obtain rfl := Option.some.inj (ht.symm.trans ht')
  exact createValue_gives hb rfl fun hins => ⟨e, n, x, hins.unique (.cons ht (.cons hx .nil)), rfl⟩

/-! ## Choices and primitives -/

theorem mux_gives (hb : s.body.Coherent) {sel high low : ValueId} (hsel : (s.body.ty? sel).isSome)
    (hh : s.body.ty? high = some t) (hl : s.body.ty? low = some t) :
    Runs False (mux sel high low) s (s.Gives t) := by
  obtain ⟨x, hx⟩ := Option.isSome_iff_exists.1 hsel
  refine typeOf_any fun t' ht' => ?_
  obtain rfl := Option.some.inj (hh.symm.trans ht')
  exact createValue_gives hb rfl fun hins => ⟨x, t, hins.unique (.cons hx (.cons hh (.cons hl .nil))), rfl⟩

theorem multiMux_gives (hb : s.body.Coherent) {index : ValueId} {inputs : List ValueId}
    (hx : (s.body.ty? index).isSome) (hin : ∀ v ∈ inputs, s.body.ty? v = some t) :
    Runs False (multiMux index inputs) s (s.Gives t) := by
  obtain ⟨x, hx⟩ := Option.isSome_iff_exists.1 hx
  cases inputs with
  | nil => exact .throw id
  | cons first rest =>
    refine typeOf_any fun t' ht' => ?_
    obtain rfl := Option.some.inj ((hin first List.mem_cons_self).symm.trans ht')
    refine createValue_gives hb rfl fun hins => ⟨x, (first :: rest).map fun _ => t, t, ?_, ?_, rfl⟩
    · refine hins.unique (.cons hx ?_)
      exact List.forall₂_map_right_iff.2 (List.forall₂_same.2 hin)
    · intro u hu
      obtain ⟨-, -, rfl⟩ := List.mem_map.1 hu
      rfl

theorem prim_gives (hb : s.body.Coherent) (p : Prim) (vs : List ValueId) (ty : Ty) :
    Runs False (prim p vs ty) s (s.Gives ty) := createValue_gives hb rfl fun _ => trivial

theorem cat_gives (hb : s.body.Coherent) {high low : ValueId} {tl : Ty} {m n : Nat}
    (hh : s.body.ty? high = some t) (hl : s.body.ty? low = some tl) (hm : t.width = some m)
    (hn : tl.width = some n) : Runs False (cat high low) s fun v s' => m + n < UInt32.size ∧
      s.Gives (.uint (m + n)) v s' := by
  refine Grows.bind_knownWidth nofun fun t₁ w₁ ht₁ hw₁ _ => Grows.bind_knownWidth nofun fun t₂ w₂ ht₂ hw₂ _ => ?_
  obtain rfl := Option.some.inj (hh.symm.trans ht₁)
  obtain rfl := Option.some.inj (hl.symm.trans ht₂)
  obtain rfl := Option.some.inj (hm.symm.trans hw₁)
  obtain rfl := Option.some.inj (hn.symm.trans hw₂)
  dsimp only
  split
  next hlt => exact (prim_gives hb _ _ _).mono fun _ _ h => ⟨hlt, h⟩
  next => exact .throw id

theorem bits_gives (hb : s.body.Coherent) (input : ValueId) (hi lo : Nat) :
    Runs False (bits input hi lo) s (s.Gives (.uint (hi - lo + 1))) := by
  unfold bits
  split
  · exact .throw id
  · exact prim_gives hb _ _ _

theorem asUInt_gives (hb : s.body.Coherent) (ht : s.body.ty? input = some t) {w : Nat} (hw : t.width = some w) :
    Runs False (asUInt input) s (s.Gives (.uint w)) := by
  refine Grows.bind_knownWidth nofun fun t' w' ht' hw' _ => ?_
  obtain rfl := Option.some.inj (ht.symm.trans ht')
  obtain rfl := Option.some.inj (hw.symm.trans hw')
  exact prim_gives hb _ _ _

theorem asSInt_gives (hb : s.body.Coherent) (ht : s.body.ty? input = some t) {w : Nat} (hw : t.width = some w) :
    Runs False (asSInt input) s (s.Gives (.sint w)) := by
  refine Grows.bind_knownWidth nofun fun t' w' ht' hw' _ => ?_
  obtain rfl := Option.some.inj (ht.symm.trans ht')
  obtain rfl := Option.some.inj (hw.symm.trans hw')
  exact prim_gives hb _ _ _

theorem connect_gives (hb : s.body.Coherent) (strict : Bool) {dest src : ValueId}
    (hd : s.body.ty? dest = some t) (hs : s.body.ty? src = some t) :
    Runs False (connect strict dest src) s fun _ s' => s.body.Refits s'.body := by
  have hf : ∀ {ins}, s.body.Types [dest, src] ins → (OpKind.connect strict).Fits ins [] := fun hins =>
    ⟨t, hins.unique (.cons hd (.cons hs .nil))⟩
  exact (create_gives hb rfl hf).mono fun _ _ h => h.1

end Build

/-! ## Casts -/

namespace Lower

variable {s : Builder} {ty t : Ty} {input v : ValueId} {n : Nat}

theorem castTo_gives (hb : s.body.Coherent) (ht : s.body.ty? v = some t) (hn : t.width = some n)
    (hty : ty.width = some n) (hlt : n < UInt32.size) :
    Runs False (castTo ty v) s (s.Gives ty) := by
  refine Build.typeOf_any fun t' ht' => ?_
  obtain rfl := Option.some.inj (ht.symm.trans ht')
  split
  next he => exact .pure ⟨.refl hb _, he ▸ ht⟩
  next =>
    exact Build.createValue_gives hb rfl fun hins => ⟨t, ty, n, hins.unique (.cons ht .nil), rfl, hn, hty, hlt⟩

/-- The parts that are strung together so far are one unsigned value of their width, or have none. -/
def Stringing (b : Body) (done : List Part) (flat : Option ValueId) : Prop :=
  match flat with
  | none => Ty.bitsOf done = 0
  | some v => b.ty? v = some (.uint (Ty.bitsOf done))

theorem appendPart_gives (hb : s.body.Coherent) (ht : s.body.ty? input = some t) {done : List Part} {p : Part}
    (hc : t.child? p.index = some p.ty) {flat : Option ValueId} (hflat : Stringing s.body done flat) :
    Runs False (appendPart input flat p) s fun flat' s' => s.body.Refits s'.body ∧
      Stringing s'.body (done ++ [p]) flat' := by
  refine .bind_exceptBuild (P := fun w => p.ty.width = some w ∧ w < UInt32.size)
    (Ty.castWidth_ends (nofun : False → _)) fun w ⟨hw, hlt⟩ => ?_
  have hbits : Ty.bitsOf (done ++ [p]) = Ty.bitsOf done + w := by
    rw [Ty.bitsOf_append, Ty.bitsOf_singleton hw]
  split
  next hzero =>
    refine .pure ⟨.refl hb _, ?_⟩
    unfold Stringing at hflat ⊢
    rw [hbits, hzero, Nat.add_zero]
    exact hflat
  next =>
    refine (Build.part_gives hb ht hc).bind fun part s₁ h₁ => ?_
    have hty : (Ty.uint w).width = some w := rfl
    refine (castTo_gives h₁.refits.coherent h₁.ty? hw hty hlt).bind fun leaf s₂ h₂ => ?_
    have h₂' := h₁.refits.trans h₂.refits
    unfold Stringing at hflat
    split
    next =>
      refine .pure ⟨h₂', ?_⟩
      unfold Stringing
      rw [hbits, hflat, Nat.zero_add]
      exact h₂.ty?
    next low =>
      refine (Build.cat_gives h₂'.coherent h₂.ty? (h₂'.ty? hflat) (m := w) (n := Ty.bitsOf done) rfl rfl).bind
        fun v s₃ ⟨_, h₃⟩ => .pure ⟨h₂'.trans h₃.refits, ?_⟩
      unfold Stringing
      rw [hbits, Nat.add_comm]
      exact h₃.ty?

/-- A value of known width as one unsigned value. -/
theorem flatten_gives (hb : s.body.Coherent) (ht : s.body.ty? input = some t) (hn : t.width = some n) :
    Runs False (flatten input) s (s.Gives (.uint n)) := by
  refine Build.typeOf_any fun t' ht' => ?_
  obtain rfl := Option.some.inj (ht.symm.trans ht')
  refine .bind_exceptBuild (Ty.peel_ends (nofun : False → _)) fun parts? hparts => ?_
  split
  next parts =>
    have hps : t.PartsOf parts := hparts.1
    have hnone : Stringing s.body [] none := rfl
    refine (Runs.foldlM (fun done flat s' => s.body.Refits s'.body ∧ Stringing s'.body done flat) parts
      ⟨.refl hb _, hnone⟩ fun done p rest flat s' hl ⟨h', hflat⟩ => ?_).bind fun flat s' ⟨h', hflat⟩ => ?_
    · have hsum := (hps.sum_width hn).1
      unfold Stringing at hflat
      split
      next v =>
        rw [hsum] at hflat
        exact .pure ⟨h', hflat⟩
      next =>
        rw [hsum] at hflat
        subst hflat
        refine (Build.createValue_gives h'.coherent rfl ?_).mono fun _ _ h => h.after h'
        exact fun _ => trivial
    · have hp : p ∈ parts := hl ▸ List.mem_append_right _ List.mem_cons_self
      exact (appendPart_gives h'.coherent (h'.ty? ht) (hps.child_index hp) hflat).mono
        fun _ _ h'' => ⟨h'.trans h''.1, h''.2⟩
  next =>
    split
    next w =>
      obtain rfl : w = some n := hn
      exact .pure ⟨.refl hb _, ht⟩
    next => exact Build.asUInt_gives hb ht hn

/-- A part cut out of an unsigned value. -/
theorem slice_gives (hb : s.body.Coherent) (flat : ValueId) (parts : List Part) (p : Part) :
    Runs False (slice flat parts p) s (s.Gives p.ty) := by
  refine .bind_exceptBuild (P := fun w => p.ty.width = some w ∧ w < UInt32.size)
    (Ty.castWidth_ends (nofun : False → _)) fun w ⟨hw, hlt⟩ => ?_
  split
  next => exact Build.createValue_gives hb rfl fun _ => trivial
  next hne =>
    dsimp only
    split
    next => exact .bind_throw id
    next =>
      refine (Build.bits_gives hb flat _ _).bind fun bits s₁ h₁ => ?_
      have hbits : s₁.body.ty? bits = some (.uint w) := by
        rw [h₁.ty?]
        congr 3
        omega
      split
      next he => exact .pure ⟨h₁.refits, he ▸ hbits⟩
      next =>
        have hf : ∀ {ins}, s₁.body.Types [bits] ins → OpKind.bitcast.Fits ins [p.ty] := fun hins =>
          ⟨_, p.ty, w, hins.unique (.cons hbits .nil), rfl, rfl, hw, hlt⟩
        exact (Build.createValue_gives h₁.refits.coherent rfl hf).mono fun _ _ h => h.after h₁.refits

end Lower

end Scalarize
