import Scalarize.Proofs.Sweep.Advances

/-!
# New operations stand in front of the point

* `Builder.Fills` : operations that fill new slots at the point, in the order in which they were made, with whatever
  else is new below them; `Fills.trans`, `Fills.enter` : one after the other, and inside a guard that was just made;
* `Builder.Spawns`, `LowerState.Spawns` : all that happens to a body is that new slots at the point are filled;
* `Along`, `Along.bind` and the like : computations every result of which is related to the state before;
* `Builder.Admits` : relations along which operations are made, whichever they are.
-/

namespace Scalarize

open Body

namespace Body

variable {b b' : Body} {g o x y : OpId} {k : BlockId}

theorem Encloses.trans (h : b.Encloses g y) (h' : b.Encloses y x) : b.Encloses g x := by
  induction h' with
  | inside hk hx => exact .deeper h hk hx
  | deeper _ hk hx ih => exact .deeper ih hk hx

theorem Advances.encloses (h : Advances b b') (hx : b.Encloses g x) : b'.Encloses g x := by
  have hmem : ∀ {y m}, m ∈ b.guardedBlocks y → m ∈ b'.guardedBlocks y := fun hm => by
    rwa [h.guardedBlocks (isSome_of_mem_guardedBlocks hm)]
  induction hx with
  | inside hk hx => exact .inside (hmem hk) (h.liesIn hx)
  | deeper _ hk hx ih => exact .deeper ih (hmem hk) (h.liesIn hx)

end Body

/-! ## Slots at the point -/

/-- The point is in front of a slot of its block, or behind the last one. -/
structure Builder.InPlace (s : Builder) : Prop where
  block : (s.body.block? s.point.block).isSome
  split : ∃ A B, s.body.slotsOf s.point.block = A ++ B ∧ A.length = s.point.index

/-- Operations fill new slots at the point, which moves past them. They are new, as is what they guard, and they stand
in the order in which they were made. What else is new lies below them; blocks list it in that order, too. -/
structure Builder.Fills (s s' : Builder) (N : List OpId) : Prop where
  advances : s.body.Advances s'.body
  point : s'.point = ⟨s.point.block, s.point.index + N.length⟩
  slots : ∀ {A B}, s.body.slotsOf s.point.block = A ++ B → A.length = s.point.index →
    s'.body.slotsOf s.point.block = A ++ N ++ B
  others : ∀ {k}, (s.body.block? k).isSome → k ≠ s.point.block → s'.body.slotsOf k = s.body.slotsOf k
  fresh : ∀ x ∈ N, s.body.op? x = none
  lies : ∀ x ∈ N, s'.body.LiesIn x s.point.block
  sorted : N.Pairwise (·.index < ·.index)
  below : ∀ {x}, s.body.op? x = none → (s'.body.op? x).isSome → x ∈ N ∨ ∃ g ∈ N, s'.body.Encloses g x
  inside : ∀ {k}, s.body.block? k = none → (s'.body.slotsOf k).Pairwise (·.index < ·.index)

namespace Builder

variable {s s' s'' : Builder} {b : Body} {N N' : List OpId} {o : OpId} {k : BlockId}

namespace Fills

theorem inPlace (h : s.Fills s' N) (hs : s.InPlace) : s'.InPlace := by
  obtain ⟨hblk, A, B, hslots, hA⟩ := hs
  refine ⟨?_, A ++ N, B, ?_, ?_⟩
  · rw [h.point]
    exact h.advances.block hblk
  · rw [h.point]
    exact h.slots hslots hA
  · rw [h.point, List.length_append, hA]

/-- Nothing is new. -/
theorem quiet (h : s.body.Quiet b) : s.Fills ⟨b, s.point⟩ [] where
  advances := h.advances
  point := rfl
  slots hs _ := by rw [h.slotsOf, hs, List.append_nil]
  others _ _ := h.slotsOf _
  fresh := nofun
  lies := nofun
  sorted := .nil
  below hx hx' := by
    rw [h.missing hx] at hx'
    cases hx'
  inside hk := by
    rw [h.slotsOf]
    simp [slotsOf, hk]

theorem created {kind : OpKind} {vs : List ValueId} {tys : List Ty}
    (h : Created s.body s.point kind vs tys o b) : s.Fills (s.after b) [o] where
  advances := h.advances
  point := rfl
  slots {A B} hs hA := by
    have h' : Created s.body ⟨s.point.block, A.length⟩ kind vs tys o b := by rwa [hA]
    exact (h'.slotsOf hs).trans (List.append_cons A o B)
  others _ hne := h.slotsOf_other hne
  fresh x hx := by
    rw [List.mem_singleton.1 hx]
    exact h.fresh
  lies x hx := by
    rw [List.mem_singleton.1 hx]
    exact ⟨_, h.op?_self, rfl⟩
  sorted := List.pairwise_singleton _ _
  below {x} hx hx' := by
    refine .inl (List.mem_singleton.2 ?_)
    by_contra hne
    rw [show (s.after b).body = b from rfl, h.op?, if_neg hne, hx] at hx'
    cases hx'
  inside {k} hk := by
    obtain ⟨blk, hblk, -⟩ := h.place
    have hne : k ≠ s.point.block := by
      rintro rfl
      rw [hblk] at hk
      cases hk
    rw [show (s.after b).body = b from rfl, h.slotsOf_other hne]
    simp [slotsOf, hk]

theorem refl (s : Builder) : s.Fills s [] := quiet (.refl s.body)

theorem trans (hs : s.InPlace) (h : s.Fills s' N) (h' : s'.Fills s'' N') : s.Fills s'' (N ++ N') where
  advances := h.advances.trans h'.advances
  point := by rw [h'.point, h.point, List.length_append, Nat.add_assoc]
  slots {A B} hslots hA := by
    have hblock : s'.point.block = s.point.block := by rw [h.point]
    have := h'.slots (A := A ++ N) (B := B) (by rw [hblock]; exact h.slots hslots hA)
      (by rw [h.point, List.length_append, hA])
    rw [hblock] at this
    rw [this, List.append_assoc A]
  others hk hne := by
    rw [h'.others (h.advances.block hk) (by rw [h.point]; exact hne), h.others hk hne]
  fresh x hx := by
    rcases List.mem_append.1 hx with hx | hx
    · exact h.fresh x hx
    · cases hop : s.body.op? x with
      | none => rfl
      | some op =>
        have := h.advances.isSome (x := x) (by rw [hop]; rfl)
        rw [h'.fresh x hx] at this
        cases this
  lies x hx := by
    rcases List.mem_append.1 hx with hx | hx
    · exact h'.advances.liesIn (h.lies x hx)
    · have := h'.lies x hx
      rwa [h.point] at this
  sorted := by
    refine List.pairwise_append.2 ⟨h.sorted, h'.sorted, fun x hx y hy => ?_⟩
    -- the ones are in the table before the others are made
    have hx' : x.index < s'.body.ops.size := isSome_op?.1 (h.lies x hx).isSome
    have hy' : s'.body.ops.size ≤ y.index := Array.getElem?_eq_none_iff.1 (h'.fresh y hy)
    omega
  below {x} hx hx' := by
    cases hop : s'.body.op? x with
    | some op =>
      rcases h.below hx (by rw [hop]; rfl) with hx | ⟨g, hg, hx⟩
      · exact .inl (List.mem_append_left _ hx)
      · exact .inr ⟨g, List.mem_append_left _ hg, h'.advances.encloses hx⟩
    | none =>
      rcases h'.below hop hx' with hx | ⟨g, hg, hx⟩
      · exact .inl (List.mem_append_right _ hx)
      · exact .inr ⟨g, List.mem_append_right _ hg, hx⟩
  inside {k} hk := by
    cases hk' : s'.body.block? k with
    | none => exact h'.inside hk'
    | some blk =>
      rw [h'.others (by rw [hk']; rfl)]
      · exact h.inside hk
      · rw [h.point]
        rintro rfl
        have := hs.block
        rw [hk] at this
        cases this

/-- What is made inside a guard that was just made lies below it. -/
theorem enter {kind : OpKind} {vs : List ValueId} (hs : s.InPlace) (hc : Created s.body s.point kind vs [] o b)
    (hk : k ∈ kind.blocks) (h : (⟨b, ⟨k, 0⟩⟩ : Builder).Fills s' N) :
    s.Fills ⟨s'.body, (s.after b).point⟩ [o] := by
  have hnew : s.body.block? k = none := hc.block?_guards hk
  have hblk : b.block? k = some ⟨[], some o⟩ := hc.block?_new hk
  have hne : ∀ {m}, (s.body.block? m).isSome → m ≠ k := by
    rintro m hm rfl
    rw [hnew] at hm
    cases hm
  have hmade : s.Fills (s.after b) [o] := .created hc
  have hguards : k ∈ s'.body.guardedBlocks o := by
    rw [h.advances.guardedBlocks (by rw [hc.op?_self]; rfl), hc.guardedBlocks_self]
    exact hk
  refine ⟨hmade.advances.trans h.advances, rfl, fun {A B} hslots hA => ?_, fun {m} hm hmne => ?_, hmade.fresh,
    fun x hx => h.advances.liesIn (hmade.lies x hx), hmade.sorted, fun {x} hx hx' => ?_, fun {m} hm => ?_⟩
  · exact (h.others (hmade.advances.block hs.block) (hne hs.block)).trans (hmade.slots hslots hA)
  · exact (h.others (hmade.advances.block hm) (hne hm)).trans (hmade.others hm hmne)
  · by_cases hxo : x = o
    · exact .inl (List.mem_singleton.2 hxo)
    · refine .inr ⟨o, List.mem_singleton_self o, ?_⟩
      have hx₁ : b.op? x = none := by rw [hc.op?, if_neg hxo, hx]
      rcases h.below hx₁ hx' with hxN | ⟨g, hg, hxg⟩
      · exact .inside hguards (h.lies x hxN)
      · exact (Encloses.inside hguards (h.lies g hg)).trans hxg
  · by_cases hmk : m = k
    · subst hmk
      have hslots := h.slots (A := []) (B := []) (slotsOf_eq hblk) rfl
      rw [show (⟨s'.body, (s.after b).point⟩ : Builder).body.slotsOf m = N from by simpa using hslots]
      exact h.sorted
    · cases hm' : b.block? m with
      | none => exact h.inside hm'
      | some blk =>
        rw [h.others (by rw [show (⟨b, ⟨k, 0⟩⟩ : Builder).body = b from rfl, hm']; rfl) hmk]
        exact hmade.inside hm

end Fills

/-- All that happens is that operations fill new slots at the point. -/
def Spawns (s s' : Builder) : Prop := s.InPlace → ∃ N, s.Fills s' N

instance : Std.Refl Spawns := ⟨fun s _ => ⟨[], .refl s⟩⟩

instance : IsTrans Builder Spawns where
  trans _ _ _ h h' hs := by
    obtain ⟨N, hN⟩ := h hs
    obtain ⟨N', hN'⟩ := h' (hN.inPlace hs)
    exact ⟨N ++ N', hN.trans hs hN'⟩

theorem Spawns.quiet (h : s.body.Quiet b) : s.Spawns ⟨b, s.point⟩ := fun _ => ⟨[], .quiet h⟩

theorem Spawns.created {kind : OpKind} {vs : List ValueId} {tys : List Ty}
    (h : Created s.body s.point kind vs tys o b) : s.Spawns (s.after b) := fun _ => ⟨[o], .created h⟩

theorem Spawns.enter {kind : OpKind} {vs : List ValueId} (hc : Created s.body s.point kind vs [] o b)
    (hk : k ∈ kind.blocks) (h : (⟨b, ⟨k, 0⟩⟩ : Builder).Spawns s') : s.Spawns ⟨s'.body, (s.after b).point⟩ := by
  intro hs
  have hblk : b.block? k = some ⟨[], some o⟩ := hc.block?_new hk
  obtain ⟨N, hN⟩ := h ⟨by rw [show (⟨b, ⟨k, 0⟩⟩ : Builder).body = b from rfl, hblk]; rfl, [], [], slotsOf_eq hblk, rfl⟩
  exact ⟨[o], .enter hs hc hk hN⟩

end Builder

/-- All that happens to the body is that operations fill new slots at the point. -/
def LowerState.Spawns (t t' : LowerState) : Prop := t.builder.Spawns t'.builder

instance : Std.Refl LowerState.Spawns := ⟨fun t => refl_of Builder.Spawns t.builder⟩

instance : IsTrans LowerState LowerState.Spawns := ⟨fun _ _ _ h h' => trans_of Builder.Spawns h h'⟩

/-! ## Computations along a relation -/

/-- Every state in which the computation ends is related to the one in which it started. -/
def Along {σ α : Type} (R : σ → σ → Prop) (m : StateT σ (Except Failure) α) : Prop :=
  ∀ s, Runs False m s fun _ s' => R s s'

namespace Along

variable {σ α β : Type} {R : σ → σ → Prop} [Std.Refl R] [IsTrans σ R]

omit [IsTrans σ R] in
theorem pure (a : α) : Along R (Pure.pure a) := fun s => .pure (refl_of R s)

omit [Std.Refl R] [IsTrans σ R] in
theorem throw (e : Failure) : Along R (throw e : StateT σ (Except Failure) α) := fun _ => .throw id

omit [IsTrans σ R] in
theorem lift (x : Except Failure α) : Along R (liftM x : StateT σ (Except Failure) α) := fun s =>
  .lift (.intro (fun _ _ => refl_of R s) nofun)

omit [Std.Refl R] in
theorem bind {m : StateT σ (Except Failure) α} {f : α → StateT σ (Except Failure) β} (h : Along R m)
    (hf : ∀ a, Along R (f a)) : Along R (m >>= f) := fun s =>
  (h s).bind fun a s' h' => (hf a s').mono fun _ _ h'' => trans_of R h' h''

theorem mapM {f : α → StateT σ (Except Failure) β} (l : List α) (hf : ∀ a, Along R (f a)) : Along R (l.mapM f) :=
  fun s => Runs.mapM (fun _ _ s' => R s s') l (refl_of R s) fun _ a _ _ s' _ h =>
    (hf a s').mono fun _ _ h' => trans_of R h h'

theorem forM {f : α → StateT σ (Except Failure) PUnit} (l : List α) (hf : ∀ a, Along R (f a)) : Along R (l.forM f) :=
  fun s => Runs.forM (fun _ s' => R s s') l (refl_of R s) fun _ a _ s' _ h =>
    (hf a s').mono fun _ _ h' => trans_of R h h'

theorem foldlM {f : β → α → StateT σ (Except Failure) β} (l : List α) (b : β) (hf : ∀ b a, Along R (f b a)) :
    Along R (l.foldlM f b) :=
  fun s => Runs.foldlM (fun _ _ s' => R s s') l (refl_of R s) fun _ a _ b s' _ h =>
    (hf b a s').mono fun _ _ h' => trans_of R h h'

end Along

/-! ## Building -/

/-- Builders are related to what they become when an operation is made. -/
class Builder.Admits (R : Builder → Builder → Prop) : Prop extends Std.Refl R, IsTrans Builder R where
  created : ∀ {s : Builder} {kind : OpKind} {vs : List ValueId} {tys : List Ty} {o : OpId} {b : Body},
    Created s.body s.point kind vs tys o b → R s (s.after b)

instance : Builder.Admits Builder.Spawns where
  created := .created

/-- Making operations takes nothing back. -/
instance : Builder.Admits fun s s' => s.body.Extends s'.body where
  refl _ := .refl _
  trans _ _ _ := .trans
  created := Created.extended

namespace Build

open Builder

variable {α : Type} {R : Builder → Builder → Prop} [Admits R]

theorem read_along (f : Body → Except Failure α) : Along R (read f) := fun s =>
  .read (.intro (fun _ _ => refl_of R s) nofun)

theorem create_along {kind : OpKind} (hk : kind.blocks = []) (vs : List ValueId) (tys : List Ty) :
    Along R (create kind vs tys) := fun _ =>
  (create_any hk vs tys).mono fun _ _ ⟨_, hc, hs'⟩ => hs' ▸ Admits.created hc

theorem createValue_along {kind : OpKind} (hk : kind.blocks = []) (vs : List ValueId) (ty : Ty) :
    Along R (createValue kind vs ty) :=
  (create_along hk vs [ty]).bind fun _ => read_along _

theorem part_along (input : ValueId) (i : Nat) : Along R (part input i) := fun _ =>
  (part_any input i).mono fun _ _ ⟨_, _, _, _, _, _, _, _, hc, hs', _⟩ => hs' ▸ Admits.created hc

theorem subfield_along (input : ValueId) (i : Nat) : Along R (subfield input i) := fun _ =>
  (subfield_any input i).mono fun _ _ ⟨_, _, _, _, _, _, _, _, hc, hs', _⟩ => hs' ▸ Admits.created hc

theorem subindex_along (input : ValueId) (i : Nat) : Along R (subindex input i) := fun _ =>
  (subindex_any input i).mono fun _ _ ⟨_, _, _, _, _, _, _, _, hc, hs', _⟩ => hs' ▸ Admits.created hc

theorem subaccess_along (input index : ValueId) : Along R (subaccess input index) := fun _ =>
  (subaccess_any input index).mono fun _ _ ⟨_, _, _, _, _, hc, hs', _⟩ => hs' ▸ Admits.created hc

theorem mux_along (sel high low : ValueId) : Along R (mux sel high low) :=
  (read_along _).bind fun _ => createValue_along rfl _ _

theorem multiMux_along (index : ValueId) (inputs : List ValueId) : Along R (multiMux index inputs) := by
  cases inputs with
  | nil => exact .throw _
  | cons first rest => exact (read_along _).bind fun _ => createValue_along rfl _ _

theorem prim_along (p : Prim) (vs : List ValueId) (ty : Ty) : Along R (prim p vs ty) :=
  createValue_along rfl _ _

theorem knownWidth_along (v : ValueId) : Along R (knownWidth v) := by
  refine (read_along _).bind fun t => ?_
  split
  · exact .throw _
  · split
    · exact .pure _
    · exact .throw _

theorem cat_along (high low : ValueId) : Along R (cat high low) := by
  refine (knownWidth_along high).bind fun _ => (knownWidth_along low).bind fun _ => ?_
  dsimp only
  split
  · exact prim_along _ _ _
  · exact .throw _

theorem bits_along (input : ValueId) (hi lo : Nat) : Along R (bits input hi lo) := by
  unfold bits
  split
  · exact .throw _
  · exact prim_along _ _ _

theorem connect_along (strict : Bool) (dest src : ValueId) : Along R (connect strict dest src) :=
  create_along rfl _ _

end Build

end Scalarize
