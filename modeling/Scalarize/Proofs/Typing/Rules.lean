import Scalarize.Proofs.Edits

/-!
# Well-typed bodies

* `OpKind.Fits`, `Body.WellTyped` : the rule that the types of operands and results keep;
* `Body.RefitsBut`, `Body.Refits` : values keep their types and operations the types of their operands, and
  new operations keep the rule;
* `RefitsBut.created`, `RefitsBut.declared`, `RefitsBut.replaced`, `RefitsBut.dropped` : edits that do this.
-/

namespace Scalarize

open Body

/-- How the types of the operands and results of an operation of a kind go together. -/
def OpKind.Fits : OpKind → List Ty → List Ty → Prop
  | subfield i, ins, outs | subindex i, ins, outs => ∃ t c, ins = [t] ∧ t.child? i = some c ∧ outs = [c]
  | subaccess, ins, outs => ∃ e n x, ins = [.vector e n, x] ∧ outs = [e]
  | node _, ins, outs => ∃ t, ins = [t] ∧ outs = [t]
  | mux, ins, outs => ∃ s t, ins = [s, t, t] ∧ outs = [t]
  | multiMux, ins, outs => ∃ x rest t, ins = x :: rest ∧ (∀ u ∈ rest, u = t) ∧ outs = [t]
  | regReset _, ins, outs => ∃ c r t, ins = [c, r, t] ∧ outs = [t]
  | connect _, ins, _ => ∃ t, ins = [t, t]
  | mem m, _, outs => outs = m.portTypes
  | bitcast, ins, outs => ∃ a t w, ins = [a] ∧ outs = [t] ∧ a.width = some w ∧ t.width = some w ∧
    w < UInt32.size
  | _, _, _ => True

theorem OpKind.fits_iff_of_bare_eq {k k' : OpKind} {ins outs : List Ty} (h : k.bare = k'.bare) :
    k.Fits ins outs ↔ k'.Fits ins outs := by
  have hb : ∀ k : OpKind, k.bare.Fits ins outs ↔ k.Fits ins outs := fun k => by cases k <;> rfl
  rw [← hb k, h, hb]

namespace Body

/-- A value has the type that stands in its place. -/
theorem Types.getElem?_eq {b : Body} {vs : List ValueId} {ts : List Ty} (h : b.Types vs ts) {i : Nat} {v : ValueId}
    {t : Ty} (hv : vs[i]? = some v) (ht : ts[i]? = some t) : b.ty? v = some t := by
  obtain ⟨t', ht', hv'⟩ := h.getElem? hv
  rw [hv', ← ht', ht]

/-- The operation keeps the rule. -/
def Fitted (b : Body) (op : Operation) : Prop :=
  ∃ ins outs, b.Types op.operands ins ∧ b.Types op.results outs ∧ op.kind.Fits ins outs

/-- Every operation that stands, but for those with `W`, keeps the rule. -/
def TypedBut (W : OpId → Prop) (b : Body) : Prop :=
  ∀ {x op}, b.op? x = some op → op.erased = false → ¬W x → b.Fitted op

/-- Every operation that stands keeps the rule. -/
def WellTyped (b : Body) : Prop := b.Typed OpKind.Fits

/-- The result of an accessor has the type of the part that it reaches. -/
theorem Fitted.ty?_part {b : Body} {op : Operation} (h : b.Fitted op) {v r : ValueId} {t : Ty} {i : Nat}
    (hi : op.kind.fixedIndex? = some i) (hv : v ∈ op.operands) (ht : b.ty? v = some t)
    (hr : op.results[0]? = some r) : b.ty? r = t.child? i := by
  obtain ⟨ins, outs, hins, houts, hfits⟩ := h
  have hchild : ∃ t c, ins = [t] ∧ t.child? i = some c ∧ outs = [c] := by
    cases hk : op.kind <;> rw [hk] at hi hfits <;> cases hi <;> exact hfits
  obtain ⟨t', c, rfl, hc, rfl⟩ := hchild
  obtain ⟨w, hw, hops⟩ := hins.singleton
  obtain ⟨r', hr', hres⟩ := houts.singleton
  rw [hops, List.mem_singleton] at hv
  rw [hres] at hr
  obtain rfl : r' = r := Option.some.inj hr
  subst hv
  rw [Option.some.inj (ht.symm.trans hw), hc, hr']

variable {W : OpId → Prop} {b b' b'' : Body} {o x : OpId} {v w : ValueId} {p : Point} {kind : OpKind}
  {vs : List ValueId} {tys : List Ty}

/-- Nothing of `b` is lost in `b'`: values keep their types, operations that still stand read values of the
types that they read, and new ones keep the rule. Operations with `W` may lose their operands. -/
structure RefitsBut (W : OpId → Prop) (b b' : Body) : Prop where
  coherent : b'.Coherent
  ty? : ∀ {v t}, b.ty? v = some t → b'.ty? v = some t
  op? : ∀ {x op}, b.op? x = some op → ∃ op', b'.op? x = some op' ∧ op'.kind.bare = op.kind.bare ∧
    op'.results = op.results ∧ (op.erased → op'.erased) ∧
    (op'.erased = false → ¬W x → ∀ {ts}, b.Types op.operands ts → b'.Types op'.operands ts)
  new : ∀ {x op}, b.op? x = none → b'.op? x = some op → op.erased = false → ¬W x → b'.Fitted op

/-- The same of all operations. -/
abbrev Refits (b b' : Body) : Prop := RefitsBut (fun _ => False) b b'

namespace RefitsBut

theorem refl (hb : b.Coherent) (W : OpId → Prop) : RefitsBut W b b where
  coherent := hb
  ty? := id
  op? hop := ⟨_, hop, rfl, rfl, id, fun _ _ {_} => id⟩
  new hx hop := by rw [hx] at hop; cases hop

theorem types (h : RefitsBut W b b') {ts : List Ty} (hv : b.Types vs ts) : b'.Types vs ts :=
  hv.imp fun _ _ => h.ty?

theorem bare_eq (h : RefitsBut W b b') {op op' : Operation} (hop : b.op? x = some op)
    (hop' : b'.op? x = some op') : op'.kind.bare = op.kind.bare := by
  obtain ⟨op₁, hop₁, hk, -⟩ := h.op? hop
  rw [Option.some.inj (hop'.symm.trans hop₁), hk]

/-- What kept the rule keeps it. -/
theorem fitted (h : RefitsBut W b b') {op op' : Operation} (hop : b.op? x = some op)
    (hop' : b'.op? x = some op') (he : op'.erased = false) (hW : ¬W x) (hf : b.Fitted op) :
    b'.Fitted op' := by
  obtain ⟨op₁, hop₁, hk, hr, -, hins⟩ := h.op? hop
  obtain rfl := Option.some.inj (hop'.symm.trans hop₁)
  obtain ⟨ins, outs, hi, ho, hfits⟩ := hf
  exact ⟨ins, outs, hins he hW hi, hr ▸ h.types ho, (OpKind.fits_iff_of_bare_eq hk).2 hfits⟩

theorem typedBut (h : RefitsBut W b b') (hb : b.TypedBut W) : b'.TypedBut W := by
  intro x op' hop' he hW
  cases hop : b.op? x with
  | none => exact h.new hop hop' he hW
  | some op =>
    obtain ⟨op₁, hop₁, -, -, her, -⟩ := h.op? hop
    obtain rfl := Option.some.inj (hop'.symm.trans hop₁)
    refine h.fitted hop hop' he hW (hb hop ?_ hW)
    cases heo : op.erased with
    | false => rfl
    | true => rw [her heo] at he; cases he

theorem trans (h : RefitsBut W b b') (h' : RefitsBut W b' b'') : RefitsBut W b b'' where
  coherent := h'.coherent
  ty? hv := h'.ty? (h.ty? hv)
  op? hop := by
    obtain ⟨op₁, hop₁, hk, hr, he, hins⟩ := h.op? hop
    obtain ⟨op₂, hop₂, hk', hr', he', hins'⟩ := h'.op? hop₁
    refine ⟨op₂, hop₂, hk'.trans hk, hr'.trans hr, fun h => he' (he h), fun hs hW {ts} hts => ?_⟩
    refine hins' hs hW (hins ?_ hW hts)
    cases heo : op₁.erased with
    | false => rfl
    | true => rw [he' heo] at hs; cases hs
  new {x op} hx hop hs hW := by
    cases hop₁ : b'.op? x with
    | none => exact h'.new hop₁ hop hs hW
    | some op₁ =>
      obtain ⟨op₂, hop₂, -, -, he, -⟩ := h'.op? hop₁
      obtain rfl := Option.some.inj (hop.symm.trans hop₂)
      refine h'.fitted hop₁ hop hs hW (h.new hx hop₁ ?_ hW)
      cases heo : op₁.erased with
      | false => rfl
      | true => rw [he heo] at hs; cases hs

theorem wellTyped (h : Refits b b') (hb : b.WellTyped) : b'.WellTyped :=
  fun hop he => h.typedBut (fun hop he _ => hb hop he) hop he id

/-- The operations with `W` are erased in the end. -/
theorem settle (h : RefitsBut W b b') (hW : ∀ x op, W x → b'.op? x = some op → op.erased) :
    RefitsBut (fun _ => False) b b' where
  coherent := h.coherent
  ty? := h.ty?
  op? {x op} hop := by
    obtain ⟨op', hop', hk, hr, he, hins⟩ := h.op? hop
    refine ⟨op', hop', hk, hr, he, fun hs _ => hins hs fun hWx => ?_⟩
    rw [hW x op' hWx hop'] at hs
    cases hs
  new {x op} hx hop hs _ := h.new hx hop hs fun hWx => by
    rw [hW x op hWx hop] at hs
    cases hs

theorem mono (h : RefitsBut W b b') {W' : OpId → Prop} (hW : ∀ x, W x → W' x) : RefitsBut W' b b' where
  coherent := h.coherent
  ty? := h.ty?
  op? hop := by
    obtain ⟨op', hop', hk, hr, he, hins⟩ := h.op? hop
    exact ⟨op', hop', hk, hr, he, fun hs hW' => hins hs fun hWx => hW' (hW _ hWx)⟩
  new hx hop hs hW' := h.new hx hop hs fun hWx => hW' (hW _ hWx)

/-! ## Edits -/

/-- A new operation keeps the rule. -/
theorem created (hb : b.Coherent) (hc : Created b p kind vs tys x b')
    (hf : ∀ {ins}, b.Types vs ins → kind.Fits ins tys) (W : OpId → Prop) : RefitsBut W b b' where
  coherent := hb.created hc
  ty? := hc.extended.ty?_some
  op? hop := ⟨_, hc.toJoined.op?_old hop, rfl, rfl, id, fun _ _ {_} hts => hc.extended.types hts⟩
  new {y op} hy hop _ _ := by
    rcases hc.toJoined.op?_cases hop with hop | ⟨rfl, rfl⟩
    · rw [hy] at hop
      cases hop
    · obtain ⟨ins, hins⟩ : ∃ ins, b.Types vs ins := by
        refine ⟨vs.map fun v => (b.ty? v).getD default, List.forall₂_map_right_iff.2 ?_⟩
        refine List.forall₂_same.2 fun v hv => ?_
        obtain ⟨t, ht⟩ := Option.isSome_iff_exists.1 (isSome_ty?.2 (hc.operands_lt v hv))
        rw [ht]
        rfl
      exact ⟨ins, tys, hc.extended.types hins, hc.types_results, hf hins⟩

theorem declared (hb : b.Coherent) (x : OpId) (f : Decl → Decl) (W : OpId → Prop) :
    RefitsBut W b (b.modifyDecl x f) where
  coherent := hb.modifyDecl x f
  ty? := id
  op? hop := by
    obtain ⟨kind, hop', hk⟩ := op?_modifyDecl_some hop
    exact ⟨_, hop', hk, rfl, id, fun _ _ {_} => id⟩
  new hx hop := by
    obtain ⟨kind, hop', -⟩ := op?_of_modifyDecl hop
    rw [hx] at hop'
    cases hop'

/-- A value gives way to one of its type. -/
theorem replaced (hb : b.Coherent) (hr : Replaced b v w b') (hne : v ≠ w) {t : Ty} (hv : b.ty? v = some t)
    (hw : b.ty? w = some t) (W : OpId → Prop) : RefitsBut W b b' where
  coherent := hb.replaced hr (isSome_value?.2 (isSome_ty?.1 (by rw [hv]; rfl)))
    (isSome_value?.2 (isSome_ty?.1 (by rw [hw]; rfl))) hne
  ty? hu := by rw [hr.outlives.ty?, hu]
  op? hop := by
    refine ⟨_, hr.op?_some hop, rfl, rfl, id, fun _ _ {ts} hts => ?_⟩
    refine List.forall₂_map_left_iff.2 (hts.imp fun u t' hu => ?_)
    rw [hr.outlives.ty?]
    split
    next huv =>
      rw [huv, hv] at hu
      rw [hw, hu]
    next => exact hu
  new hx hop := by
    rw [hr.op?, hx] at hop
    cases hop

/-- Operands are taken from an operation that is erased, or that has `W`. -/
theorem dropped (hb : b.Coherent) {f : Bool → Bool} (hf : f true = true) (hd : Dropped b x f b')
    (hx : ¬W x → f false = true) : RefitsBut W b b' where
  coherent := hb.dropped hf hd
  ty? hu := by rw [(hd.outlives hf).ty?, hu]
  op? {y op} hop := by
    refine ⟨_, by rw [hd.op?, hop, Option.map_some], ?_⟩
    split
    next hyx =>
      refine ⟨rfl, rfl, fun he => by dsimp only; rw [he, hf], fun he hW => ?_⟩
      dsimp only at he
      cases heo : op.erased <;> simp [heo, hf, hx (hyx ▸ hW)] at he
    next => exact ⟨rfl, rfl, id, fun _ _ {ts} hts => hts.imp fun u t hu => by rw [(hd.outlives hf).ty?, hu]⟩
  new hx' hop := by
    rw [hd.op?, hx'] at hop
    cases hop

end RefitsBut

end Body

end Scalarize
