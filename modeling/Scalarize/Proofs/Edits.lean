import Scalarize.Lower.Block
import Scalarize.Proofs.Body.Growth
import Scalarize.Proofs.Body.Rewiring

/-!
# Properties that building keeps

What holds of every body, however its operations are typed, is shown without the typing of operations.

* `OpKind.Plain` : kinds of operations that carry no symbol, no annotation and no port;
* `Builder.Made`, `Builder.MadePart` : what the building functions leave behind;
* `Builder.Keeps` : a property of builders that every new plain operation keeps, and with it every
  building function but the one for guards; new operations read values that can be read there;
* `Body.Rewires` : a property of bodies that is kept when readers are handed over.
-/

namespace Scalarize

open Body

/-- Operations of the kind carry no symbol, no annotation and no port, and guard nothing. -/
def OpKind.Plain : OpKind → Prop
  | mem _ | inst _ | .when _ _ => False
  | wire d | reg d | regReset d | node d => d.sym = none ∧ d.annotations = []
  | _ => True

theorem OpKind.Plain.blocks {kind : OpKind} (h : kind.Plain) : kind.blocks = [] := by
  cases kind <;> first | rfl | exact h.elim

theorem OpKind.plain_of_fixedIndex? {kind : OpKind} {i : Nat} (h : kind.fixedIndex? = some i) :
    kind.Plain := by
  cases kind <;> trivial

/-! ## Computations that may fail -/

namespace Runs

variable {α β σ : Type} {t : LowerState} {s : Builder}

/-- What is read from the body, if anything. -/
theorem bind_any {f : Body → Except Failure α} {g : α → Lower β} {Q : β → LowerState → Prop}
    (h : ∀ a, f t.builder.body = .ok a → Runs False (g a) t Q) :
    Runs False (Lower.body f >>= g) t Q :=
  .bind_body (.intro (fun _ ha => ha) nofun) h

/-- The same while building. -/
theorem bind_anyBuild {f : Body → Except Failure α} {g : α → Build β} {Q : β → Builder → Prop}
    (h : ∀ a, f s.body = .ok a → Runs False (g a) s Q) : Runs False (Build.read f >>= g) s Q :=
  .bind_read (.intro (fun _ ha => ha) nofun) h

end Runs

/-! ## What is made -/

/-- The builder after an operation was made at its insertion point, with the body `b`. -/
def Builder.after (s : Builder) (b : Body) : Builder := ⟨b, ⟨s.point.block, s.point.index + 1⟩⟩

/-- An operation of the kind was made, with the one result `v`. -/
def Builder.Made (s : Builder) (kind : OpKind) (vs : List ValueId) (ty : Ty) (v : ValueId)
    (s' : Builder) : Prop :=
  ∃ o b, Created s.body s.point kind vs [ty] o b ∧ s' = s.after b ∧ v = ⟨s.body.values.size⟩

namespace Builder.Made

variable {s s' : Builder} {kind : OpKind} {vs : List ValueId} {ty : Ty} {v w : ValueId}

theorem ty? (h : s.Made kind vs ty v s') : s'.body.ty? v = some ty := by
  obtain ⟨o, b, hc, rfl, rfl⟩ := h
  exact hc.ty?_new 0

theorem ty?_old (h : s.Made kind vs ty v s') {t : Ty} (hw : s.body.ty? w = some t) :
    s'.body.ty? w = some t := by
  obtain ⟨o, b, hc, rfl, rfl⟩ := h
  exact hc.extended.ty?_some hw

end Builder.Made

namespace Build

variable {s : Builder}

/-- An operation is made. -/
theorem create_any {kind : OpKind} (hk : kind.blocks = []) (vs : List ValueId) (tys : List Ty) :
    Runs False (create kind vs tys) s fun o s' =>
      ∃ b, Created s.body s.point kind vs tys o b ∧ s' = s.after b := by
  obtain ⟨body, point⟩ := s
  exact Ends.bind (insertOp_ends (nofun : False → _)) fun r hr => .pure ⟨r.2, hr.created hk, rfl⟩

/-- The one result of an operation that was just made. -/
theorem result_any {kind : OpKind} {vs : List ValueId} {ty : Ty} {make : Build OpId}
    (h : Runs False make s fun o s' => ∃ b, Created s.body s.point kind vs [ty] o b ∧ s' = s.after b) :
    Runs False (do let o ← make; read (·.result o 0)) s (s.Made kind vs ty) := by
  refine h.bind ?_
  rintro o s' ⟨b, hc, rfl⟩
  refine .read (result_ends (fun op v hop hv => ⟨o, b, hc, rfl, ?_⟩) nofun)
  obtain rfl := Option.some.inj (hc.op?_self.symm.trans hop)
  simpa using hv.symm

theorem createValue_any {kind : OpKind} (hk : kind.blocks = []) (vs : List ValueId) (ty : Ty) :
    Runs False (createValue kind vs ty) s (s.Made kind vs ty) :=
  result_any (create_any hk vs [ty])

theorem typeOf_any {α : Type} {v : ValueId} {f : Ty → Build α} {Q : α → Builder → Prop}
    (h : ∀ t, s.body.ty? v = some t → Runs False (f t) s Q) : Runs False (typeOf v >>= f) s Q :=
  Grows.bind_typeOf nofun h

end Build

/-- An accessor was made that reaches part `i` of a value. -/
def Builder.MadePart (s : Builder) (input : ValueId) (i : Nat) (v : ValueId) (s' : Builder) : Prop :=
  ∃ kind t c, kind.fixedIndex? = some i ∧ s.body.ty? input = some t ∧ t.child? i = some c ∧
    s.Made kind [input] c v s'

namespace Build

variable {s : Builder}

theorem subfield_any (input : ValueId) (i : Nat) :
    Runs False (subfield input i) s (s.MadePart input i) := by
  refine typeOf_any fun t ht => ?_
  split
  next fs =>
    split
    next f hf =>
      exact (createValue_any rfl _ _).mono fun v s' h =>
        ⟨.subfield i, _, f.ty, rfl, ht, by simp [Ty.child?, hf], h⟩
    next => exact .throw id
  next => exact .throw id

theorem subindex_any (input : ValueId) (i : Nat) :
    Runs False (subindex input i) s (s.MadePart input i) := by
  refine typeOf_any fun t ht => ?_
  split
  next e n =>
    split
    next hi =>
      exact (createValue_any rfl _ _).mono fun v s' h =>
        ⟨.subindex i, _, e, rfl, ht, by simp [Ty.child?, hi], h⟩
    next => exact .throw id
  next => exact .throw id

theorem part_any (input : ValueId) (i : Nat) : Runs False (part input i) s (s.MadePart input i) := by
  refine typeOf_any fun t _ => ?_
  split
  · exact subfield_any input i
  · exact subindex_any input i
  · exact .throw id

theorem subaccess_any (input index : ValueId) : Runs False (subaccess input index) s fun v s' =>
    ∃ e n, s.body.ty? input = some (.vector e n) ∧ s.Made .subaccess [input, index] e v s' := by
  refine typeOf_any fun t ht => ?_
  split
  · exact (createValue_any rfl _ _).mono fun v s' h => ⟨_, _, ht, h⟩
  · exact .throw id

theorem multiMux_any (index : ValueId) (inputs : List ValueId) :
    Runs False (multiMux index inputs) s fun v s' => ∃ first ty, inputs[0]? = some first ∧
      s.body.ty? first = some ty ∧ s.Made .multiMux (index :: inputs) ty v s' := by
  cases inputs with
  | nil => exact .throw id
  | cons first rest =>
    exact typeOf_any fun t ht => (createValue_any rfl _ _).mono fun v s' h => ⟨first, t, rfl, ht, h⟩

theorem mux_any (sel high low : ValueId) : Runs False (mux sel high low) s fun v s' =>
    ∃ ty, s.body.ty? high = some ty ∧ s.Made .mux [sel, high, low] ty v s' :=
  typeOf_any fun _ ht => (createValue_any rfl _ _).mono fun _ _ h => ⟨_, ht, h⟩

theorem prim_any {p : Prim} {vs : List ValueId} {ty : Ty} :
    Runs False (prim p vs ty) s (s.Made (.prim p) vs ty) := createValue_any rfl _ _

theorem knownWidth_any {α : Type} {v : ValueId} {f : Nat → Build α} {Q : α → Builder → Prop}
    (h : ∀ w, Runs False (f w) s Q) : Runs False (knownWidth v >>= f) s Q :=
  Grows.bind_knownWidth nofun fun _ w _ _ _ => h w

theorem cat_any (high low : ValueId) : Runs False (cat high low) s fun v s' =>
    ∃ p w, s.Made (.prim p) [high, low] (.uint w) v s' := by
  refine knownWidth_any fun _ => knownWidth_any fun _ => ?_
  dsimp only
  split
  · exact prim_any.mono fun _ _ h => ⟨_, _, h⟩
  · exact .throw id

theorem bits_any (input : ValueId) (hi lo : Nat) : Runs False (bits input hi lo) s fun v s' =>
    ∃ p w, s.Made (.prim p) [input] (.uint w) v s' := by
  unfold bits
  split
  · exact .throw id
  · exact prim_any.mono fun _ _ h => ⟨_, _, h⟩

end Build

/-! ## What building keeps -/

/-- Every new plain operation keeps the property `I`. It may read the values with `U`; they can still be
read afterwards, and so can its results. -/
structure Builder.Keeps (I : Builder → Prop) (U : Builder → ValueId → Prop) : Prop where
  coherent : ∀ {s}, I s → s.body.Coherent
  create : ∀ {s kind vs tys o b}, I s → kind.Plain → (∀ v ∈ vs, U s v) →
    Created s.body s.point kind vs tys o b → I (s.after b)
  see : ∀ {s kind vs tys o b}, I s → Created s.body s.point kind vs tys o b →
    (∀ v, U s v → U (s.after b) v) ∧ ∀ v i, b.origin? v = some (.result o i) → U (s.after b) v

/-- The property holds, and what could be read still can. -/
structure Builder.Kept (I : Builder → Prop) (U : Builder → ValueId → Prop) (s s' : Builder) : Prop where
  holds : I s'
  see : ∀ {w}, U s w → U s' w

/-- The value can be read as well. -/
structure Builder.Yields (I : Builder → Prop) (U : Builder → ValueId → Prop) (s : Builder) (v : ValueId)
    (s' : Builder) : Prop extends Builder.Kept I U s s' where
  value : U s' v

namespace Builder

variable {I : Builder → Prop} {U : Builder → ValueId → Prop} {s s' s'' : Builder} {v w : ValueId}

theorem Kept.refl (h : I s) : Kept I U s s := ⟨h, id⟩

theorem Kept.trans (h : Kept I U s s') (h' : Kept I U s' s'') : Kept I U s s'' :=
  ⟨h'.holds, fun hw => h'.see (h.see hw)⟩

theorem Kept.yields (h : Kept I U s s') (h' : Yields I U s' v s'') : Yields I U s v s'' :=
  ⟨h.trans h'.toKept, h'.value⟩

namespace Keeps

theorem created (hI : Keeps I U) (h : I s) {kind : OpKind} {vs : List ValueId} {tys : List Ty} {o : OpId}
    {b : Body} (hk : kind.Plain) (hv : ∀ v ∈ vs, U s v) (hc : Created s.body s.point kind vs tys o b) :
    Kept I U s (s.after b) := ⟨hI.create h hk hv hc, fun {_} hw => (hI.see h hc).1 _ hw⟩

theorem made (hI : Keeps I U) (h : I s) {kind : OpKind} {vs : List ValueId} {ty : Ty}
    (hk : kind.Plain) (hv : ∀ v ∈ vs, U s v) (hm : s.Made kind vs ty v s') : Yields I U s v s' := by
  obtain ⟨o, b, hc, rfl, rfl⟩ := hm
  exact ⟨hI.created h hk hv hc, (hI.see h hc).2 _ 0 (hc.origin?_new 0)⟩

theorem madePart (hI : Keeps I U) (h : I s) {input : ValueId} {i : Nat} (hv : U s input)
    (hm : s.MadePart input i v s') : Yields I U s v s' := by
  obtain ⟨kind, t, c, hk, -, -, hm⟩ := hm
  exact hI.made h (OpKind.plain_of_fixedIndex? hk) (by simpa using hv) hm

theorem part_runs (hI : Keeps I U) (h : I s) {input : ValueId} (hv : U s input) (i : Nat) :
    Runs False (Build.part input i) s (Yields I U s) :=
  (Build.part_any input i).mono fun _ _ hm => hI.madePart h hv hm

theorem connect_runs (hI : Keeps I U) (h : I s) (strict : Bool) {dest src : ValueId} (hd : U s dest)
    (hs : U s src) : Runs False (Build.connect strict dest src) s fun _ s' => Kept I U s s' :=
  (Build.create_any rfl _ _).mono fun _ _ ⟨_, hc, hs'⟩ => hs' ▸ hI.created h (by trivial)
    (by simpa using ⟨hd, hs⟩) hc

/-! ### Casts -/

theorem castTo_runs (hI : Keeps I U) (h : I s) (ty : Ty) (hv : U s v) :
    Runs False (Lower.castTo ty v) s (Yields I U s) := by
  refine Build.typeOf_any fun t _ => ?_
  split
  · exact .pure ⟨.refl h, hv⟩
  · exact (Build.createValue_any rfl _ _).mono fun _ _ hm => hI.made h (by trivial) (by simpa using hv) hm

theorem appendPart_runs (hI : Keeps I U) (h : I s) {input : ValueId} (hin : U s input)
    {flat : Option ValueId} (hflat : ∀ v, flat = some v → U s v) (p : Part) :
    Runs False (Lower.appendPart input flat p) s fun r s' => Kept I U s s' ∧ ∀ v, r = some v → U s' v := by
  refine .bind_exceptBuild (P := fun _ => True) (.intro (fun _ _ => trivial) nofun) fun width _ => ?_
  split
  · exact .pure ⟨.refl h, hflat⟩
  refine (hI.part_runs h hin p.index).bind fun v s₁ h₁ => ?_
  refine (hI.castTo_runs h₁.holds _ h₁.value).bind fun leaf s₂ h₂ => ?_
  have h₂ := h₁.yields h₂
  split
  · exact .pure ⟨h₂.toKept, fun v hv => Option.some.inj hv ▸ h₂.value⟩
  next low =>
    refine (Build.cat_any leaf low).bind ?_
    rintro w s₃ ⟨p, ty, hm⟩
    have h₃ := hI.made h₂.holds (by trivial) (by simpa using ⟨h₂.value, h₂.see (hflat low rfl)⟩) hm
    exact .pure ⟨(h₂.yields h₃).toKept, fun v hv => Option.some.inj hv ▸ h₃.value⟩

theorem flatten_runs (hI : Keeps I U) (h : I s) {input : ValueId} (hin : U s input) :
    Runs False (Lower.flatten input) s (Yields I U s) := by
  refine Build.typeOf_any fun t _ => ?_
  refine .bind_exceptBuild (P := fun _ => True) (.intro (fun _ _ => trivial) nofun) fun parts? _ => ?_
  split
  next parts =>
    refine (Runs.foldlM (fun _ (flat : Option ValueId) s' => Kept I U s s' ∧ ∀ v, flat = some v → U s' v)
      parts ⟨.refl h, fun _ he => by cases he⟩ fun _ p _ flat s' _ h' => ?_).bind fun flat s' h' => ?_
    · exact (hI.appendPart_runs h'.1.holds (h'.1.see hin) h'.2 p).mono fun _ _ h'' =>
        ⟨h'.1.trans h''.1, h''.2⟩
    · split
      next v => exact .pure ⟨h'.1, h'.2 v rfl⟩
      next =>
        exact (Build.createValue_any rfl _ _).mono fun _ _ hm =>
          h'.1.yields (hI.made h'.1.holds (by trivial) (by simp) hm)
  next =>
    split
    · exact .pure ⟨.refl h, hin⟩
    · exact Build.knownWidth_any fun _ => Build.prim_any.mono fun _ _ hm =>
        hI.made h (by trivial) (by simpa using hin) hm

end Keeps

end Builder

/-! ## What rewiring keeps -/

theorem OpKind.isAccessor_of_fixedIndex? {kind : OpKind} {i : Nat} (h : kind.fixedIndex? = some i) :
    kind.isAccessor = true := by
  cases kind <;> first | rfl | cases h

theorem OpKind.blocks_of_isAccessor {kind : OpKind} (h : kind.isAccessor = true) : kind.blocks = [] := by
  cases kind <;> first | rfl | cases h

/-- One value is read in place of another, unless they are the same. -/
theorem Body.replaceAllUses_any {b : Body} (h : b.Exact) {v w : ValueId} :
    Ends False (b.replaceAllUses v w) fun b' => b' = b ∨
      v ≠ w ∧ (b.value? v).isSome ∧ (b.value? w).isSome ∧ Replaced b v w b' := by
  by_cases hne : v = w
  · unfold replaceAllUses
    rw [if_pos hne]
    exact .pure (.inl rfl)
  refine (h.replaceAllUses_ends hne (nofun : False → _)).with_ok.mono fun b' ⟨hb, hr⟩ => .inr ?_
  -- the values are in the table, or nothing would have been replaced
  unfold replaceAllUses at hb
  rw [if_neg hne] at hb
  cases hvs : b.value? v with
  | none => rw [value_eq, hvs] at hb; cases hb
  | some x =>
    cases hws : b.value? w with
    | none =>
      rw [value_eq, hvs, value_eq, hws] at hb
      cases hb
    | some z => exact ⟨hne, rfl, rfl, hr⟩

/-- The kinds of operations whose results may give way to other values. -/
def OpKind.givesWay : OpKind → Bool
  | subfield _ | subindex _ | subaccess | bitcast | mem _ | inst _ => true
  | _ => false

theorem OpKind.givesWay_of_isAccessor {kind : OpKind} (h : kind.isAccessor = true) :
    kind.givesWay = true := by
  cases kind <;> first | rfl | cases h

/-- The value is a result of an operation with `Z`, of a kind whose results may give way. -/
def Body.Loose (Z : Body → OpId → Prop) (b : Body) (v : ValueId) : Prop :=
  ∃ x i op, b.origin? v = some (.result x i) ∧ b.op? x = some op ∧ op.kind.givesWay = true ∧ Z b x

/-- A property of bodies is kept when one value is read in place of another, and when accessors are
erased. Results of operations with `Z` give way, to values with `U`. -/
structure Body.Rewires (K : Body → Prop) (U : Body → ValueId → Prop) (Z : Body → OpId → Prop) :
    Prop where
  coherent : ∀ {b}, K b → b.Coherent
  replace : ∀ {b b' v w}, K b → v ≠ w → (b.value? v).isSome → (b.value? w).isSome →
    b.Loose Z v → U b w → Replaced b v w b' → K b'
  erase : ∀ {b b' x}, K b → (∀ op, b.op? x = some op → op.kind.isAccessor = true) → ¬b.ResultRead x →
    Dropped b x (fun _ => true) b' → K b'
  replaced : ∀ {b b' v w}, K b → Replaced b v w b' →
    (∀ u, U b u → U b' u) ∧ ∀ x, Z b x → Z b' x
  dropped : ∀ {b b' x}, K b → Z b x → Dropped b x (fun _ => true) b' →
    (∀ u, U b u → U b' u) ∧ ∀ x, Z b x → Z b' x

/-- What rewiring leaves: the property holds, and other values and operations can still give way. -/
structure Body.Rewired (K : Body → Prop) (U : Body → ValueId → Prop) (Z : Body → OpId → Prop)
    (b b' : Body) : Prop where
  holds : K b'
  values : ∀ u, U b u → U b' u
  ops : ∀ x, Z b x → Z b' x
  outlives : Outlives b b'

theorem Body.Rewired.refl {K : Body → Prop} {U : Body → ValueId → Prop} {Z : Body → OpId → Prop}
    {b : Body} (h : K b) : Rewired K U Z b b := ⟨h, fun _ => id, fun _ => id, .refl b⟩

theorem Body.Rewired.trans {K : Body → Prop} {U : Body → ValueId → Prop} {Z : Body → OpId → Prop}
    {b b' b'' : Body} (h : Rewired K U Z b b') (h' : Rewired K U Z b' b'') : Rewired K U Z b b'' :=
  ⟨h'.holds, fun u hu => h'.values u (h.values u hu), fun x hx => h'.ops x (h.ops x hx),
    h.outlives.trans h'.outlives⟩

namespace Body.Rewires

variable {K : Body → Prop} {U : Body → ValueId → Prop} {Z : Body → OpId → Prop} {b b' b'' : Body}

theorem replaceAllUses_ends (h : Rewires K U Z) (hK : K b) {v w : ValueId} (hv : b.Loose Z v)
    (hw : U b w) :
    Ends False (b.replaceAllUses v w) (Rewired K U Z b) := by
  refine (replaceAllUses_any (h.coherent hK).toExact).mono fun b' hb' => ?_
  rcases hb' with rfl | ⟨hne, hvs, hws, hr⟩
  · exact .refl hK
  · exact ⟨h.replace hK hne hvs hws hv hw hr, (h.replaced hK hr).1, (h.replaced hK hr).2, hr.outlives⟩

/-- An accessor that nothing reads is erased. -/
theorem eraseOp_ends (h : Rewires K U Z) (hK : K b) {x : OpId}
    (hx : ∀ op, b.op? x = some op → op.kind.isAccessor = true) :
    Ends False (b.eraseOp x) fun b' => K b' ∧ Dropped b x (fun _ => true) b' :=
  (Body.eraseOp_ends (h.coherent hK) (fun op hop => OpKind.blocks_of_isAccessor (hx op hop)) nofun).mono
    fun _ he => ⟨h.erase hK hx he.unread he.dropped, he.dropped⟩

/-- A reader of a split value gives way to a part. -/
theorem rewireUser_ends (h : Rewires K U Z) (hK : K b) (v : ValueId) {parts : List ValueId} {u : OpId}
    (hparts : ∀ w ∈ parts, U b w) (hu : Z b u) :
    Ends False (rewireUser v parts b u) (Rewired K U Z b) := by
  refine Ends.bind (P := fun kind => ∃ op, b.op? u = some op ∧ op.kind = kind)
    (kindOf_ends (fun op hop => ⟨op, hop, rfl⟩) nofun) ?_
  rintro _ ⟨opu, hop, rfl⟩
  split
  next => exact Ends.bind (P := fun _ => True) (.intro (fun _ _ => trivial) nofun) fun _ _ => .throw id
  next i hi =>
    split
    next => exact .throw id
    next part hpart =>
      refine Ends.bind (P := fun r => b.origin? r = some (.result u 0)) (result_ends (fun op r hop' hr => ?_)
        nofun) fun r hr => ?_
      · exact (h.coherent hK).result hop' hr
      have hpart' := hparts part (List.mem_of_getElem? hpart)
      have hacc := OpKind.isAccessor_of_fixedIndex? hi
      refine Ends.bind (h.replaceAllUses_ends hK ⟨u, 0, opu, hr, hop, OpKind.givesWay_of_isAccessor hacc, hu⟩
        hpart') fun b₁ h₁ => ?_
      refine (h.eraseOp_ends h₁.holds fun op₁ hop₁ => ?_).mono fun b₂ ⟨hK₂, hd⟩ => ?_
      · obtain ⟨op', hop', hk, -⟩ := h₁.outlives.op?_some' hop₁
        obtain rfl := Option.some.inj (hop.symm.trans hop')
        exact hk ▸ hacc
      · obtain ⟨hU, hZ⟩ := h.dropped h₁.holds (h₁.ops u hu) hd
        exact h₁.trans ⟨hK₂, hU, hZ, hd.outlives rfl⟩

/-- The readers of a split value give way to its parts. -/
theorem rewire_ends (h : Rewires K U Z) (hK : K b) {v : ValueId} {parts : List ValueId}
    (hparts : ∀ w ∈ parts, U b w) (hu : ∀ u, b.Reads u v → Z b u) :
    Ends False (b.rewire v parts) (Rewired K U Z b) := by
  refine Ends.bind ((h.coherent hK).users_ends (nofun : False → _)) fun us ⟨_, hus⟩ => ?_
  refine Ends.foldlM (fun _ b' => Rewired K U Z b b') us (.refl hK) fun done u rest b' hl hb' => ?_
  refine (h.rewireUser_ends hb'.holds v (fun w hw => hb'.values w (hparts w hw)) (hb'.ops u ?_)).mono
    fun _ => hb'.trans
  exact hu u ((hus u).1 (hl ▸ List.mem_append_right _ List.mem_cons_self))

/-- Accessors that nothing reads any more are erased. -/
theorem eraseUnread_ends (h : Rewires K U Z) {path : List OpId} : ∀ {b : Body}, K b →
    (∀ x ∈ path, ∀ op, b.op? x = some op → op.kind.isAccessor = true) →
    Ends False (b.eraseUnread path) K := by
  induction path with
  | nil => exact fun hK _ => .pure hK
  | cons x path ih =>
    intro b hK hpath
    rw [eraseUnread]
    refine Ends.bind (P := fun _ => True) (.intro (fun _ _ => trivial) nofun) fun r _ => ?_
    split
    · exact .pure hK
    refine Ends.bind (h.eraseOp_ends hK (hpath x List.mem_cons_self)) fun b₁ ⟨hK₁, hd⟩ => ?_
    refine ih hK₁ fun x' hx' op₁ hop₁ => ?_
    obtain ⟨op', hop', hk, -⟩ := (hd.outlives rfl).op?_some' hop₁
    exact hk ▸ hpath x' (List.mem_cons_of_mem _ hx') op' hop'

end Body.Rewires

end Scalarize
