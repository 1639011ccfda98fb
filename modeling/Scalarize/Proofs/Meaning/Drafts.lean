import Scalarize.Proofs.Edits
import Scalarize.Proofs.Meaning.Replacing

/-!
# Drafts

Operations are made one after the other, and what they make gets its sense at once.

* `Site`, `Draft` : a place in which operations are made, and a body in which they are made there;
* `Draft.Next` : more operations were made, with their effects; `Draft.Has`, `Draft.HasAll` : values at hand;
* `Draft.create` : one more operation; `HasAll.makes`, `Has.part_reaches`, `Has.subaccess_reaches` : one more value.
-/

namespace Scalarize

open Body

/-- A place in which operations are made, one behind the other. -/
class Site (W : List OpId → Builder → Prop) : Prop where
  created : ∀ {M s kind vs tys o b}, W M s → s.body.Coherent → kind.blocks = [] →
    Created s.body s.point kind vs tys o b → W (M ++ [o]) (s.after b)
  declared : ∀ {M s o} (f : Decl → Decl), W M s → W M ⟨s.body.modifyDecl o f, s.point⟩

/-- A body in which operations are made at a place, behind those that are pending. -/
structure Draft (I : Interpretation) (idle : OpId → Prop) (W : List OpId → Builder → Prop) (P : List OpId) where
  builder : Builder
  made : List OpId
  senses : ValueId → Sense
  site : W made builder
  exposed : builder.body.Exposed builder.point.block
  interpreted : builder.body.Interpreted I idle (P ++ made) senses

variable {I : Interpretation} {idle : OpId → Prop} {W : List OpId → Builder → Prop} {P : List OpId}

namespace Draft

variable {d d' d'' : Draft I idle W P} {E E' : List Effect} {v input index : ValueId} {t c : Ty} {σ s : Sense}
  {kind : OpKind} {vs : List ValueId} {tys : List Ty} {xs : List (Ty × Sense)} {i : Nat}

/-- The body so far. -/
abbrev body (d : Draft I idle W P) : Body := d.builder.body

theorem coherent (d : Draft I idle W P) : d.body.Coherent := d.interpreted.coherent

/-- New operations count. -/
theorem not_idle (d : Draft I idle W P) {o : OpId} (ho : d.body.op? o = none) : ¬idle o := fun hi => by
  have := d.interpreted.present (.inr hi)
  rw [ho] at this
  cases this

/-- Since `d` operations without blocks were made that have the effects `E`. -/
structure Next (d : Draft I idle W P) (E : List Effect) (d' : Draft I idle W P) : Prop where
  grows : d.body.Extends d'.body
  senses : ∀ v : ValueId, v.index < d.body.values.size → d'.senses v = d.senses v
  made : ∃ N, d'.made = d.made ++ N ∧ (∀ x ∈ N, ∃ op, d'.body.Active idle x op ∧ op.kind.blocks = []) ∧
    N.flatMap (d'.body.effectsBy d'.senses) = E

theorem Next.refl (d : Draft I idle W P) : d.Next [] d :=
  ⟨.refl _, fun _ _ => rfl, [], by simp, by simp, rfl⟩

theorem Next.trans (h : d.Next E d') (h' : d'.Next E' d'') : d.Next (E ++ E') d'' := by
  obtain ⟨N, hN, hplain, hE⟩ := h.made
  obtain ⟨N', hN', hplain', hE'⟩ := h'.made
  refine ⟨h.grows.trans h'.grows, fun v hv => ?_, N ++ N', by rw [hN', hN, List.append_assoc], ?_, ?_⟩
  · rw [h'.senses v (Nat.lt_of_lt_of_le hv h.grows.size), h.senses v hv]
  · refine List.forall_mem_append.2 ⟨fun x hx => ?_, hplain'⟩
    obtain ⟨op, hact, hk⟩ := hplain x hx
    obtain ⟨op', hact', hbare, -⟩ := hact.extends h'.grows
    exact ⟨op', hact', (OpKind.blocks_eq_of_bare_eq hbare).trans hk⟩
  · rw [List.flatMap_append, hE', ← hE]
    congr 1
    -- what was made first has the effects that it had
    refine List.flatMap_congr fun x hx => ?_
    obtain ⟨op, hact, -⟩ := hplain x hx
    obtain ⟨op', hop', ⟨-, -, hsame, -⟩ | ⟨her, -⟩⟩ := (Silent.extends d'.coherent h'.grows h'.senses).stay hact
    · exact hsame
    · obtain ⟨op'', hact'', -⟩ := hact.extends h'.grows
      rw [Option.some.inj (hop'.symm.trans hact''.op?), hact''.erased] at her
      cases her

/-- The value may be read by what is made next; it has the type and the sense. -/
structure Has (d : Draft I idle W P) (v : ValueId) (t : Ty) (σ : Sense) : Prop where
  made : d.body.MadeBy (P ++ d.made) v
  owned : d.body.Owned idle v
  ty? : d.body.ty? v = some t
  sense : d.senses v = σ

theorem Has.next (h : d.Has v t σ) (hd : d.Next E d') : d'.Has v t σ := by
  obtain ⟨N, hN, -⟩ := hd.made
  refine ⟨(h.made.extends hd.grows).mono ?_, h.owned.extends hd.grows, hd.grows.ty?_some h.ty?, ?_⟩
  · rw [hN, ← List.append_assoc]
    exact List.subset_append_left _ _
  · rw [hd.senses v h.owned.lt, h.sense]

theorem Has.reading (h : d.Has v t σ) : d.body.reading d.senses v = (t, σ.bits) := by
  rw [reading_eq h.ty?, h.sense]

theorem Has.accepts (h : d.Has v t σ) : t.Accepts σ.bits := h.sense ▸ d.interpreted.proper h.ty?

/-- Values at hand, in order. -/
def HasAll (d : Draft I idle W P) (vs : List ValueId) (xs : List (Ty × Sense)) : Prop :=
  List.Forall₂ (fun v x => d.Has v x.1 x.2) vs xs

theorem HasAll.nil : d.HasAll [] [] := List.Forall₂.nil

theorem HasAll.cons (hv : d.Has v t σ) (h : d.HasAll vs xs) : d.HasAll (v :: vs) ((t, σ) :: xs) :=
  List.Forall₂.cons hv h

theorem HasAll.next (h : d.HasAll vs xs) (hd : d.Next E d') : d'.HasAll vs xs := h.imp fun _ _ h => h.next hd

theorem HasAll.types (h : d.HasAll vs xs) : d.body.Types vs (xs.map (·.1)) :=
  List.forall₂_map_right_iff.2 (h.imp fun _ _ h => h.ty?)

theorem HasAll.readings (h : d.HasAll vs xs) :
    vs.map (d.body.reading d.senses) = xs.map fun x => (x.1, x.2.bits) := by
  induction h with
  | nil => rfl
  | cons hv _ ih => rw [List.map_cons, List.map_cons, hv.reading, ih]

theorem HasAll.mem (h : d.HasAll vs xs) (hv : v ∈ vs) : ∃ x ∈ xs, d.Has v x.1 x.2 := by
  induction h with
  | nil => cases hv
  | cons hx _ ih =>
    rcases List.mem_cons.1 hv with rfl | hv
    · exact ⟨_, List.mem_cons_self, hx⟩
    · obtain ⟨x, hmem, hx⟩ := ih hv
      exact ⟨x, List.mem_cons_of_mem _ hmem, hx⟩

/-! ## One operation -/

variable [Site W]

/-- One more operation is made. -/
theorem create {o : OpId} {b' : Body} (hc : Created d.body d.builder.point kind vs tys o b') (hk : kind.blocks = [])
    {τ : Nat → Sense} (ha : d.body.Admits I idle (P ++ d.made) d.senses kind vs tys τ) :
    ∃ d' : Draft I idle W P, d'.builder = d.builder.after b' ∧ d'.senses = d.body.extend d.senses τ ∧
      d.Next (b'.effectsBy d'.senses o) d' ∧
      ∀ {j t}, tys[j]? = some t → d'.Has ⟨d.body.values.size + j⟩ t (τ j) := by
  have hact : b'.Active idle o _ := ⟨hc.op?_self, rfl, d.not_idle hc.fresh⟩
  refine ⟨⟨d.builder.after b', d.made ++ [o], d.body.extend d.senses τ, Site.created d.site d.coherent hk hc,
    hc.exposed d.exposed, ?_⟩, rfl, rfl, ⟨hc.extended, fun v hv => extend_old hv, [o], rfl, ?_, by simp; rfl⟩, fun {j t} ht => ?_⟩
  · rw [← List.append_assoc]
    exact d.interpreted.created hc d.exposed ha
  · simp only [List.mem_singleton, forall_eq]
    exact ⟨_, hact, hk⟩
  · have horigin : b'.origin? ⟨d.body.values.size + j⟩ = some (.result o j) := by rw [hc.origin?_new, ht, Option.map_some]
    exact ⟨.inr ⟨o, by simp, j, horigin⟩, .inr ⟨o, j, _, horigin, hact⟩, (hc.ty?_new j).trans ht, extend_new _ _ _ _⟩

/-- A value of the type and the sense was made; what was made for it has the effects `E`. -/
def Gives (d : Draft I idle W P) (E : List Effect) (t : Ty) (σ : Sense) (v : ValueId) (s : Builder) : Prop :=
  ∃ d' : Draft I idle W P, d'.builder = s ∧ d.Next E d' ∧ d'.Has v t σ

/-- The same; the value is no part and no cast of another. -/
def Makes (d : Draft I idle W P) (E : List Effect) (t : Ty) (σ : Sense) (v : ValueId) (s : Builder) : Prop :=
  ∃ d' : Draft I idle W P, d'.builder = s ∧ d.Next E d' ∧ d'.Has v t σ ∧ d'.body.Rooted idle v

omit [Site W] in
theorem Makes.gives {s : Builder} (h : d.Makes E t σ v s) : d.Gives E t σ v s :=
  let ⟨d', hs, hnext, hv, _⟩ := h
  ⟨d', hs, hnext, hv⟩

omit [Site W] in
theorem Has.gives (h : d.Has v t σ) : d.Gives [] t σ v d.builder := ⟨d, rfl, .refl d, h⟩

omit [Site W] in
theorem Gives.after {s : Builder} (hd : d.Next E d') (h : d'.Gives E' t σ v s) : d.Gives (E ++ E') t σ v s :=
  let ⟨d'', hs, hnext, hv⟩ := h
  ⟨d'', hs, hd.trans hnext, hv⟩

omit [Site W] in
theorem Makes.after {s : Builder} (hd : d.Next E d') (h : d'.Makes E' t σ v s) : d.Makes (E ++ E') t σ v s :=
  let ⟨d'', hs, hnext, hv⟩ := h
  ⟨d'', hs, hd.trans hnext, hv⟩

omit [Site W] in
/-- What is made with a value that was made. -/
theorem Gives.bind {β : Type} {f : Build ValueId} {g : ValueId → Build β} {Q : β → Builder → Prop}
    (hf : Runs False f d.builder (d.Gives E t σ))
    (hg : ∀ v d', d.Next E d' → d'.Has v t σ → Runs False (g v) d'.builder Q) : Runs False (f >>= g) d.builder Q := by
  refine hf.bind ?_
  rintro v _ ⟨d', rfl, hnext, hv⟩
  exact hg v d' hnext hv

/-- One more value is made, which the operation computes from values at hand, or which it holds. -/
theorem HasAll.made {s : Builder} (h : d.HasAll vs xs) (hm : d.builder.Made kind vs t v s) (hk : kind.blocks = [])
    (hmeant : kind.Meant) (hacc : kind.isAccessor = false) (hfits : kind.Fits (xs.map (·.1)) [t])
    (hshaped : kind.Shaped True (xs.map (·.1)) [t]) (hproper : t.Accepts σ.bits)
    (hvalue : ∀ f, kind.value? I t (xs.map fun x => (x.1, x.2.bits)) = some f → σ = ⟨f, none⟩)
    (hplace : kind.holdsPlaces = false → σ.place = none) (hexact : kind = .invalid → t.Exact σ.bits) :
    ∃ d' : Draft I idle W P, d'.builder = s ∧ d.Next (kind.role?.elim [] (t.holding · σ)) d' ∧ d'.Has v t σ ∧
      ((kind = .bitcast → t.isGround → ∀ x ∈ xs, x.1.isGround) → d'.body.Rooted idle v) := by
  obtain ⟨o, b', hc, rfl, rfl⟩ := hm
  have hnc : ∀ strict, kind ≠ .connect strict := by
    rintro strict rfl
    obtain ⟨_, _, _, hnil⟩ := hshaped
    cases hnil
  have hreach : kind.reach? (vs.map (d.body.reading d.senses)) = none := by
    cases hr : kind.reach? (vs.map (d.body.reading d.senses)) with
    | none => rfl
    | some j => rw [OpKind.isAccessor_of_reach? hr] at hacc; cases hacc
  have hnsub : kind ≠ .subaccess := by rintro rfl; cases hacc
  obtain ⟨d', hd', hS, hnext, hhas⟩ := d.create hc hk (τ := fun _ => σ)
    { typed := ⟨_, h.types, hfits, hshaped⟩
      meant := hmeant
      reads := fun u hu => by
        obtain ⟨x, -, hx⟩ := h.mem hu
        exact ⟨hx.made, hx.owned⟩
      proper := fun {j u} hu => by
        obtain rfl := List.mem_singleton.1 (List.mem_of_getElem? hu)
        exact hproper
      sense := fun {u s} hu hs => by
        obtain rfl : t = u := by simpa using hu
        unfold Body.sense at hs
        rw [hreach, h.readings] at hs
        obtain ⟨f, hf, rfl⟩ := Option.map_eq_some_iff.1 hs
        exact hvalue f hf
      placeless := fun _ hp _ => hplace hp
      reaches := fun hsub => absurd hsub hnsub
      short := fun hsub => absurd hsub hnsub
      exact := fun hinv {j u} hu => by
        obtain rfl := List.mem_singleton.1 (List.mem_of_getElem? hu)
        exact hexact hinv
      dest := fun hconnect => absurd hconnect (hnc _) }
  have hv := hhas (j := 0) (t := t) rfl
  refine ⟨d', hd', ?_, hv, fun hcast => ⟨?_, .inr ⟨o, 0, _, ?_,
    ⟨(congrArg (fun s => s.body.op? o) hd').trans hc.op?_self, rfl, d.not_idle hc.fresh⟩, hacc⟩⟩⟩
  · have heffects : b'.effectsBy d'.senses o = kind.role?.elim [] (t.holding · σ) := by
      have hty : b'.tyOf ⟨d.body.values.size⟩ = t := tyOf_eq (hc.ty?_new 0)
      rw [effectsBy_eq hc.op?_self]
      unfold effectsWith
      split
      next hkind _ => exact absurd hkind (hnc _)
      next =>
        cases kind.role? with
        | none => rfl
        | some role => simp [holding, hty, show d'.senses ⟨d.body.values.size⟩ = σ from hv.sense]
    exact heffects ▸ hnext
  · rintro ⟨x, j, op, u, g, a, horigin, ⟨hop, -, -⟩, hkind, hvs, hg, hu, ha⟩
    have horigin' : d'.body.origin? ⟨d.body.values.size + 0⟩ = some (.result o 0) := by
      rw [body, hd']
      exact hc.origin?_new 0
    obtain ⟨rfl, rfl⟩ : o = x ∧ 0 = j := by simpa using horigin'.symm.trans horigin
    rw [body, hd'] at hop
    obtain rfl := Option.some.inj (hop.symm.trans hc.op?_self)
    obtain rfl : vs = [u] := hvs
    obtain ⟨x, hmem, hx⟩ := h.mem (List.mem_singleton_self u)
    obtain rfl : a = x.1 := Option.some.inj (hu.symm.trans (hx.next hnext).ty?)
    obtain rfl : t = .ground g := Option.some.inj (hv.ty?.symm.trans hg)
    rw [hcast hkind rfl x hmem] at ha
    cases ha
  · rw [body, hd']
    exact hc.origin?_new 0

/-- The same of a value that is no cast of an aggregate. -/
theorem HasAll.makes {s : Builder} (h : d.HasAll vs xs) (hm : d.builder.Made kind vs t v s) (hk : kind.blocks = [])
    (hmeant : kind.Meant) (hacc : kind.isAccessor = false) (hfits : kind.Fits (xs.map (·.1)) [t])
    (hshaped : kind.Shaped True (xs.map (·.1)) [t]) (hproper : t.Accepts σ.bits)
    (hvalue : ∀ f, kind.value? I t (xs.map fun x => (x.1, x.2.bits)) = some f → σ = ⟨f, none⟩)
    (hplace : kind.holdsPlaces = false → σ.place = none) (hexact : kind = .invalid → t.Exact σ.bits)
    (hcast : kind = .bitcast → t.isGround → ∀ x ∈ xs, x.1.isGround) :
    d.Makes (kind.role?.elim [] (t.holding · σ)) t σ v s :=
  let ⟨d', hs, hnext, hv, hrooted⟩ := h.made hm hk hmeant hacc hfits hshaped hproper hvalue hplace hexact
  ⟨d', hs, hnext, hv, hrooted hcast⟩

/-! ## Parts -/

/-- An operation that counts makes the value. -/
def MadeAs (d : Draft I idle W P) (v : ValueId) (kind : OpKind) (vs : List ValueId) : Prop :=
  ∃ x op, d.body.origin? v = some (.result x 0) ∧ d.body.Active idle x op ∧ op.kind = kind ∧ op.operands = vs

/-- The part of a value that an accessor reaches. -/
theorem Has.access_made {s : Builder} {more : List ValueId} {ins : List (Ty × Sense)} (hv : d.Has input t σ)
    (hmore : d.HasAll more ins) (hm : d.builder.Made kind (input :: more) c v s) (hacc : kind.isAccessor = true)
    (hc : t.child? i = some c) (hfits : kind.Fits (t :: ins.map (·.1)) [c])
    (hshaped : kind.Shaped True (t :: ins.map (·.1)) [c])
    (hreach : kind.reach? ((t, σ.bits) :: ins.map fun x => (x.1, x.2.bits)) = some i)
    (hreaches : d.body.ReachesWithin d.senses kind (input :: more))
    (hshort : kind = .subaccess → ∀ {u e n}, u ∈ input :: more → d.body.ty? u = some (.vector e n) → n < UInt64.size) :
    ∃ d' : Draft I idle W P, d'.builder = s ∧ d.Next [] d' ∧ d'.Has v c (σ.part i) ∧ d'.MadeAs v kind (input :: more) := by
  obtain ⟨o, b', hcr, rfl, rfl⟩ := hm
  have hall : d.HasAll (input :: more) ((t, σ) :: ins) := .cons hv hmore
  have hmeant : kind.Meant := by cases kind <;> trivial
  have hrole : kind.role? = none := by cases kind <;> first | rfl | cases hacc
  have hnc : ∀ strict, kind ≠ .connect strict := by rintro strict rfl; cases hacc
  obtain ⟨d', hd', hS, hnext, hhas⟩ := d.create hcr (OpKind.blocks_of_isAccessor hacc) (τ := fun _ => σ.part i)
    { typed := ⟨_, hall.types, hfits, hshaped⟩
      meant := hmeant
      reads := fun u hu => by
        obtain ⟨x, -, hx⟩ := hall.mem hu
        exact ⟨hx.made, hx.owned⟩
      proper := fun {j u} hu => by
        obtain rfl := List.mem_singleton.1 (List.mem_of_getElem? hu)
        exact (hv.accepts.child hc).accepts
      sense := fun {u s} hu hs => by
        unfold Body.sense at hs
        rw [hall.readings, List.map_cons, hreach] at hs
        rw [← hv.sense]
        exact Option.some.inj hs
      placeless := fun h => by rw [hacc] at h; cases h
      reaches := hreaches
      short := hshort
      exact := fun hinv => by rw [hinv] at hacc; cases hacc
      dest := fun hconnect => absurd hconnect (hnc _) }
  refine ⟨d', hd', ?_, hhas (j := 0) rfl, o, _, ?_,
    ⟨(congrArg (fun s => s.body.op? o) hd').trans hcr.op?_self, rfl, d.not_idle hcr.fresh⟩, rfl, rfl⟩
  · have heffects : b'.effectsBy d'.senses o = [] := by
      rw [effectsBy_eq hcr.op?_self]
      unfold effectsWith
      split
      next hkind _ => exact absurd hkind (hnc _)
      next => rw [hrole]; rfl
    exact heffects ▸ hnext
  · rw [body, hd']
    exact hcr.origin?_new 0

omit [Site W] in
/-- An accessor makes no cast. -/
theorem MadeAs.not_groundCast (h : d.MadeAs v kind vs) (hacc : kind.isAccessor = true) : ¬d.body.GroundCast idle v := by
  obtain ⟨x, op, horigin, hact, rfl, -⟩ := h
  rintro ⟨y, i, op', u, g, t, horigin', hact', hk, -⟩
  obtain ⟨rfl, -⟩ : x = y ∧ 0 = i := by simpa using horigin.symm.trans horigin'
  rw [Option.some.inj (hact.op?.symm.trans hact'.op?), hk] at hacc
  cases hacc

/-- A part of a value was made, which may be driven. -/
def Reaches (d : Draft I idle W P) (t : Ty) (σ : Sense) (v : ValueId) (s : Builder) : Prop :=
  ∃ d' : Draft I idle W P, d'.builder = s ∧ d.Next [] d' ∧ d'.Has v t σ ∧ ¬d'.body.GroundCast idle v

omit [Site W] in
theorem Reaches.gives {s : Builder} (h : d.Reaches t σ v s) : d.Gives [] t σ v s :=
  let ⟨d', hs, hnext, hv, _⟩ := h
  ⟨d', hs, hnext, hv⟩

/-- A part of a bundle. -/
theorem Has.subfield_reaches (hv : d.Has input t σ) (i : Nat) : Runs False (Build.subfield input i) d.builder
    fun v s => ∃ c, t.child? i = some c ∧ d.Reaches c (σ.part i) v s := by
  refine Build.typeOf_any fun t' ht' => ?_
  obtain rfl := Option.some.inj (hv.ty?.symm.trans ht')
  split
  next fs =>
    split
    next f hf =>
      have hc : (Ty.bundle fs).child? i = some f.ty := by simp [Ty.child?, hf]
      refine (Build.createValue_any rfl _ _).mono fun v s hm => ⟨_, hc, ?_⟩
      obtain ⟨d', hs, hnext, hv', hmade⟩ := hv.access_made .nil hm rfl hc ⟨_, _, rfl, hc, rfl⟩ ⟨fs, f, rfl, hf, rfl⟩ rfl
        (fun h => by cases h) fun h => by cases h
      exact ⟨d', hs, hnext, hv', hmade.not_groundCast rfl⟩
    next => exact .throw id
  next => exact .throw id

/-- An element of a vector at a fixed position. -/
theorem Has.subindex_made (hv : d.Has input t σ) (i : Nat) : Runs False (Build.subindex input i) d.builder
    fun v s => ∃ c, t.child? i = some c ∧ ∃ d' : Draft I idle W P, d'.builder = s ∧ d.Next [] d' ∧
      d'.Has v c (σ.part i) ∧ d'.MadeAs v (.subindex i) [input] := by
  refine Build.typeOf_any fun t' ht' => ?_
  obtain rfl := Option.some.inj (hv.ty?.symm.trans ht')
  split
  next e n =>
    split
    next hi =>
      have hc : (Ty.vector e n).child? i = some e := by simp [Ty.child?, hi]
      exact (Build.createValue_any rfl _ _).mono fun v s hm => ⟨_, hc, hv.access_made .nil hm rfl hc
        ⟨_, _, rfl, hc, rfl⟩ ⟨e, n, rfl, hi, rfl⟩ rfl (fun h => by cases h) fun h => by cases h⟩
    next => exact .throw id
  next => exact .throw id

theorem Has.subindex_reaches (hv : d.Has input t σ) (i : Nat) : Runs False (Build.subindex input i) d.builder
    fun v s => ∃ c, t.child? i = some c ∧ d.Reaches c (σ.part i) v s :=
  (hv.subindex_made i).mono fun _ _ ⟨c, hc, d', hs, hnext, hv', hmade⟩ =>
    ⟨c, hc, d', hs, hnext, hv', hmade.not_groundCast rfl⟩

theorem Has.part_reaches (hv : d.Has input t σ) (hc : t.child? i = some c) :
    Runs False (Build.part input i) d.builder (d.Reaches c (σ.part i)) := by
  have hsome : ∀ {v s}, (∃ c', t.child? i = some c' ∧ d.Reaches c' (σ.part i) v s) → d.Reaches c (σ.part i) v s := by
    rintro v s ⟨c', hc', h⟩
    exact Option.some.inj (hc'.symm.trans hc) ▸ h
  refine Build.typeOf_any fun t' _ => ?_
  split
  · exact (hv.subfield_reaches i).mono fun _ _ => hsome
  · exact (hv.subindex_reaches i).mono fun _ _ => hsome
  · exact .throw id

theorem Has.part_gives (hv : d.Has input t σ) (hc : t.child? i = some c) :
    Runs False (Build.part input i) d.builder (d.Gives [] c (σ.part i)) :=
  (hv.part_reaches hc).mono fun _ _ => Reaches.gives

/-- An element of a vector at a computed position. -/
theorem Has.subaccess_reaches {e u : Ty} {n j : Nat} (hv : d.Has input (.vector e n) σ) (hx : d.Has index u s)
    (hj : Reading.position? (u, s.bits) = some j) (hlt : j < n) (hn : n < UInt64.size)
    (hu : ∀ e' n', u = .vector e' n' → n' < UInt64.size) :
    Runs False (Build.subaccess input index) d.builder (d.Reaches e (σ.part j)) := by
  refine Build.typeOf_any fun t' ht' => ?_
  obtain rfl := Option.some.inj (hv.ty?.symm.trans ht')
  have hc : (Ty.vector e n).child? j = some e := by simp [Ty.child?, hlt]
  refine (Build.createValue_any rfl _ _).mono fun v s' hm => ?_
  obtain ⟨d', hs, hnext, hv', hmade⟩ := hv.access_made (.cons hx .nil) hm rfl hc
    ⟨e, n, u, rfl, rfl⟩ ⟨e, n, u, rfl, rfl⟩ hj
    (fun _ => ⟨input, index, e, n, j, rfl, hv.ty?, by rw [hx.reading, hj], hlt⟩) fun _ {w e' n'} hw hty => by
      rcases List.mem_pair.1 hw with rfl | rfl
      · obtain ⟨rfl, rfl⟩ : e = e' ∧ n = n' := by simpa using hv.ty?.symm.trans hty
        exact hn
      · exact hu _ _ (Option.some.inj (hx.ty?.symm.trans hty))
  exact ⟨d', hs, hnext, hv', hmade.not_groundCast rfl⟩

end Draft

end Scalarize
