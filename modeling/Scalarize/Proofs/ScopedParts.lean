import Scalarize.Proofs.Flattening
import Scalarize.Proofs.References

/-!
# Parts with scoped annotations

A part that has an annotation scoped to a path gets a symbol to which the path can lead.

* `ScopedToPath`, `needsSym_of_scoped` : some annotation is scoped to a path; a ground part needs a symbol then;
* `Body.Unmarked`, `Body.PartsMarked` : declarations that were made meanwhile and have scoped annotations carry symbols,
  unless they hold aggregates or are memories, and come from declarations without a symbol;
* `Body.PartsMarked.refines`, `Module.partsMarked_lower` : this is kept by every step, and so it holds of lowered modules;
* `Circuit.lower_keeps` : what holds of lowered modules, whatever their annotations are redirected to, holds of
  lowered circuits;
* `Circuit.partsMarked_of_lower` : the parts in a lowered circuit.
-/

namespace Scalarize

open Body Lower

/-! ## Annotations scoped to paths -/

/-- Some annotation is scoped to a path. -/
def ScopedToPath (annotations : List Annotation) : Prop := ∃ a ∈ annotations, a.path.isSome

instance (annotations : List Annotation) : Decidable (ScopedToPath annotations) := by
  unfold ScopedToPath
  infer_instance

theorem ScopedToPath.of_restrict {annotations : List Annotation} {part : Part} {r : Restricted}
    (h : restrict annotations part = .ok r) (hs : ScopedToPath r.annotations) : ScopedToPath annotations := by
  obtain ⟨a, ha, hp⟩ := hs
  obtain ⟨a', ha', hpath⟩ := (restrict_spec h).1 a ha
  exact ⟨a', ha', hpath ▸ hp⟩

/-- A ground part with a scoped annotation needs a symbol. -/
theorem needsSym_of_scoped {annotations : List Annotation} {part : Part} {r : Restricted}
    (h : restrict annotations part = .ok r) (hg : part.ty.isGround) (hs : ScopedToPath r.annotations) : r.needsSym := by
  have hends : Ends False (restrict annotations part) fun r => ScopedToPath r.annotations → r.needsSym := by
    refine Ends.bind (P := fun _ => True) (.intro (fun _ _ => trivial) nofun) fun below _ => ?_
    refine Ends.bind (P := fun _ => True) (.intro (fun _ _ => trivial) nofun) fun last _ => ?_
    refine Ends.bind (P := fun _ => True) (.intro (fun _ _ => trivial) nofun) fun shares _ => .pure ?_
    rintro ⟨a, ha, hp⟩
    obtain ⟨s, hs, hc⟩ := List.mem_filterMap.1 ha
    refine List.any_eq_true.2 ⟨s, hs, ?_⟩
    cases s with
    | carried a' =>
      obtain rfl := Option.some.inj hc
      simp [Share.needsSym, hg, hp]
    | symbol | absent => cases hc
  exact hends.of_ok h hs

theorem scoped_redirect {source target : String} {annotations : List Annotation} :
    ScopedToPath (redirect source target annotations) ↔ ScopedToPath annotations := by
  have hpath : ∀ a : Annotation, (a.redirect source target).path.isSome = a.path.isSome := fun a => by
    unfold Annotation.redirect
    split
    next h => simp [h]
    next => rfl
  simp [ScopedToPath, redirect, hpath]

/-! ## Bodies -/

/-- Both are of the same kind, up to declarations, or both are memories. -/
def OpKind.SameSort (k k' : OpKind) : Prop := k.bare = k'.bare ∨ ∃ m m', k = .mem m ∧ k' = .mem m'

theorem OpKind.SameSort.trans {k k' k'' : OpKind} (h : k.SameSort k') (h' : k'.SameSort k'') (hk : ∀ m, k' ≠ .mem m) :
    k.SameSort k'' := by
  rcases h with h | ⟨-, m, -, hm⟩
  · rcases h' with h' | ⟨m, -, hm, -⟩
    · exact .inl (h.trans h')
    · exact absurd hm (hk m)
  · exact absurd hm (hk m)

/-- The memory of a part is named after it. -/
theorem Memory.name_narrow {m m' : Memory} {part : Part} (h : m.narrow part = .ok m') :
    m'.decl.name = m.decl.name.map (· ++ part.suffix) :=
  Ends.of_ok (Ends.bind (P := fun _ => True) (.intro (fun _ _ => trivial) nofun) fun _ _ => .pure rfl :
    Ends False (m.narrow part) fun m' => m'.decl.name = m.decl.name.map (· ++ part.suffix)) h

namespace Body

variable {B b b' b₀ : Body} {x : OpId} {op : Operation} {kind : OpKind} {d d' : Decl}

/-- Declaration `d` of an operation of kind `kind` may come from a declaration of `B` without a symbol. -/
def Unmarked (B : Body) (kind : OpKind) (d : Decl) : Prop :=
  ∃ x₀ op₀ d₀ suffix, B.op? x₀ = some op₀ ∧ op₀.kind.decl? = some d₀ ∧ d₀.sym = none ∧ kind.SameSort op₀.kind ∧
    d.name = d₀.name.map (· ++ suffix)

theorem Unmarked.self (hop : B.op? x = some op) (hd : op.kind.decl? = some d) (hs : d.sym = none) :
    B.Unmarked op.kind d := ⟨x, op, d, "", hop, hd, hs, .inl rfl, by cases d.name <;> simp⟩

/-- The operation is a memory, or the first of its results is an aggregate. -/
def Lax (b : Body) (op : Operation) : Prop :=
  (∃ m, op.kind = .mem m) ∨ ∃ v t, op.results[0]? = some v ∧ b.ty? v = some t ∧ t.isGround = false

/-- Declarations that are not from `B` and have scoped annotations carry symbols. Memories and aggregates may be without,
if what they come from was. -/
structure PartsMarked (B b : Body) : Prop where
  marked : ∀ {x op d}, B.op? x = none → b.op? x = some op → op.kind.decl? = some d → (∀ i, op.kind ≠ .inst i) →
    ScopedToPath d.annotations → d.sym.isSome ∨ b.Lax op ∧ B.Unmarked op.kind d

theorem PartsMarked.refl (B : Body) : B.PartsMarked B := ⟨fun hx hx' => by
  rw [hx] at hx'
  cases hx'⟩

/-- Other operands do not matter, nor does whether operations are erased. -/
theorem PartsMarked.congr (h : B.PartsMarked b) (hty : ∀ {v t}, b.ty? v = some t → b'.ty? v = some t)
    (hop : ∀ {x op'}, b'.op? x = some op' → ∃ op, b.op? x = some op ∧ op'.kind = op.kind ∧ op'.results = op.results) :
    B.PartsMarked b' := by
  refine ⟨fun {x op' d} hx hx' hd hinst hs => ?_⟩
  obtain ⟨op, hop, hk, hr⟩ := hop hx'
  refine (h.marked hx hop (hk ▸ hd) (hk ▸ hinst) hs).imp_right ?_
  unfold Lax
  rw [hk, hr]
  exact And.imp_left (Or.imp_right fun ⟨v, t, hv, ht, hg⟩ => ⟨v, t, hv, hty ht, hg⟩)

theorem PartsMarked.edited (h : B.PartsMarked b) (he : b.Edited b') (hold : ∀ {x}, (b'.op? x).isSome → (b.op? x).isSome) :
    B.PartsMarked b' :=
  h.congr he.ty? fun {x op'} hx => by
    obtain ⟨op, hop⟩ := Option.isSome_iff_exists.1 (hold (by rw [hx]; rfl))
    obtain ⟨op'', hop'', hk, hr, -⟩ := he.op? hop
    obtain rfl := Option.some.inj (hx.symm.trans hop'')
    exact ⟨op, hop, hk, hr⟩

/-- An operation is made and declared. -/
theorem PartsMarked.declared (h : B.PartsMarked b) {p : Point} {vs : List ValueId} {tys : List Ty}
    (hc : Created b p kind vs tys x b') (f : Decl → Decl)
    (hnew : ∀ d, kind.decl? = some d → (∀ i, kind ≠ .inst i) → ScopedToPath (f d).annotations →
      (f d).sym.isSome ∨ ((∃ m, kind = .mem m) ∨ ∃ t, tys[0]? = some t ∧ t.isGround = false) ∧
        B.Unmarked (kind.mapDecl f) (f d)) : B.PartsMarked (b'.modifyDecl x f) := by
  refine ⟨fun {x' op' d} hx hx' hd hinst hs => ?_⟩
  by_cases hxx : x' = x
  · subst hxx
    have hop : (b'.modifyDecl x' f).op? x' = some ⟨kind.mapDecl f, vs,
        (List.range tys.length).map fun j => ⟨b.values.size + j⟩, p.block, false⟩ := by
      rw [op?_modifyDecl, hc.op?_self, Option.map_some, if_pos rfl]
    obtain rfl := Option.some.inj (hx'.symm.trans hop)
    dsimp only at hd
    rw [OpKind.decl?_mapDecl] at hd
    obtain ⟨d₀, hd₀, rfl⟩ := Option.map_eq_some_iff.1 hd
    refine (hnew d₀ hd₀ (fun i hi => hinst { i with decl := f i.decl } (by rw [hi]; rfl)) hs).imp_right (And.imp_left ?_)
    rintro (⟨m, rfl⟩ | ⟨t, ht, hg⟩)
    · exact .inl ⟨_, rfl⟩
    · refine .inr ⟨⟨b.values.size⟩, t, ?_, ?_, hg⟩
      · cases tys with
        | nil => cases ht
        | cons ty tys => simp [List.range_succ_eq_map]
      · rw [ty?_modifyDecl]
        exact (hc.ty?_new 0).trans ht
  · have hop' : b.op? x' = some op' := by
      rw [op?_modifyDecl, hc.op?, if_neg hxx] at hx'
      simpa [hxx] using hx'
    refine (h.marked hx hop' hd hinst hs).imp_right (And.imp_left (Or.imp_right ?_))
    rintro ⟨v, t, hv, ht, hg⟩
    exact ⟨v, t, hv, by rw [ty?_modifyDecl]; exact hc.extended.ty?_some ht, hg⟩

/-- An operation is made. -/
theorem PartsMarked.created (h : B.PartsMarked b) {p : Point} {vs : List ValueId} {tys : List Ty}
    (hc : Created b p kind vs tys x b') (hnew : ∀ d, kind.decl? = some d → (∀ i, kind ≠ .inst i) →
      ScopedToPath d.annotations → d.sym.isSome ∨
        ((∃ m, kind = .mem m) ∨ ∃ t, tys[0]? = some t ∧ t.isGround = false) ∧ B.Unmarked kind d) :
    B.PartsMarked b' := by
  have hid : B.PartsMarked (b'.modifyDecl x fun d => d) := h.declared hc _ (by rwa [OpKind.mapDecl_id])
  refine hid.congr (fun hv => by rwa [ty?_modifyDecl] at hv) fun {x' op'} hx' => ⟨op', ?_, rfl, rfl⟩
  rw [op?_modifyDecl, hx']
  simp [OpKind.mapDecl_id]

theorem PartsMarked.undeclared (h : B.PartsMarked b) {p : Point} {vs : List ValueId} {tys : List Ty}
    (hc : Created b p kind vs tys x b') (hk : kind.decl? = none) : B.PartsMarked b' := by
  refine h.created hc fun d hd => ?_
  rw [hk] at hd
  cases hd

/-- Redirected annotations are scoped as they were. -/
theorem PartsMarked.redirected (h : B.PartsMarked b) (o : OpId) (old new : String) :
    B.PartsMarked (b.modifyDecl o fun d => { d with annotations := redirect old new d.annotations }) := by
  refine ⟨fun {x op' d} hx hx' hd hinst hs => ?_⟩
  rw [op?_modifyDecl] at hx'
  obtain ⟨op, hop, rfl⟩ := Option.map_eq_some_iff.1 hx'
  have hlax : ∀ op', op'.results = op.results → ((∃ m, op.kind = .mem m) → ∃ m, op'.kind = .mem m) → b.Lax op →
      (b.modifyDecl o fun d => { d with annotations := redirect old new d.annotations }).Lax op' := fun op' hr hm => by
    unfold Lax
    simp only [hr, ty?_modifyDecl]
    exact Or.imp_left hm
  by_cases hxo : x = o
  swap
  · rw [if_neg hxo] at hd hinst ⊢
    exact (h.marked hx hop hd hinst hs).imp_right (And.imp_left (hlax op rfl id))
  rw [if_pos hxo] at hd hinst ⊢
  dsimp only at hd hinst ⊢
  rw [OpKind.decl?_mapDecl] at hd
  obtain ⟨d₀, hd₀, rfl⟩ := Option.map_eq_some_iff.1 hd
  refine (h.marked hx hop hd₀ (fun i hi => hinst { i with decl := _ } (by rw [hi]; rfl)) (scoped_redirect.1 hs)).imp_right
    fun ⟨hl, hun⟩ => ⟨hlax _ rfl ?_ hl, ?_⟩
  · rintro ⟨m, hm⟩
    exact ⟨_, by rw [hm]; rfl⟩
  · obtain ⟨x₀, op₀, e₀, suffix, hop₀, he₀, hsym, hsort, hname⟩ := hun
    refine ⟨x₀, op₀, e₀, suffix, hop₀, he₀, hsym, hsort.imp ?_ ?_, hname⟩
    · rw [OpKind.bare_mapDecl]
      exact id
    · rintro ⟨m, m', hm, hm'⟩
      exact ⟨_, m', by rw [hm]; rfl, hm'⟩

/-! ### Lowering one operation -/

/-- The declaration of a part, where what is split comes from a declaration without a symbol if it has none. -/
theorem forPart_marked {part : Part} {r : Restricted} {y : Symbols} (hr : restrict d.annotations part = .ok r)
    (hs : ScopedToPath (d.forPart part r y x).1.annotations) : (d.forPart part r y x).1.sym.isSome ∨
      part.ty.isGround = false ∧ d.sym = none ∧ ScopedToPath d.annotations := by
  rw [(d.labelsPart part r y x).2] at hs
  unfold Decl.forPart
  cases hsym : d.sym with
  | some base => exact .inl rfl
  | none =>
    dsimp only
    split
    next => exact .inl rfl
    next hneeds =>
      refine .inr ⟨Bool.eq_false_iff.2 fun hg => hneeds (needsSym_of_scoped hr hg hs), rfl, hs.of_restrict hr⟩

theorem name_forPart (d : Decl) (part : Part) (r : Restricted) (y : Symbols) (x : OpId) :
    (d.forPart part r y x).1.name = d.name.map (· ++ part.suffix) := by
  unfold Decl.forPart
  cases d.sym with
  | some base => rfl
  | none =>
    dsimp only
    split <;> rfl

theorem Unmarked.part {part : Part} (h : B.Unmarked op.kind d) {kind' : OpKind} (hk : kind'.bare = op.kind.bare)
    (hmem : ∀ m, op.kind ≠ .mem m) (hn : d'.name = d.name.map (· ++ part.suffix)) : B.Unmarked kind' d' := by
  obtain ⟨x₀, op₀, d₀, suffix, hop₀, hd₀, hs, hsort, hname⟩ := h
  refine ⟨x₀, op₀, d₀, suffix ++ part.suffix, hop₀, hd₀, hs, OpKind.SameSort.trans (.inl hk) hsort hmem, ?_⟩
  rw [hn, hname, Option.map_map]
  simp [Function.comp_def, String.append_assoc]

theorem Unmarked.memory {m m' : Memory} {part : Part} (h : B.Unmarked (.mem m) m.decl)
    (hn : m'.decl.name = m.decl.name.map (· ++ part.suffix)) : B.Unmarked (.mem m') m'.decl := by
  obtain ⟨x₀, op₀, d₀, suffix, hop₀, hd₀, hs, hsort, hname⟩ := h
  have hmem : ∃ m₀, op₀.kind = .mem m₀ := by
    rcases hsort with hbare | ⟨-, m₀, -, hk⟩
    · revert hbare
      cases hk : op₀.kind <;> simp [OpKind.bare, OpKind.mapDecl]
    · exact ⟨m₀, hk⟩
  obtain ⟨m₀, hk⟩ := hmem
  refine ⟨x₀, op₀, d₀, suffix ++ part.suffix, hop₀, hd₀, hs, .inr ⟨m', m₀, rfl, hk⟩, ?_⟩
  rw [hn, hname, Option.map_map]
  simp [Function.comp_def, String.append_assoc]

theorem not_scoped_of_plain (hk : kind.Plain) (hd : kind.decl? = some d) : ¬ScopedToPath d.annotations := by
  have hann : d.annotations = [] := by
    cases kind with
    | wire | reg | regReset | node => obtain rfl := Option.some.inj hd; exact hk.2
    | mem | inst => exact hk.elim
    | _ => cases hd
  rw [hann]
  rintro ⟨a, ha, -⟩
  cases ha

/-- While an operation is lowered, the declarations of its parts are marked. -/
theorem marked_events {cx : Context} {o : OpId} (hnode : b₀.NodeTyped op)
    (hbase : ∀ d, op.kind.decl? = some d → (∀ i, op.kind ≠ .inst i) → d.sym = none → ScopedToPath d.annotations →
      B.Unmarked op.kind d) : Events cx b₀ o op fun _ b _ => B.PartsMarked b where
  create _ hS hk hc := hS.created hc fun _ hd _ hs => absurd hs (not_scoped_of_plain hk hd)
  guard _ hS hc := hS.undeclared hc rfl
  part {_ ps' _ _ y kind _ ty _ x _ part r} hb hS hdiv hps hcopies hc hr := by
    refine hS.declared hc _ fun d' hd' _ hs => ?_
    obtain ⟨d, hd⟩ : ∃ d, op.kind.decl? = some d := by
      cases hd : op.kind.decl? with
      | none => rw [hcopies.decl? hd] at hd'; cases hd'
      | some d => exact ⟨d, rfl⟩
    rw [hd, Option.getD_some] at hr hs ⊢
    have hbare := hcopies.bare (by rw [hd]; rfl)
    have hplain := hcopies.plain
    have hsort : (∀ i, op.kind ≠ .inst i) ∧ ∀ m, op.kind ≠ .mem m := by
      revert hbare hplain
      cases op.kind <;> cases kind <;> simp [OpKind.bare, OpKind.mapDecl, OpKind.Plain]
    refine (forPart_marked hr hs).imp_right fun hmark => ?_
    obtain ⟨hg, hsym, hsc⟩ := hmark
    refine ⟨.inr ⟨ty, rfl, ?_⟩, ?_⟩
    · rw [hcopies.ty_eq hb (by rw [hd]; rfl) hnode hdiv (hps ▸ by simp : part ∈ ps')]
      exact hg
    · refine (hbase d hd hsort.1 hsym hsc).part ?_ hsort.2 (name_forPart d part r y x)
      rw [OpKind.bare_mapDecl, hbare]
  memory {_ _ _ _ y m part m' _ x b'} _ hS hk _ _ hm' hc := by
    obtain ⟨-, hann, -⟩ := Memory.narrow_spec hm'
    unfold Memory.forPart
    cases hsym : m.decl.sym with
    | some base => exact hS.declared hc _ fun _ _ _ _ => .inl rfl
    | none =>
      refine hS.created hc fun d hd _ hs => .inr ⟨.inl ⟨m', rfl⟩, ?_⟩
      obtain rfl := Option.some.inj hd
      have hinst : ∀ i, op.kind ≠ .inst i := by simp [hk]
      have hbase' := hbase m.decl (by rw [hk]; rfl) hinst hsym (hann ▸ hs)
      rw [hk] at hbase'
      exact hbase'.memory (Memory.name_narrow hm')
  inst hS _ _ _ hc _ := hS.created hc fun _ _ hinst => absurd rfl (hinst _)
  replace {_ _ _ _ _ b'} _ hS hr := hS.congr (fun hv => by rwa [hr.outlives.ty?]) fun {x op'} hx => by
    rw [hr.op?] at hx
    obtain ⟨op, hop, rfl⟩ := Option.map_eq_some_iff.1 hx
    exact ⟨op, hop, rfl, rfl⟩
  drop _ hS hf _ hd := hS.congr (fun hv => by rwa [(hd.outlives hf).ty?]) fun {x' op'} hx => by
    rw [hd.op?] at hx
    obtain ⟨op, hop, rfl⟩ := Option.map_eq_some_iff.1 hx
    exact ⟨op, hop, by split <;> rfl, by split <;> rfl⟩

theorem PartsMarked.refines (cx : Context) (B : Body) :
    Refines cx (Lowering.stage (.lax cx)) fun b _ _ => B.Edited b ∧ B.PartsMarked b where
  skip hS _ := hS
  stay hS _ _ := hS
  step {t R P D o op k A B'} hI hS hop hw _ _ _ := by
    have he := erased_of_stands hop hw.stands
    have hevents : Events cx t.builder.body o op fun _ b _ => B.PartsMarked b := by
      refine marked_events (fun d hk => ?_) fun d hd hinst hs hsc => ?_
      · obtain ⟨ins, outs, hins, houts, hsh⟩ := hI.1.typed List.not_mem_nil hop he
        rw [hk] at hsh
        obtain ⟨s, u, rfl, rfl, hag⟩ := hsh
        obtain ⟨v, hv, hops⟩ := hins.singleton
        obtain ⟨r, hr, hres⟩ := houts.singleton
        exact ⟨v, r, s, u, by rw [hops]; rfl, by rw [hres]; rfl, hv, hr, hag⟩
      · cases hold : B.op? o with
        | none =>
          rcases hS.2.marked hold hop hd hinst hsc with hsome | ⟨-, hun⟩
          · rw [hs] at hsome
            cases hsome
          · exact hun
        | some op₀ =>
          obtain ⟨op', hop', hk, -⟩ := hS.1.op? hold
          rw [Option.some.inj (hop.symm.trans hop'), hk] at hd ⊢
          exact .self hold hd hs
    exact hevents.lowersTo hI.1.coherent hop hS.2 fun hT hr => ⟨hS.1.trans hr.edited, hT⟩

end Body

/-- While a body is lowered, the declarations of parts are marked. -/
theorem Lower.lowerBlock_marks {cx : Context} {R : OpId → Nat} {b : Body} {y : Symbols} (h : b.Input (.lax cx) R)
    (hy : b.Tracked y) (n : Nat) (p : Point) : Runs False (lowerBlock cx n Body.entry) ⟨⟨b, p⟩, y⟩ fun _ t =>
      t.builder.body.Coherent ∧ b.PartsMarked t.builder.body := by
  obtain ⟨L, hL⟩ := h.coherent.exists_unfolds_slotsOf Body.entry
  obtain ⟨blk, hblk, -⟩ := h.coherent.entry
  have hstages : Stages False cx _ := (Lowering.stages (.lax cx)).refine (Body.PartsMarked.refines cx b)
  refine (hstages.lowerBlock_runs (t := ⟨⟨b, p⟩, y⟩) (P := []) (L := L) (D := []) (R := R)
    ⟨⟨by simpa using Lowering.start h hL, hy⟩, .refl h.coherent, .refl b⟩ (by simp [hblk]) (.inl rfl) hL nofun).mono ?_
  rintro _ t ⟨C, N, R', -, -, ⟨⟨hlow, -⟩, hedited, hmarked⟩, -, -, -⟩
  exact ⟨hedited.coherent, hmarked⟩

/-! ## Ports -/

/-- A port that stands for a node inside of one of the ports of `m`, and has a scoped annotation, carries a symbol. An
aggregate may be without, if the port of `m` was. -/
structure PortPiece.Marked (m : Module) (o : PortPiece) (p : Port) : Prop where
  shape : o.shape = p.shape
  marked : o.path ≠ [] → ScopedToPath p.annotations →
    p.sym.isSome ∨ p.ty.isGround = false ∧ ∃ p₀, m.ports[o.port]? = some p₀ ∧ p₀.sym = none

/-- The same while ports are split: a port that is whole is one of `m`. -/
structure PortPiece.Held (m : Module) (o : PortPiece) (p : Port) : Prop extends o.Marked m p where
  whole : o.path = [] → m.ports[o.port]? = some p

/-- The port of a part. -/
theorem Port.narrow_marked {p n : Port} {part : Part} {y y' : Symbols} (h : p.narrow part y = .ok (n, y'))
    (hs : ScopedToPath n.annotations) : n.sym.isSome ∨ n.ty.isGround = false ∧ p.sym = none ∧ ScopedToPath p.annotations := by
  have hends : Ends False (p.narrow part y) fun r => ScopedToPath r.1.annotations → r.1.sym.isSome ∨
      r.1.ty.isGround = false ∧ p.sym = none ∧ ScopedToPath p.annotations := by
    refine Ends.bind (P := fun r => restrict p.annotations part = .ok r) (.intro (fun _ hr => hr) nofun)
      fun r hr => ?_
    cases hsym : p.sym with
    | some base => exact .pure fun _ => .inl rfl
    | none =>
      dsimp only
      split
      next => exact .pure fun _ => .inl rfl
      next hneeds =>
        exact .pure fun hs => .inr ⟨Bool.eq_false_iff.2 fun hg => hneeds (needsSym_of_scoped hr hg hs), rfl,
          hs.of_restrict hr⟩
  exact hends.of_ok h hs

theorem PortPiece.Held.narrow {m : Module} {o : PortPiece} {p n : Port} {part : Part} {y y' : Symbols} (h : o.Held m p)
    (hn : p.narrow part y = .ok (n, y')) : (o.node part.stop).Held m n where
  shape := by
    rw [Port.shape_narrow hn, ← h.shape]
    rfl
  marked _ hs := by
    refine (Port.narrow_marked hn hs).imp_right fun ⟨hg, hsym, hsc⟩ => ⟨hg, ?_⟩
    by_cases hpath : o.path = []
    · exact ⟨p, h.whole hpath, hsym⟩
    · rcases h.marked hpath hsc with hsome | ⟨-, hun⟩
      · rw [hsym] at hsome
        cases hsome
      · exact hun
  whole hpath := by simp [PortPiece.node, Part.stop] at hpath

theorem PortPiece.Held.narrows {m : Module} {o : PortPiece} {p : Port} {parts : List Part} {y y' : Symbols} {new : List Port}
    (h : o.Held m p) (hn : p.Narrows parts y new y') :
    List.Forall₂ (PortPiece.Held m) (parts.map fun part => o.node part.stop) new := by
  induction hn with
  | nil => exact .nil
  | snoc _ hlast ih =>
    rw [List.map_append]
    exact List.rel_append ih (.cons (h.narrow hlast) .nil)

theorem forall₂_middle {α β : Type} {R : α → β → Prop} {l : List α} {A B : List β} {p : β}
    (h : List.Forall₂ R l (A ++ p :: B)) :
    ∃ l₁ o l₂, l = l₁ ++ o :: l₂ ∧ List.Forall₂ R l₁ A ∧ R o p ∧ List.Forall₂ R l₂ B := by
  have hdrop := List.forall₂_drop_append _ _ _ h
  cases hl : l.drop A.length with
  | nil => rw [hl] at hdrop; cases hdrop
  | cons o l₂ =>
    rw [hl] at hdrop
    cases hdrop with
    | cons ho hB => exact ⟨l.take A.length, o, l₂, by rw [← hl, List.take_append_drop], List.forall₂_take_append _ _ _ h, ho, hB⟩

namespace Module

variable {cx : Context} {m m' : Module} {generated : Nat}

/-- The ports `ps` are pieces of those of the module that are split into the same as these, and marked, and so are the
declarations of the body. -/
structure Marking (keep : Bool) (m : Module) (ps : List Port) (s : PortState) : Prop where
  pieces : ∃ os : List PortPiece, os.flatMap (·.flattened keep) = m.flattened keep ∧ List.Forall₂ (PortPiece.Held m) os ps
  body : Option.Rel (fun B b => b.Coherent ∧ B.PartsMarked b) m.body s.body

theorem Marking.start {keep : Bool} {s : PortState} (h : Option.Rel (fun B b => b.Coherent ∧ B.PartsMarked b) m.body s.body) :
    m.Marking keep m.ports s where
  pieces := by
    refine ⟨m.pieces, rfl, List.forall₂_iff_get.2 ⟨by simp [Module.pieces], fun i hi hi' => ?_⟩⟩
    simp only [Module.pieces, List.get_eq_getElem, List.getElem_map, List.getElem_zipIdx, Nat.zero_add]
    exact ⟨⟨rfl, fun hne => absurd rfl hne⟩, fun _ => List.getElem?_eq_getElem hi'⟩
  body := h

/-- Splitting a port by one layer keeps this. -/
theorem Marking.edits (keep : Bool) (m : Module) : PortEdits keep (m.Marking keep) where
  split {A B p s parts new y body} h hpeel hnew hsplit := by
    obtain ⟨⟨os, hflat, hall⟩, hbody⟩ := h
    obtain ⟨l, o, l', rfl, hl, ho, hl'⟩ := forall₂_middle hall
    have hpeel' : o.shape.ty.peel keep = .ok (some parts) := by rw [ho.shape]; exact hpeel
    refine ⟨⟨l ++ parts.map (fun part => o.node part.stop) ++ l', ?_,
      List.rel_append (List.rel_append hl (ho.narrows hnew)) hl'⟩, ?_⟩
    · rw [← hflat, List.flatMap_append, List.flatMap_append, List.flatMap_append, List.flatMap_cons,
        PortPiece.flattened_of_peel hpeel', List.append_assoc]
    · unfold SplitsArgument at hsplit
      obtain ⟨sb, sy⟩ := s
      dsimp only at hbody hsplit ⊢
      generalize m.body = B₀ at hbody
      cases hbody with
      | none => rw [show body = none from hsplit]; exact .none
      | some h =>
        obtain ⟨b', hb', rfl⟩ := hsplit
        have hr := (splitArgument_ends h.1 _ _).of_ok hb'
        refine .some ⟨hr.coherent, h.2.edited hr.edited fun hx => ?_⟩
        obtain ⟨op', hop'⟩ := Option.isSome_iff_exists.1 hx
        exact hr.old hop'

/-- The ports of `m'` are the parts of those of `m`, and whatever was made by splitting is marked. -/
structure PartsMarked (options : Options) (m m' : Module) : Prop where
  ports : List.Forall₂ (PortPiece.Marked m) (m.flattened (options.portsMayPreserve m.entry)) m'.ports
  body : Option.Rel Body.PartsMarked m.body m'.body

/-- What a lowered module has made by splitting is marked. -/
theorem partsMarked_lower {R : OpId → Nat} (hm : m.Input (.lax cx) R) :
    Ends False (m.lower cx generated) fun r => m.PartsMarked cx.options r.1 := by
  refine (lower_of_block (T := fun b s => s.builder.body.Coherent ∧ b.PartsMarked s.builder.body) (fun {b p} hb => ?_)
    (Marking.edits _ m) (fun hb => .start (by rw [hb]; exact .none)) fun {b s} hb h => .start (by rw [hb]; exact .some h)).mono ?_
  · exact lowerBlock_marks (hm.body hb).1 (Symbols.targets_ofModule m generated) _ p
  · rintro ⟨m', y⟩ ⟨⟨body, ⟨⟨os, hflat, hall⟩, hbody⟩, heq⟩, hwhole⟩
    dsimp only at hall heq hwhole ⊢
    have hos : os = m.flattened (cx.options.portsMayPreserve m.entry) := by
      rw [← hflat]
      have hone : ∀ o ∈ os, o.flattened (cx.options.portsMayPreserve m.entry) = [o] := fun o ho => by
        obtain ⟨p, hp, hheld⟩ := exists_of_forall₂ hall.flip ho
        exact PortPiece.flattened_of_whole (by rw [hheld.shape]; exact hwhole p hp)
      rw [List.flatMap_congr hone, List.flatMap_singleton']
    refine ⟨hos ▸ hall.imp fun _ _ h => h.toMarked, ?_⟩
    rw [congrArg Module.body heq]
    generalize m.body = B₀ at hbody
    cases hbody with
    | none => exact .none
    | some h =>
      exact .some (h.2.congr id fun hx => ⟨_, hx, rfl, rfl⟩)

end Module

/-! ## Circuits -/

namespace Circuit

variable {c : Circuit} {options : Options} {generated : Nat} {K : Circuit → Prop}

/-- A property that does not depend on the paths, and that does not change when annotations are redirected, is kept
while renames are followed. -/
theorem followRenames_keeps (hpaths : ∀ {c : Circuit} paths, K c → K { c with paths })
    (hredirect : ∀ {c c' : Circuit} {i t old new}, K c → c.redirectTarget? i t old new = some c' → K c') (h : K c)
    (renames : List Renames) : Ends False (c.followRenames renames) fun r => K r.1 := by
  have hput : ∀ {c : Circuit} (p : HierPath), K c → K (c.putPath p) := fun p hc => by
    unfold putPath
    split
    all_goals exact hpaths _ hc
  have htarget : ∀ {r path t} {s : PathState}, K s.circuit →
      Ends False (PathState.addTarget r path s t) fun s' => K s'.circuit := by
    intro r path t s hs
    unfold PathState.addTarget
    dsimp only
    split
    · exact .throw id
    next c' hc' => exact .pure (hput _ (hredirect hs hc'))
  have hpath : ∀ {r sym ts name} {s : PathState}, K s.circuit →
      Ends False (PathState.splitPath r sym ts s name) fun s' => K s'.circuit := by
    intro r sym ts name s hs
    unfold PathState.splitPath
    split
    · exact .pure hs
    split
    · exact .pure hs
    cases he : s.table.erase s.circuit name with
    | none => exact .pure hs
    | some e =>
      obtain ⟨p, table, circuit⟩ := e
      obtain ⟨q, -, he⟩ := Option.map_eq_some_iff.1 he
      obtain rfl := congrArg (·.2.2) he
      exact Ends.bind (P := fun s : PathState => K s.circuit) (Ends.foldlM (fun _ (s : PathState) => K s.circuit) ts.zipIdx (hpaths _ hs)
        fun _ _ _ _ _ hs => htarget hs) fun _ hs => .pure hs
  unfold followRenames
  refine Ends.bind (P := fun s : PathState => K s.circuit) (Ends.foldlM (fun _ (s : PathState) => K s.circuit) _ h fun _ r _ s _ hs => ?_)
    fun _ hs => .pure hs
  refine Ends.foldlM (fun _ (s : PathState) => K s.circuit) _ hs fun _ e _ s _ hs => ?_
  exact Ends.foldlM (fun _ (s : PathState) => K s.circuit) _ hs fun _ _ _ _ _ hs => hpath hs

/-- What holds of lowered modules, whatever their annotations are redirected to, holds of lowered circuits. -/
theorem lower_keeps {P : Module → Module → Prop}
    (h : ∀ m ∈ c.modules, ∀ g, Ends False (m.lower ⟨options, c.moduleTable⟩ g) fun r => P m r.1)
    (hops : ∀ {m m' b o old new}, P m m' → m'.body = some b →
      P m { m' with body := some (b.modifyDecl o fun d => { d with annotations := redirect old new d.annotations }) })
    (hports : ∀ {m m' i old new}, P m m' →
      P m { m' with ports := m'.ports.modify i fun p => { p with annotations := redirect old new p.annotations } }) :
    Ends False (c.lower options generated) fun r => List.Forall₂ P c.modules r.1.modules := by
  have hset : ∀ {ms ms' : List Module} {i : Nat} {m' m'' : Module}, List.Forall₂ P ms ms' → ms'[i]? = some m' →
      (∀ m, P m m' → P m m'') → List.Forall₂ P ms (ms'.set i m'') := by
    intro ms ms' i m' m'' hms hi hstep
    refine List.forall₂_iff_get.2 ⟨by simp [hms.length_eq], fun j hj hj' => ?_⟩
    have hP := (List.forall₂_iff_get.1 hms).2 j hj (by simpa using hj')
    simp only [List.get_eq_getElem, List.getElem_set] at hP ⊢
    split
    next he =>
      subst he
      obtain ⟨_, rfl⟩ := List.getElem?_eq_some_iff.1 hi
      exact hstep _ hP
    next => exact hP
  unfold lower
  refine Ends.bind (Ends.foldlM (Progress.Holds False P) c.modules ⟨.nil, nofun⟩ ?_) fun p hp => ?_
  · intro done m rest p hl hp
    exact Progress.lowerModule_ends hp
      ((h m (hl ▸ List.mem_append_right _ List.mem_cons_self) _).mono fun _ hr => ⟨hr, False.elim⟩)
  · refine Ends.bind (followRenames_keeps (K := fun c' => List.Forall₂ P c.modules c'.modules) (fun _ h => h) ?_ hp.modules
      p.renames) fun _ hr => .pure hr
    intro c₁ c₂ i t old new hc hred
    unfold redirectTarget? at hred
    obtain ⟨m', hm', hred⟩ := Option.bind_eq_some_iff.1 hred
    cases hk : t.kind with
    | operation o =>
      simp only [hk] at hred
      obtain ⟨b, hb, hred⟩ := Option.bind_eq_some_iff.1 hred
      obtain ⟨kind, -, hred⟩ := Option.bind_eq_some_iff.1 hred
      obtain ⟨_, -, hred⟩ := Option.bind_eq_some_iff.1 hred
      obtain rfl := Option.some.inj hred
      exact hset hc hm' fun _ hP => hops hP hb
    | port =>
      simp only [hk] at hred
      obtain ⟨j, -, hred⟩ := Option.bind_eq_some_iff.1 hred
      obtain rfl := Option.some.inj hred
      exact hset hc hm' fun _ hP => hports hP

/-- A wire with a field that flows against it, and a memory, both with an annotation that is scoped to a path. -/
def scopedBody : Body where
  values := #[⟨.bundle [⟨"a", false, .bundle [⟨"x", false, .uint 1⟩]⟩, ⟨"b", true, .uint 1⟩], .result ⟨0⟩ 0, []⟩]
  ops := #[⟨.wire { name := some "w", annotations := [⟨"c", none, some "p", []⟩] }, [], [⟨0⟩], Body.entry, false⟩,
    ⟨.mem ⟨{ name := some "m", annotations := [⟨"c", none, some "p", []⟩] }, .bundle [⟨"a", false, .uint 1⟩], 2, 0, 1,
      .undefined, []⟩, [], [], Body.entry, false⟩]
  blocks := #[⟨[⟨0⟩, ⟨1⟩], none⟩]
  args := []

/-- A circuit of one module with that body. -/
def scopedCircuit : Circuit where
  name := "M"
  modules := [⟨"M", true, [], [], some scopedBody⟩]
  paths := []

theorem scopedCircuit_built : scopedCircuit.Built := by
  intro m hm b hb
  obtain rfl := List.mem_singleton.1 hm
  obtain rfl := Option.some.inj hb
  exact ⟨⟨Body.entry, 2⟩, .call (.mem ⟨{ name := some "m", annotations := [⟨"c", none, some "p", []⟩] },
    .bundle [⟨"a", false, .uint 1⟩], 2, 0, 1, .undefined, []⟩) (.call (.wire (.bundle [⟨"a", false,
      .bundle [⟨"x", false, .uint 1⟩]⟩, ⟨"b", true, .uint 1⟩]) { name := some "w", annotations := [⟨"c", none, some "p", []⟩] })
    (.start ⟨Body.entry, 0⟩ rfl) rfl) rfl⟩

/-- A node whose result is not of the type of its operand, with an annotation that is scoped to a path. -/
def scopedNodeBody : Body where
  values := #[⟨.bundle [⟨"x", false, .uint 1⟩], .argument, [⟨⟨0⟩, 0⟩]⟩,
    ⟨.bundle [⟨"x", false, .bundle [⟨"z", false, .uint 1⟩]⟩], .result ⟨0⟩ 0, []⟩]
  ops := #[⟨.node { name := some "n", annotations := [⟨"c", none, some "p", []⟩] }, [⟨0⟩], [⟨1⟩], Body.entry, false⟩]
  blocks := #[⟨[⟨0⟩], none⟩]
  args := [⟨0⟩]

/-- A circuit of one module with that body. -/
def scopedNodeCircuit : Circuit where
  name := "M"
  modules := [⟨"M", true, [⟨"a", .bundle [⟨"x", false, .uint 1⟩], .input, none, []⟩], [], some scopedNodeBody⟩]
  paths := []

/-- The operation `x` was made meanwhile, stands, and declares something with scoped annotations but no symbol. -/
def Unlabelled (B b : Body) (x : OpId) (name : String) : Prop :=
  B.op? x = none ∧ ∃ op ∈ b.op? x, op.erased = false ∧
    ∃ d ∈ op.kind.decl?, d.name = some name ∧ ScopedToPath d.annotations ∧ d.sym = none

instance (B b : Body) (x : OpId) (name : String) : Decidable (Unlabelled B b x name) := by
  unfold Unlabelled
  infer_instance

end Circuit

end Scalarize
