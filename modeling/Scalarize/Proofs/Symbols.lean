import Mathlib.Data.List.Pairwise
import Scalarize.Proofs.Edits.Standing
import Scalarize.Proofs.Completeness
import Scalarize.Proofs.Reachable

/-!
# Inner symbols stay apart

* `Symbols.Mints` : symbols were made, none of which was taken;
* `Body.Distinct` : operations carry symbols that are taken, each its own; `Body.Distinct.events` : every
  edit keeps that;
* `Module.nodup_syms_lower` : a lowered module carries each symbol once.
-/

namespace Scalarize

open Body

/-! ## Symbols that were made -/

/-- Symbols were made, one after the other; none of them was taken. -/
structure Symbols.Mints (y : Symbols) (minted : List String) (y' : Symbols) : Prop where
  taken : y'.names.taken = minted ++ y.names.taken
  nodup : minted.Nodup
  new : ∀ s ∈ minted, s ∉ y.names.taken

namespace Symbols.Mints

variable {y y' y'' : Symbols} {l l' : List String} {sym? : Option String} {s : String}

theorem refl (y : Symbols) : y.Mints [] y := ⟨rfl, .nil, nofun⟩

theorem labels (h : y.Mints l y') (hl : y'.Labels sym? y'') : y.Mints (sym?.toList ++ l) y'' := by
  cases hl with
  | none => exact h
  | some taken new =>
    rw [h.taken, List.mem_append, not_or] at new
    refine ⟨by rw [taken, h.taken]; rfl, List.nodup_cons.2 ⟨new.1, h.nodup⟩, fun s hs => ?_⟩
    rcases List.mem_cons.1 hs with rfl | hs
    · exact new.2
    · exact h.new s hs

theorem trans (h : y.Mints l y') (h' : y'.Mints l' y'') : y.Mints (l' ++ l) y'' where
  taken := by rw [h'.taken, h.taken, List.append_assoc]
  nodup := by
    refine List.nodup_append.2 ⟨h'.nodup, h.nodup, ?_⟩
    rintro s hs _ hs' rfl
    exact h'.new s hs (by rw [h.taken]; exact List.mem_append_left _ hs')
  new s hs hmem := by
    rcases List.mem_append.1 hs with hs | hs
    · exact h'.new s hs (by rw [h.taken]; exact List.mem_append_right _ hmem)
    · exact h.new s hs hmem

theorem mem (h : y.Mints l y') (hs : s ∈ y.names.taken) : s ∈ y'.names.taken := by
  rw [h.taken]
  exact List.mem_append_right _ hs

end Symbols.Mints

theorem Symbols.Labels.mem {y y' : Symbols} {sym? : Option String} {s : String} (h : y.Labels sym? y')
    (hs : s ∈ y.names.taken) : s ∈ y'.names.taken := by
  cases h with
  | none => exact hs
  | some taken => rw [taken]; exact List.mem_cons_of_mem _ hs

/-- At first the symbols that the module carries are taken. -/
theorem Symbols.mem_taken_ofModule {m : Module} {generated : Nat} {s : String} :
    s ∈ (ofModule m generated).names.taken ↔ s ∈ m.syms := by
  refine NamePool.mem_foldl_reserve.trans ⟨fun h => ?_, .inl⟩
  rcases h with h | h
  · exact h
  · cases h

/-! ## Symbols that operations carry -/

namespace Body

variable {b b' b₀ : Body} {o x x' : OpId} {s : String} {y y' : Symbols} {C : OpId → Prop} {Q : List String}

/-- Symbol of an operation that stands. -/
def sym? (b : Body) (x : OpId) : Option String := (b.standing? x).bind fun k => k.decl?.bind (·.sym)

/-- The operations with `C` carry symbols that are taken, but not among `Q`, each its own. -/
structure Distinct (C : OpId → Prop) (Q : List String) (b : Body) (y : Symbols) : Prop where
  taken : ∀ {x s}, C x → b.sym? x = some s → s ∈ y.names.taken ∧ s ∉ Q
  unique : ∀ {x x' s}, C x → C x' → b.sym? x = some s → b.sym? x' = some s → x = x'
  others : ∀ s ∈ Q, s ∈ y.names.taken

namespace Distinct

/-- One operation more carries a symbol, which was just made. -/
theorem labels {new : Option String} (h : Distinct C Q b y) (hl : y.Labels new y')
    (hs : ∀ {x' s}, b'.sym? x' = some s → b.sym? x' = some s ∨ x' = x ∧ new = some s) :
    Distinct C Q b' y' where
  taken hC hx := by
    rcases hs hx with hx | ⟨rfl, rfl⟩
    · exact (h.taken hC hx).imp_left hl.mem
    · cases hl with
      | some taken new => exact ⟨by rw [taken]; exact List.mem_cons_self, fun hQ => new (h.others _ hQ)⟩
  unique {x₁ x₂ s} hC₁ hC₂ hx₁ hx₂ := by
    have hnew : ∀ {x'}, C x' → b.sym? x' = some s → new ≠ some s := by
      rintro x' hC hx rfl
      cases hl with
      | some _ new => exact new (h.taken hC hx).1
    rcases hs hx₁ with hx₁ | ⟨rfl, hn₁⟩ <;> rcases hs hx₂ with hx₂ | ⟨rfl, hn₂⟩
    · exact h.unique hC₁ hC₂ hx₁ hx₂
    · exact absurd hn₂ (hnew hC₁ hx₁)
    · exact absurd hn₁ (hnew hC₂ hx₂)
    · rfl
  others s hQ := hl.mem (h.others s hQ)

/-- No operation carries a symbol that it did not carry before. -/
theorem less (h : Distinct C Q b y) (hs : ∀ {x s}, b'.sym? x = some s → b.sym? x = some s) :
    Distinct C Q b' y :=
  h.labels (x := ⟨0⟩) .none fun hx => .inl (hs hx)

theorem mono {C' : OpId → Prop} (h : Distinct C Q b y) (hC : ∀ {x s}, C' x → b.sym? x = some s → C x) :
    Distinct C' Q b y where
  taken hx hs := h.taken (hC hx hs) hs
  unique hx hx' hs hs' := h.unique (hC hx hs) (hC hx' hs') hs hs'
  others := h.others

end Distinct

/-! ### Symbols after an edit -/

theorem Created.sym? {p : Point} {kind : OpKind} {vs : List ValueId} {tys : List Ty}
    (h : Created b p kind vs tys x b') (x' : OpId) :
    b'.sym? x' = if x' = x then kind.decl?.bind (·.sym) else b.sym? x' := by
  unfold Body.sym?
  rw [h.standing?]
  split <;> rfl

/-- A new operation carries no symbol. -/
theorem Created.sym?_some {p : Point} {kind : OpKind} {vs : List ValueId} {tys : List Ty}
    (h : Created b p kind vs tys x b') (hk : kind.decl?.bind (·.sym) = none) (hs : b'.sym? x' = some s) :
    b.sym? x' = some s := by
  rw [h.sym?] at hs
  split at hs
  · rw [hk] at hs
    cases hs
  · exact hs

theorem sym?_of_modifyDecl {f : Decl → Decl} (hs : (b.modifyDecl x f).sym? x' = some s) :
    x' = x ∧ (∃ d, (f d).sym = some s) ∨ x' ≠ x ∧ b.sym? x' = some s := by
  unfold sym? at hs ⊢
  rw [standing?_modifyDecl] at hs
  split at hs
  next heq =>
    refine .inl ⟨heq, ?_⟩
    cases hk : b.standing? x' with
    | none => rw [hk] at hs; cases hs
    | some k =>
      rw [hk, Option.map_some, Option.bind_some, OpKind.decl?_mapDecl] at hs
      cases hd : k.decl? with
      | none => rw [hd] at hs; cases hs
      | some d => rw [hd] at hs; exact ⟨d, hs⟩
  next hne => exact .inr ⟨hne, hs⟩

/-- A new operation carries the symbol of the declaration that it was given. -/
theorem Created.sym?_declared {p : Point} {kind : OpKind} {vs : List ValueId} {tys : List Ty} {d : Decl}
    (h : Created b p kind vs tys x b') (hs : (b'.modifyDecl x fun _ => d).sym? x' = some s) :
    b.sym? x' = some s ∨ x' = x ∧ d.sym = some s := by
  rcases sym?_of_modifyDecl hs with ⟨rfl, -, hd⟩ | ⟨hne, hs⟩
  · exact .inr ⟨rfl, hd⟩
  · rw [h.sym?, if_neg hne] at hs
    exact .inl hs

theorem sym?_of_standing? (h : ∀ {k}, b'.standing? x = some k → b.standing? x = some k)
    (hs : b'.sym? x = some s) : b.sym? x = some s := by
  unfold sym? at hs ⊢
  obtain ⟨k, hk, hs⟩ := Option.bind_eq_some_iff.1 hs
  rw [h hk]
  exact hs

end Body

theorem OpKind.Plain.sym {kind : OpKind} (h : kind.Plain) : kind.decl?.bind (·.sym) = none := by
  cases kind with
  | wire d | reg d | regReset d | node d => exact h.1
  | mem | inst => exact h.elim
  | _ => rfl

theorem Memory.sym_narrow {m m' : Memory} {part : Part} (h : m.narrow part = .ok m') :
    m'.decl.sym = none := by
  have hends : Ends False (m.narrow part) fun m' => m'.decl.sym = none :=
    Ends.bind (P := fun _ => True) (.intro (fun _ _ => trivial) nofun) fun _ _ => .pure rfl
  exact hends.of_ok h

/-- An instance that is made anew has a new symbol, or the one that it had. -/
theorem Instance.labels_renamed (i : Instance) (splits : List (ValueId × SplitPort)) (y : Symbols) :
    y.Labels (i.renamed splits y).1 (i.renamed splits y).2 ∨
      (i.renamed splits y).1 = i.decl.sym ∧ (i.renamed splits y).2 = y := by
  unfold renamed
  split
  · exact .inl (y.labels_fresh _)
  · exact .inr ⟨rfl, rfl⟩

/-! ### Lowering one operation -/

namespace Body

variable {cx : Context} {b₀ : Body} {y₀ : Symbols} {o : OpId} {op : Operation} {C : OpId → Prop}
  {Q : List String}

/-- While an operation is lowered, all but that one carry symbols of their own. -/
theorem Distinct.events (h : Distinct C Q b₀ y₀) (hop : b₀.op? o = some op) (hstands : op.erased = false)
    (hC : C o) : Events cx b₀ o op fun _ b y =>
      Distinct (fun x => C x ∧ x ≠ o) Q b y ∧ ∃ minted, y₀.Mints minted y where
  create _ hS hk hc := ⟨hS.1.less fun hs => hc.sym?_some hk.sym hs, hS.2⟩
  guard _ hS hc := ⟨hS.1.less fun hs => hc.sym?_some rfl hs, hS.2⟩
  part {_ _ _ _ y _ _ _ _ x _ part r} _ hS _ _ _ hc _ := by
    obtain ⟨hd, minted, hm⟩ := hS
    have hl := (op.kind.decl?.getD {}).labels_forPart part r y x
    exact ⟨hd.labels hl fun hs => hc.sym?_declared hs, _, hm.labels hl⟩
  memory {_ _ _ _ y m part m' _ x _} _ hS _ _ _ hm' hc := by
    obtain ⟨hd, minted, hm⟩ := hS
    unfold Memory.forPart
    split
    next base _ =>
      have hl := y.labels_derive base part.suffix part.ty.isGround (.operation x)
      refine ⟨hd.labels (x := x) hl fun hs => ?_, _, hm.labels hl⟩
      rcases sym?_of_modifyDecl hs with ⟨rfl, d, hd⟩ | ⟨hne, hs⟩
      · exact .inr ⟨rfl, hd⟩
      · rw [hc.sym?, if_neg hne] at hs
        exact .inl hs
    next => exact ⟨hd.less fun hs => hc.sym?_some (Memory.sym_narrow hm') hs, _, hm⟩
  inst {y i _ splits _ x _} hS hk _ _ hc _ := by
    obtain ⟨hd, minted, hm⟩ := hS
    rcases i.labels_renamed splits y with hl | ⟨hsym, hy⟩
    · refine ⟨hd.labels (x := x) hl fun {x' s} hs => ?_, _, hm.labels hl⟩
      rw [hc.sym?] at hs
      split at hs
      next heq => exact .inr ⟨heq, hs⟩
      next => exact .inl hs
    · -- the new instance has the symbol of the former one, which nothing else carries
      rw [hy]
      have ho : ∀ {s}, i.decl.sym = some s → b₀.sym? o = some s := fun hs => by
        unfold Body.sym?
        rw [standing?_of_op? hop hstands, hk]
        exact hs
      have hcases : ∀ {x' s}, Body.sym? _ x' = some s →
          x' ≠ x ∧ b₀.sym? x' = some s ∨ x' = x ∧ b₀.sym? o = some s := fun {x' s} hs => by
        rw [hc.sym?] at hs
        split at hs
        next heq => exact .inr ⟨heq, ho (hsym ▸ hs)⟩
        next hne => exact .inl ⟨hne, hs⟩
      refine ⟨⟨fun hx hs => ?_, fun hx hx' hs hs' => ?_, hd.others⟩, _, hm⟩
      · rcases hcases hs with ⟨-, hs⟩ | ⟨-, hs⟩
        · exact hd.taken hx hs
        · exact (h.taken hC hs).imp_left hm.mem
      · rcases hcases hs with ⟨-, hs⟩ | ⟨rfl, hs⟩ <;> rcases hcases hs' with ⟨-, hs'⟩ | ⟨rfl, hs'⟩
        · exact hd.unique hx hx' hs hs'
        · exact absurd (h.unique hx.1 hC hs hs') hx.2
        · exact absurd (h.unique hx'.1 hC hs' hs) hx'.2
        · rfl
  replace _ hS hr := ⟨hS.1.less fun hs => sym?_of_standing? (fun hk => hr.standing? _ ▸ hk) hs, hS.2⟩
  drop _ hS hf _ hd := ⟨hS.1.less fun hs => sym?_of_standing? (hd.standing?_some hf) hs, hS.2⟩

/-- Symbols stay apart while a body is lowered. -/
theorem Distinct.keptBySteps (hb₀ : b₀.Coherent) (y₀ : Symbols) (Q : List String) :
    KeptBySteps cx b₀ fun b y => Distinct b₀.Counts Q b y ∧ ∃ minted, y₀.Mints minted y := by
  rintro t o op k A B hedited ⟨hd, minted, hm⟩ hop hw - - -
  refine (hd.events hop (erased_of_stands hop hw.stands) (hedited.counts hb₀ hw)).lowersTo
    hedited.coherent hop ⟨hd.mono fun hx _ => hx.1, [], .refl t.symbols⟩ ?_
  rintro ps b y ⟨hT, minted', hm'⟩ hr
  refine ⟨hT.mono fun {x s} hx hs => ⟨hx, ?_⟩, _, hm.trans hm'⟩
  rintro rfl
  unfold Body.sym? at hs
  rw [hr.standing?] at hs
  cases hs

end Body

/-! ## Symbols that a module carries -/

theorem Port.Narrows.mints {p : Port} {parts : List Part} {y y' : Symbols} {new : List Port}
    (h : p.Narrows parts y new y') : ∃ minted, y.Mints minted y' ∧ (new.filterMap (·.sym)).Perm minted := by
  induction h with
  | nil y => exact ⟨[], .refl y, .nil⟩
  | snoc _ hlast ih =>
    obtain ⟨minted, hm, hp⟩ := ih
    refine ⟨_, hm.labels (labels_narrow hlast), ?_⟩
    rw [List.filterMap_append]
    refine (List.perm_append_comm).trans (List.Perm.append ?_ hp)
    cases hs : Port.sym _ <;> simp [hs]

/-- All ports carry symbols that are taken, each its own, and no operation of the body carries one of
them. -/
structure Module.Apart (m : Module) (y₀ : Symbols) (ps : List Port) (s : PortState) : Prop where
  nodup : (ps.filterMap (·.sym)).Nodup
  taken : ∀ t ∈ ps.filterMap (·.sym), t ∈ s.symbols.names.taken
  mints : ∃ minted, y₀.Mints minted s.symbols
  body : ∀ b, s.body = some b → ∃ b₀, m.body = some b₀ ∧ b₀.Edited b ∧
    b.Distinct b₀.Counts (ps.filterMap (·.sym)) s.symbols

namespace Module

variable {cx : Context} {m m' : Module} {y : Symbols} {generated : Nat}

/-- Splitting a port keeps symbols apart. -/
theorem Apart.edits (m : Module) (y₀ : Symbols) (keep : Bool) : PortEdits keep (m.Apart y₀) where
  split {A B p s parts new y body} h _ hnew hbody := by
    obtain ⟨minted, hm, hperm⟩ := hnew.mints
    have hmem : ∀ {t}, t ∈ (A ++ new ++ B).filterMap (·.sym) →
        t ∈ (A ++ p :: B).filterMap (·.sym) ∨ t ∈ minted := fun {t} ht => by
      simp only [List.filterMap_append, List.filterMap_cons, List.mem_append] at ht ⊢
      rcases ht with (ht | ht) | ht
      · exact .inl (.inl ht)
      · exact .inr (hperm.mem_iff.1 ht)
      · refine .inl (.inr ?_)
        split
        · exact ht
        · exact List.mem_cons_of_mem _ ht
    have htaken : ∀ t ∈ (A ++ new ++ B).filterMap (·.sym), t ∈ y.names.taken := fun t ht => by
      rcases hmem ht with ht | ht
      · exact hm.mem (h.taken t ht)
      · rw [hm.taken]
        exact List.mem_append_left _ ht
    refine ⟨?_, htaken, ?_, fun b hb => ?_⟩
    · have hAB : (A.filterMap (·.sym) ++ B.filterMap (·.sym)).Nodup := by
        refine h.nodup.sublist ?_
        rw [List.filterMap_append]
        refine (List.Sublist.refl _).append (List.Sublist.filterMap _ (List.sublist_cons_self p B))
      have hsub : ∀ {t}, t ∈ A.filterMap (·.sym) ++ B.filterMap (·.sym) →
          t ∈ s.symbols.names.taken := fun {t} ht => h.taken t <| by
        rw [← List.filterMap_append] at ht
        exact (List.Sublist.filterMap (·.sym) ((List.Sublist.refl A).append
          (List.sublist_cons_self p B))).subset ht
      have hperm' : ((A ++ new ++ B).filterMap (·.sym)).Perm
          (minted ++ (A.filterMap (·.sym) ++ B.filterMap (·.sym))) := by
        rw [List.filterMap_append, List.filterMap_append]
        refine (List.perm_append_comm.append_right _).trans ?_
        rw [List.append_assoc]
        exact hperm.append_right _
      rw [hperm'.nodup_iff, List.nodup_append]
      refine ⟨hm.nodup, hAB, ?_⟩
      rintro t ht _ ht' rfl
      exact hm.new t ht (hsub ht')
    · obtain ⟨l, hl⟩ := h.mints
      exact ⟨_, hl.trans hm⟩
    · obtain ⟨b₁, hb₁, hsplit⟩ : ∃ b₁, s.body = some b₁ ∧ b₁.Rearranged b := by
        unfold SplitsArgument at hbody
        split at hbody
        next => rw [hbody] at hb; cases hb
        next b₁ hb₁ =>
          obtain ⟨b', hb', rfl⟩ := hbody
          obtain rfl := Option.some.inj hb
          obtain ⟨b₀, -, hedited, -⟩ := h.body b₁ hb₁
          exact ⟨b₁, hb₁, (splitArgument_ends hedited.coherent _ _).of_ok hb'⟩
      obtain ⟨b₀, hb₀, hedited, hd⟩ := h.body b₁ hb₁
      have hd' := hd.less fun hs => sym?_of_standing? hsplit.standing?_some hs
      refine ⟨b₀, hb₀, hedited.trans hsplit.edited, ⟨fun hC hs => ?_, hd'.unique, htaken⟩⟩
      obtain ⟨hin, hout⟩ := hd'.taken hC hs
      refine ⟨hm.mem hin, fun hmem' => ?_⟩
      rcases hmem hmem' with hmem' | hmem'
      · exact hout hmem'
      · exact hm.new _ hmem' hin

/-- The symbols of a walk. -/
theorem filterMap_walk (b : Body) (hb : b.Coherent) :
    (b.walk.filterMap fun o => (b.kind? o).bind fun k => k.decl?.bind (·.sym)) =
      b.walk.filterMap b.sym? := by
  refine List.filterMap_congr fun x hx => ?_
  unfold Body.sym?
  rw [(hb.mem_walk_iff.1 hx).standing?]

theorem nodup_filterMap_iff {α : Type} {l : List α} (hl : l.Nodup) {f : α → Option String} :
    (l.filterMap f).Nodup ↔ ∀ a ∈ l, ∀ a' ∈ l, ∀ s, f a = some s → f a' = some s → a = a' := by
  unfold List.Nodup
  rw [List.pairwise_filterMap]
  constructor
  · intro h a ha a' ha'
    have : Std.Symm fun a a' => ∀ s, f a = some s → f a' = some s → a = a' :=
      ⟨fun _ _ h s hs hs' => (h s hs' hs).symm⟩
    refine List.Pairwise.forall_of_forall (R := fun a a' => ∀ s, f a = some s → f a' = some s → a = a')
      (fun _ _ _ _ _ => rfl) (h.imp ?_) ha ha'
    exact fun h s hs hs' => absurd rfl (h s hs s hs')
  · intro h
    refine hl.imp_of_mem fun {a a'} ha ha' hne s hs s' hs' => ?_
    rintro rfl
    exact hne (h a ha a' ha' s hs hs')

theorem syms_eq_of_some {b : Body} (hb : b.Coherent) (h : m.body = some b) :
    m.syms = m.ports.filterMap (·.sym) ++ b.walk.filterMap b.sym? := by
  rw [← filterMap_walk b hb]
  unfold syms
  rw [h]

/-- At first symbols are apart. -/
theorem Apart.start (h : m.Reachable) (hs : m.syms.Nodup) (generated : Nat) {b : Body} (hb : m.body = some b) :
    b.Distinct b.Counts (m.ports.filterMap (·.sym)) (Symbols.ofModule m generated) := by
  have hcoherent := (h hb).coherent
  have hsyms := syms_eq_of_some hcoherent hb
  rw [hsyms, List.nodup_append] at hs
  have hwalk : ∀ {x s}, b.Counts x → b.sym? x = some s → x ∈ b.walk := fun {x s} hC hx => by
    refine hcoherent.mem_walk_iff.2 (hC ?_)
    obtain ⟨k, hk, -⟩ := Option.bind_eq_some_iff.1 hx
    obtain ⟨op, hop, -⟩ := standing?_eq_some_iff.1 hk
    rw [hop]
    rfl
  refine ⟨fun hC hx => ⟨?_, fun hQ => ?_⟩, fun hC hC' hx hx' => ?_, fun s hQ => ?_⟩
  · rw [Symbols.mem_taken_ofModule, hsyms]
    exact List.mem_append_right _ (List.mem_filterMap.2 ⟨_, hwalk hC hx, hx⟩)
  · exact hs.2.2 _ hQ _ (List.mem_filterMap.2 ⟨_, hwalk hC hx, hx⟩) rfl
  · exact (nodup_filterMap_iff hcoherent.nodup_walk).1 hs.2.1 _ (hwalk hC hx) _ (hwalk hC' hx') _ hx hx'
  · rw [Symbols.mem_taken_ofModule, hsyms]
    exact List.mem_append_left _ hQ

/-- Symbols are apart in every lowered module. -/
theorem lower_apart (h : m.Reachable) (hs : m.syms.Nodup) :
    Ends False (m.lower cx generated) fun r =>
      m.LowersTo cx (m.Apart (Symbols.ofModule m generated)) r.1 r.2 := by
  have hports : (m.ports.filterMap (·.sym)).Nodup := (List.nodup_append.1 hs).1
  have htaken : ∀ t ∈ m.ports.filterMap (·.sym), t ∈ (Symbols.ofModule m generated).names.taken :=
    fun t ht => Symbols.mem_taken_ofModule.2 (List.mem_append_left _ ht)
  refine lower_any (S := fun b₀ b y => b.Distinct b₀.Counts (m.ports.filterMap (·.sym)) y ∧
      ∃ minted, (Symbols.ofModule m generated).Mints minted y)
    (fun hb => (h hb).coherent) (fun hb => ⟨Body.Distinct.keptBySteps (h hb).coherent _ _,
      Apart.start h hs generated hb, [], .refl _⟩) (Apart.edits m _ _) (fun hb => ?_) ?_
  · exact ⟨hports, htaken, ⟨[], .refl _⟩, nofun⟩
  · rintro b₀ b y hb hedited ⟨hd, hminted⟩ -
    refine ⟨hports, hd.others, hminted, fun b' hb' => ?_⟩
    obtain rfl := Option.some.inj hb'
    exact ⟨b₀, hb, hedited, hd⟩

/-- A module carries each symbol once if its symbols are apart. -/
theorem Apart.nodup_syms {y₀ : Symbols} (hm : m.Reachable) (h : m.LowersTo cx (m.Apart y₀) m' y) :
    m'.syms.Nodup ∧ ∀ s ∈ m'.syms, s ∈ y.names.taken := by
  obtain ⟨body, hJ, heq⟩ := h.state
  have hbody : m'.body = body.map compact := by rw [heq]
  cases hb : body with
  | none =>
    have hsyms : m'.syms = m'.ports.filterMap (·.sym) := by
      unfold syms
      rw [hbody, hb]
      exact List.append_nil _
    rw [hsyms]
    exact ⟨hJ.nodup, hJ.taken⟩
  | some b =>
    obtain ⟨b₀, hb₀, hedited, hd⟩ := hJ.body b hb
    have hcoherent₀ := (hm hb₀).coherent
    have hsyms : m'.syms = m'.ports.filterMap (·.sym) ++ b.walk.filterMap b.sym? := by
      rw [syms_eq_of_some hedited.coherent.compact (by rw [hbody, hb]; rfl), walk_compact]
      rfl
    have hcounts : ∀ {x}, x ∈ b.walk → b₀.Counts x := fun hx =>
      hedited.counts hcoherent₀ (hedited.coherent.mem_walk_iff.1 hx)
    rw [hsyms, List.nodup_append]
    refine ⟨⟨hJ.nodup, ?_, ?_⟩, fun s hs => ?_⟩
    · rw [nodup_filterMap_iff hedited.coherent.nodup_walk]
      exact fun x hx x' hx' s hs hs' => hd.unique (hcounts hx) (hcounts hx') hs hs'
    · rintro s hs _ hs' rfl
      obtain ⟨x, hx, hxs⟩ := List.mem_filterMap.1 hs'
      exact (hd.taken (hcounts hx) hxs).2 hs
    · rcases List.mem_append.1 hs with hs | hs
      · exact hJ.taken s hs
      · obtain ⟨x, hx, hxs⟩ := List.mem_filterMap.1 hs
        exact (hd.taken (hcounts hx) hxs).1

/-- A module whose ports and standing declarations carry each symbol once is lowered into such a module.
The symbols that are made meanwhile are new, each made once, and all others were carried before. -/
theorem nodup_syms_lower (hm : m.Reachable) (hs : m.syms.Nodup)
    (h : m.lower cx generated = .ok (m', y)) :
    m'.syms.Nodup ∧ ∃ minted, y.names.taken = minted ++ (Symbols.ofModule m generated).names.taken ∧
      minted.Nodup ∧ (∀ s ∈ minted, s ∉ m.syms) ∧ ∀ s ∈ m'.syms, s ∈ m.syms ∨ s ∈ minted := by
  have hl : m.LowersTo cx (m.Apart (Symbols.ofModule m generated)) m' y := (lower_apart hm hs).of_ok h
  obtain ⟨hnodup, htaken⟩ := Apart.nodup_syms hm hl
  obtain ⟨body, hJ, -⟩ := hl.state
  obtain ⟨minted, hm'⟩ := hJ.mints
  refine ⟨hnodup, minted, hm'.taken, hm'.nodup, fun s hs hmem => ?_, fun s hs => ?_⟩
  · exact hm'.new s hs (Symbols.mem_taken_ofModule.2 hmem)
  · have := htaken s hs
    rw [hm'.taken, List.mem_append, Symbols.mem_taken_ofModule] at this
    exact this.symm

/-- A port of one field with a symbol, and a node with the symbol that the field would get. -/
def symModule : Module where
  name := "M"
  isPublic := true
  ports := [⟨"a", .bundle [⟨"x", false, .uint 1⟩], .input, some "s", []⟩]
  annotations := []
  body := some (nodeBody.modifyDecl ⟨0⟩ fun d => { d with sym := some "s_x" })

theorem symModule_reachable : symModule.Reachable := fun {b} hb => by
  obtain rfl := Option.some.inj hb
  exact .edit (nodeCircuit_built.reachable _ List.mem_cons_self rfl) (.declare _ _ _)

theorem nodup_syms_lower_node : ∃ r, symModule.lower ⟨{}, []⟩ 0 = .ok r ∧ r.1.syms.Nodup ∧
    ∃ minted, r.2.names.taken = minted ++ (Symbols.ofModule symModule 0).names.taken ∧
      minted.Nodup ∧ (∀ s ∈ minted, s ∉ symModule.syms) ∧
      ∀ s ∈ r.1.syms, s ∈ symModule.syms ∨ s ∈ minted := by
  have hok : (symModule.lower ⟨{}, []⟩ 0).isOk := by decide +kernel
  cases hr : symModule.lower ⟨{}, []⟩ 0 with
  | error => rw [hr] at hok; cases hok
  | ok r => exact ⟨r, rfl, nodup_syms_lower symModule_reachable (by decide +kernel) hr⟩

end Module

end Scalarize
