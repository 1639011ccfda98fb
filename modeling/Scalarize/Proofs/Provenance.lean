import Scalarize.Proofs.Symbols
import Scalarize.Proofs.Tracking

/-!
# Where targets come from

Whatever the types in a body are, targets are recorded for symbols that the module carried at first, and every
target has a symbol that was made meanwhile.

* `Symbols.Stems` : a symbol from which parts may derive theirs;
* `Symbols.Recorded` : what is recorded, and with which property of targets; `Symbols.Recorded.labelsPart` : a part
  gets its symbol;
* `Body.Recorded`, `Body.recorded_events` : targets are declarations of the body, and every edit keeps that;
* `Module.recorded_lower` : targets are found in the lowered module.
-/

namespace Scalarize

open Body

/-! ## The record -/

namespace Symbols

variable {m : Module} {P P' : Target → Prop} {y y' : Symbols} {s : String} {sym? parent? : Option String}
  {place : TargetKind} {part : Part}

/-- The symbol descends from one that the module carried at first, or from one that is nobody's target. -/
def Stems (m : Module) (y : Symbols) (s : String) : Prop :=
  s ∈ y.names.taken ∧ (y.root s ∈ m.syms ∨ y.root s ∈ y.detachedSyms)

/-- Only symbols that the module carried at first have targets: some, with the property `P` and with symbols that
were made meanwhile, each its own. -/
structure Recorded (m : Module) (P : Target → Prop) (y : Symbols) : Prop where
  moduleName : y.moduleName = m.name
  rooted : y.Rooted
  own : ∀ s ∈ m.syms, s ∈ y.names.taken ∧ y.root s = s ∧ s ∉ y.detachedSyms
  keys : y.targets.keys.Nodup
  targets : ∀ {r ts}, y.targets.get? r = some ts → r ∈ m.syms ∧ ts ≠ [] ∧ (ts.map (·.sym)).Nodup ∧
    ∀ t ∈ ts, P t ∧ t.sym ∈ y.names.taken ∧ t.sym ∉ m.syms

theorem Stems.gains (h : y.Stems m s) (hy : y.Rooted) (hg : y.Gains sym? y') : y'.Stems m s := by
  refine ⟨hg.mem h.1, ?_⟩
  rw [hg.root s h.1]
  exact h.2.imp_right fun hd => (hg.detached _ (hy.detached hd)).2 hd

namespace Recorded

theorem start (m : Module) (P : Target → Prop) (generated : Nat) : (ofModule m generated).Recorded m P where
  moduleName := rfl
  rooted := ⟨Partition.star_empty, nofun, nofun⟩
  own _ hs := ⟨mem_taken_ofModule.2 hs, rfl, List.not_mem_nil⟩
  keys := List.nodup_nil
  targets := nofun

/-- Parts may derive their symbols from those that the module carried at first. -/
theorem stems (h : y.Recorded m P) (hs : s ∈ m.syms) : y.Stems m s := by
  obtain ⟨htaken, hroot, -⟩ := h.own s hs
  exact ⟨htaken, .inl (hroot.symm ▸ hs)⟩

theorem mono (h : y.Recorded m P) (hP : ∀ t, P t → P' t) : y.Recorded m P' where
  moduleName := h.moduleName
  rooted := h.rooted
  own := h.own
  keys := h.keys
  targets hget := by
    obtain ⟨hr, hne, hnd, hall⟩ := h.targets hget
    exact ⟨hr, hne, hnd, fun t ht => (hall t ht).imp_left (hP t)⟩

/-- A symbol is made that is nobody's target. -/
theorem gains (h : y.Recorded m P) (hg : y.Gains sym? y') (ht : y'.targets = y.targets) : y'.Recorded m P where
  moduleName := hg.moduleName.trans h.moduleName
  rooted := hg.rooted
  own s hs := by
    obtain ⟨htaken, hroot, hdet⟩ := h.own s hs
    exact ⟨hg.mem htaken, (hg.root s htaken).trans hroot, fun hd => hdet ((hg.detached s htaken).1 hd)⟩
  keys := ht ▸ h.keys
  targets hget := by
    obtain ⟨hr, hne, hnd, hall⟩ := h.targets (ht ▸ hget)
    exact ⟨hr, hne, hnd, fun t hmem => (hall t hmem).imp_right (And.imp_left hg.mem)⟩

/-- A symbol is made that is a target of a symbol that the module carried at first. -/
theorem adjust {t : Target} {r : String} (h : y.Recorded m P) (hg : y.Gains (some t.sym) y') (hr : r ∈ m.syms)
    (ht : y'.targets = y.targets.adjust r [] (· ++ [t])) (hP : P t) : y'.Recorded m P := by
  have hnew : t.sym ∉ y.names.taken := hg.new _ rfl
  have hold : ∀ u ∈ (y.targets.get? r).getD [], P u ∧ u.sym ∈ y.names.taken ∧ u.sym ∉ m.syms := by
    cases hget : y.targets.get? r with
    | none => exact nofun
    | some ts => exact (h.targets hget).2.2.2
  have hnodup : (((y.targets.get? r).getD []).map (·.sym)).Nodup := by
    cases hget : y.targets.get? r with
    | none => exact List.nodup_nil
    | some ts => exact (h.targets hget).2.2.1
  have hkeep : ∀ u, P u ∧ u.sym ∈ y.names.taken ∧ u.sym ∉ m.syms → P u ∧ u.sym ∈ y'.names.taken ∧ u.sym ∉ m.syms :=
    fun u hu => hu.imp_right (And.imp_left hg.mem)
  have hbase : Symbols.Recorded m P { y' with targets := y.targets } := h.gains ⟨hg.moduleName,
    ⟨hg.rooted.star, hg.rooted.tracked, hg.rooted.detached⟩, hg.taken, hg.new, hg.root, hg.detached⟩ rfl
  refine ⟨hbase.moduleName, hg.rooted, hbase.own, ?_, fun {r' ts} hget => ?_⟩
  · rw [ht, Assoc.adjust, Assoc.keys_put]
    split
    · exact h.keys
    next hmem => exact List.nodup_append'.2 ⟨h.keys, List.nodup_singleton _, List.disjoint_singleton.2 hmem⟩
  · rw [ht, Assoc.adjust, Assoc.get?_put] at hget
    split at hget
    next heq =>
      subst heq
      obtain rfl := Option.some.inj hget
      refine ⟨hr, by simp, ?_, fun u hu => ?_⟩
      · rw [List.map_append]
        refine List.nodup_append'.2 ⟨hnodup, List.nodup_singleton _, ?_⟩
        refine List.disjoint_singleton.2 fun hmem => hnew ?_
        obtain ⟨u, hu, heq⟩ := List.mem_map.1 hmem
        exact (show u.sym = t.sym from heq) ▸ (hold u hu).2.1
      · rcases List.mem_append.1 hu with hu | hu
        · exact hkeep u (hold u hu)
        · obtain rfl := List.mem_singleton.1 hu
          exact ⟨hP, hg.mem_new rfl, fun hs => hnew (h.own _ hs).1⟩
    next => exact hbase.targets hget

/-- A part gets its symbol: it derives it from a symbol with `Stems`, or it is nobody's target. -/
theorem labelsPart (h : y.Recorded m P) (hl : y.LabelsPart place part parent? sym? y')
    (hbase : ∀ base, parent? = some base → y.Stems m base)
    (hP : ∀ base s, parent? = some base → sym? = some s → part.ty.isGround = true → P ⟨s, place⟩) :
    y'.Recorded m P ∧ y.Gains sym? y' ∧ ∀ s, sym? = some s → y'.Stems m s := by
  cases hl with
  | none => exact ⟨h, .refl h.rooted, nofun⟩
  | detached name =>
    have hg := gains_detached h.rooted name part.suffix
    refine ⟨h.gains hg (targets_detached y name part.suffix), hg, fun s hs => ?_⟩
    obtain rfl := Option.some.inj hs
    refine ⟨hg.mem_new rfl, .inr ?_⟩
    rw [root_detached h.rooted]
    exact mem_detachedSyms_detached y name part.suffix
  | derived base =>
    obtain ⟨hbt, hbr⟩ := hbase base rfl
    obtain ⟨hg, hroot, htargets⟩ := derive_spec h.rooted hbt part.suffix part.ty.isGround place
    refine ⟨?_, hg, fun s hs => ?_⟩
    · split at htargets
      next hrec => exact h.adjust hg (hbr.resolve_right hrec.2) htargets (hP base _ rfl rfl hrec.1)
      next => exact h.gains hg htargets
    · obtain rfl := Option.some.inj hs
      refine ⟨hg.mem_new rfl, ?_⟩
      rw [hroot]
      exact hbr.imp_right fun hd => (hg.detached _ (h.rooted.detached hd)).2 hd

end Recorded

end Symbols

/-! ## Bodies -/

/-- Symbol from which the parts of an operation derive theirs; an instance has no parts. -/
def OpKind.base? : OpKind → Option String
  | .inst _ => none
  | kind => kind.decl?.bind (·.sym)

theorem OpKind.base?_eq {kind : OpKind} (h : ∀ i, kind ≠ .inst i) : kind.base? = kind.decl?.bind (·.sym) := by
  cases kind with
  | inst i => exact absurd rfl (h i)
  | _ => rfl

theorem OpKind.sym_of_base? {kind : OpKind} {s : String} (h : kind.base? = some s) :
    kind.decl?.bind (·.sym) = some s := by
  cases kind with
  | inst i => cases h
  | _ => exact h

/-- Operations that are made on the way have no symbol from which parts could derive theirs. -/
theorem OpKind.Plain.base? {kind : OpKind} (h : kind.Plain) : kind.base? = none := by
  cases hb : kind.base? with
  | none => rfl
  | some s =>
    have hs := sym_of_base? hb
    rw [h.sym] at hs
    cases hs

namespace Body

variable {cx : Context} {m : Module} {C : OpId → Prop} {b b' b₀ : Body} {y y' y₀ : Symbols} {o x : OpId}
  {op : Operation} {s : String} {sym? parent? : Option String} {part : Part}

/-- Symbol from which the parts of an operation that stands derive theirs. -/
def base? (b : Body) (x : OpId) : Option String := (b.standing? x).bind OpKind.base?

/-- Targets are declarations of the body, and the operations with `C` derive the symbols of their parts from symbols
with `Stems`. -/
structure Recorded (m : Module) (C : OpId → Prop) (b : Body) (y : Symbols) : Prop where
  symbols : y.Recorded m fun t => ∃ o, t.kind = .operation o ∧ b.Declared o
  stems : ∀ {x s}, C x → b.base? x = some s → y.Stems m s

namespace Recorded

/-- Declarations stay, and no operation has a symbol that it did not have before. -/
theorem less (h : b.Recorded m C y) (hd : ∀ {x}, b.Declared x → b'.Declared x)
    (hs : ∀ {x s}, b'.base? x = some s → b.base? x = some s) : b'.Recorded m C y where
  symbols := h.symbols.mono fun _ ⟨x, hk, hx⟩ => ⟨x, hk, hd hx⟩
  stems hC hx := h.stems hC (hs hx)

/-- A part gets its symbol, and the operation that makes it is the only one with that symbol. -/
theorem labelsPart (h : b.Recorded m C y) (b' : Body) (hl : y.LabelsPart (.operation x) part parent? sym? y')
    (hbase : ∀ base, parent? = some base → y.Stems m base) (hd : ∀ {x}, b.Declared x → b'.Declared x)
    (hx : parent?.isSome → b'.Declared x)
    (hs : ∀ {x' s}, b'.base? x' = some s → b.base? x' = some s ∨ sym? = some s) :
    b'.Recorded m C y' ∧ y.Gains sym? y' := by
  have hsymbols : y.Recorded m fun t => ∃ o, t.kind = .operation o ∧ b'.Declared o :=
    h.symbols.mono fun _ ⟨x, hk, hx⟩ => ⟨x, hk, hd hx⟩
  obtain ⟨hrec, hg, hnew⟩ := hsymbols.labelsPart hl hbase fun base s hb _ _ => ⟨x, rfl, hx (by rw [hb]; rfl)⟩
  refine ⟨⟨hrec, fun hC hbx => ?_⟩, hg⟩
  rcases hs hbx with hbx | hsym
  · exact (h.stems hC hbx).gains h.symbols.rooted hg
  · exact hnew _ hsym

end Recorded

/-! ### What edits do to declarations and their symbols -/

theorem Created.base? {p : Point} {kind : OpKind} {vs : List ValueId} {tys : List Ty}
    (h : Created b p kind vs tys x b') (x' : OpId) :
    b'.base? x' = if x' = x then kind.base? else b.base? x' := by
  unfold Body.base?
  rw [h.standing?]
  split <;> rfl

theorem Created.base?_none {p : Point} {kind : OpKind} {vs : List ValueId} {tys : List Ty} {x' : OpId}
    (h : Created b p kind vs tys x b') (hk : kind.base? = none) (hs : b'.base? x' = some s) :
    b.base? x' = some s := by
  rw [h.base?] at hs
  split at hs
  · rw [hk] at hs
    cases hs
  · exact hs

theorem Created.declared_old {p : Point} {kind : OpKind} {vs : List ValueId} {tys : List Ty} {x' : OpId}
    (h : Created b p kind vs tys x b') (hd : b.Declared x') : b'.Declared x' :=
  hd.persists h.extended.persists

theorem Created.declared_self {p : Point} {kind : OpKind} {vs : List ValueId} {tys : List Ty}
    (h : Created b p kind vs tys x b') (hk : kind.decl?.isSome) : b'.Declared x := ⟨_, h.op?_self, hk⟩

theorem Declared.modifyDecl {x' : OpId} (h : b.Declared x') (x : OpId) (f : Decl → Decl) :
    (b.modifyDecl x f).Declared x' := by
  obtain ⟨op, hop, hd⟩ := h
  obtain ⟨kind, hop', hbare⟩ := op?_modifyDecl_some (o := x) (f := f) hop
  exact ⟨_, hop', by rw [isSome_decl?_of_bare_eq hbare]; exact hd⟩

/-- A declaration may have got another symbol. -/
theorem base?_of_modifyDecl {f : Decl → Decl} {x' : OpId} (hs : (b.modifyDecl x f).base? x' = some s) :
    b.base? x' = some s ∧ x' ≠ x ∨ ∃ d, (f d).sym = some s := by
  unfold Body.base? at hs ⊢
  rw [standing?_modifyDecl] at hs
  split at hs
  next =>
    obtain ⟨k, hk, hb⟩ := Option.bind_eq_some_iff.1 hs
    obtain ⟨k₀, -, rfl⟩ := Option.map_eq_some_iff.1 hk
    have hsym := OpKind.sym_of_base? hb
    rw [OpKind.decl?_mapDecl] at hsym
    obtain ⟨d, hd, hsym⟩ := Option.bind_eq_some_iff.1 hsym
    obtain ⟨d₀, -, rfl⟩ := Option.map_eq_some_iff.1 hd
    exact .inr ⟨d₀, hsym⟩
  next hne => exact .inl ⟨hs, hne⟩

theorem base?_of_standing? (h : ∀ {k}, b'.standing? x = some k → b.standing? x = some k)
    (hs : b'.base? x = some s) : b.base? x = some s := by
  unfold Body.base? at hs ⊢
  obtain ⟨k, hk, hs⟩ := Option.bind_eq_some_iff.1 hs
  rw [h hk]
  exact hs

theorem Copies.base? {kind : OpKind} {ty : Ty} (h : b.Copies op part kind ty) :
    op.kind.base? = op.kind.decl?.bind (·.sym) := by
  refine OpKind.base?_eq fun i hi => ?_
  have hbare := h.bare (by rw [hi]; rfl)
  have hplain := h.plain
  rw [hi] at hbare
  cases kind with
  | inst => exact hplain.elim
  | _ => cases hbare

/-! ### Lowering one operation -/

/-- While an operation is lowered, targets are declarations with symbols that were made meanwhile. -/
theorem recorded_events : Events cx b₀ o op fun _ b y =>
    b.Recorded m C y ∧ ∀ s, op.kind.base? = some s → y.Stems m s where
  create _ hS hk hc := ⟨hS.1.less hc.declared_old (hc.base?_none hk.base?), hS.2⟩
  guard _ hS hc := ⟨hS.1.less hc.declared_old (hc.base?_none rfl), hS.2⟩
  part {_ _ _ _ y kind _ _ _ x _ part r} _ hS _ _ hcopies hc hr := by
    obtain ⟨hrec, hstems⟩ := hS
    have hl := ((op.kind.decl?.getD {}).labelsPart part r y x).1
    have hbase : ∀ base, (op.kind.decl?.getD {}).sym = some base → op.kind.base? = some base := fun base hb => by
      rw [hcopies.base?]
      cases hd : op.kind.decl? with
      | none => rw [hd] at hb; cases hb
      | some d => rw [hd] at hb; exact hb
    have hkind : (op.kind.decl?.getD {}).sym.isSome → kind.decl?.isSome := fun hsome => by
      have hd : op.kind.decl?.isSome := by
        cases hd : op.kind.decl? with
        | none => rw [hd] at hsome; cases hsome
        | some d => rfl
      rw [isSome_decl?_of_bare_eq (hcopies.bare hd)]
      exact hd
    obtain ⟨hrec', hg⟩ := hrec.labelsPart (Body.modifyDecl _ x _) hl (fun base hb => hstems base (hbase base hb))
      (fun hd => (hc.declared_old hd).modifyDecl x _)
      (fun hsome => (hc.declared_self (hkind hsome)).modifyDecl x _) fun {x' s} hs => by
        rcases base?_of_modifyDecl hs with ⟨hs, hne⟩ | ⟨_, hsym⟩
        · rw [hc.base?, if_neg hne] at hs
          exact .inl hs
        · exact .inr hsym
    exact ⟨hrec', fun s hs => (hstems s hs).gains hrec.symbols.rooted hg⟩
  memory {_ _ _ _ y m' part m'' _ x _} _ hS hk _ _ hm' hc := by
    obtain ⟨hrec, hstems⟩ := hS
    have hnone : (OpKind.mem m'').base? = none := Memory.sym_narrow hm'
    unfold Memory.forPart
    split
    next base hb =>
      obtain ⟨hrec', hg⟩ := hrec.labelsPart (Body.modifyDecl _ x fun d =>
          { d with sym := some (y.derive base part.suffix part.ty.isGround (.operation x)).1 })
        (show y.LabelsPart (.operation x) part (some base) _ _ from .derived base)
        (fun _ hs => hstems _ (by rw [hk, ← Option.some.inj hs]; exact hb))
        (fun hd => (hc.declared_old hd).modifyDecl x _)
        (fun _ => (hc.declared_self rfl).modifyDecl x _) fun {x' s} hs => by
          rcases base?_of_modifyDecl hs with ⟨hs, -⟩ | ⟨_, hsym⟩
          · exact .inl (hc.base?_none hnone hs)
          · exact .inr hsym
      exact ⟨hrec', fun s hs => (hstems s hs).gains hrec.symbols.rooted hg⟩
    next => exact ⟨hrec.less hc.declared_old (hc.base?_none hnone), hstems⟩
  inst {y i _ splits _ x _} hS hk _ _ hc _ := by
    obtain ⟨hrec, hstems⟩ := hS
    have hless := hrec.less hc.declared_old (hc.base?_none rfl)
    unfold Instance.renamed
    split
    · have hg := Symbols.gains_fresh hrec.symbols.rooted ("sym" ++ i.decl.name.getD "")
      exact ⟨⟨hless.symbols.gains hg rfl, fun hC hs => (hless.stems hC hs).gains hrec.symbols.rooted hg⟩,
        fun s hs => (hstems s hs).gains hrec.symbols.rooted hg⟩
    · exact ⟨hless, hstems⟩
  replace _ hS hr := ⟨hS.1.less (fun hd => hd.outlives hr.outlives)
    (base?_of_standing? fun hk => hr.standing? _ ▸ hk), hS.2⟩
  drop _ hS hf _ hd := ⟨hS.1.less (fun hdecl => hdecl.outlives (hd.outlives hf))
    (base?_of_standing? (hd.standing?_some hf)), hS.2⟩

/-- Targets are declarations with symbols that were made meanwhile, while a body is lowered. -/
theorem Recorded.keptBySteps (hb₀ : b₀.Coherent) (m : Module) :
    KeptBySteps cx b₀ fun b y => b.Recorded m b₀.Counts y := by
  rintro t o op k A B hedited hrec hop hw - - -
  have hstands := erased_of_stands hop hw.stands
  refine recorded_events.lowersTo hedited.coherent hop ⟨hrec, fun s hs => ?_⟩ fun hT _ => hT.1
  refine hrec.stems (hedited.counts hb₀ hw) ?_
  unfold Body.base?
  rw [standing?_of_op? hop hstands]
  exact hs

end Body

/-! ## Ports -/

/-- Ports get their symbols one after the other; those that are ground may be targets. -/
theorem Port.Narrows.recorded {m : Module} {P : Target → Prop} {p : Port} {parts : List Part} {y y' : Symbols}
    {new : List Port} (h : p.Narrows parts y new y') (hy : y.Recorded m P)
    (hp : ∀ s, p.sym = some s → y.Stems m s) :
    y'.Recorded m (fun t => P t ∨ t.kind = .port ∧ ∃ n ∈ new, n.ty.isGround ∧ n.sym = some t.sym) ∧
      (∀ s, y.Stems m s → y'.Stems m s) ∧ ∀ n ∈ new, ∀ s, n.sym = some s → y'.Stems m s := by
  induction h with
  | nil => exact ⟨hy.mono fun _ => .inl, fun _ => id, nofun⟩
  | @snoc _ part _ y₁ _ new n _ hlast ih =>
    obtain ⟨hrec, hkeep, hnew⟩ := ih hy hp
    have hty : n.ty = part.ty := ty_of_narrow hlast
    have hrec' : y₁.Recorded m fun t => P t ∨ t.kind = .port ∧ ∃ n' ∈ new ++ [n], n'.ty.isGround ∧
        n'.sym = some t.sym := hrec.mono fun t ht => ht.imp_right <| And.imp_right fun ⟨n', hn', hrest⟩ =>
      ⟨n', List.mem_append_left _ hn', hrest⟩
    obtain ⟨hrec'', hg, hlabel⟩ := hrec'.labelsPart (Port.labelsPart hlast).1 (fun s hs => hkeep s (hp s hs))
      fun base s _ hs hground => .inr ⟨rfl, n, List.mem_append_right _ List.mem_cons_self, hty ▸ hground, hs⟩
    refine ⟨hrec'', fun s hs => (hkeep s hs).gains hrec.rooted hg, fun n' hn' s hs => ?_⟩
    rcases List.mem_append.1 hn' with hn' | hn'
    · exact (hnew n' hn' s hs).gains hrec.rooted hg
    · rw [List.mem_singleton.1 hn'] at hs
      exact hlabel s hs

/-! ## Modules -/

namespace Module

variable {cx : Context} {m m' : Module} {y : Symbols} {generated : Nat}

/-- Targets are found, and ports derive the symbols of their parts from symbols with `Stems`. -/
structure Recorded (m : Module) (ps : List Port) (s : PortState) : Prop where
  symbols : s.symbols.Recorded m (Target.Found s.body ps)
  stems : ∀ p ∈ ps, ∀ t, p.sym = some t → s.symbols.Stems m t
  coherent : ∀ b, s.body = some b → b.Coherent

/-- Splitting a port keeps targets in their places: no target is split again. -/
theorem Recorded.edits (m : Module) (keep : Bool) : PortEdits keep m.Recorded where
  split {A B p s parts new y body} h hpeel hnew hbody := by
    obtain ⟨hrec, hkeep, hstems⟩ := hnew.recorded h.symbols (h.stems p (by simp))
    have hground : p.ty.isGround = false := ((Ty.peel_ends (nofun : False → _)).of_ok hpeel).1.aggregate
    have hsplit : ∀ b', body = some b' → ∃ b, s.body = some b ∧ b.Rearranged b' := fun b' hb' => by
      unfold SplitsArgument at hbody
      cases hb : s.body with
      | none =>
        rw [hb] at hbody
        rw [hbody] at hb'
        cases hb'
      | some b =>
        rw [hb] at hbody
        obtain ⟨b'', hb'', rfl⟩ := hbody
        obtain rfl := Option.some.inj hb'
        exact ⟨b, rfl, (splitArgument_ends (h.coherent b hb) _ _).of_ok hb''⟩
    refine ⟨hrec.mono fun t ht => ?_, fun q hq t ht => ?_, fun b hb => ?_⟩
    · rcases ht with ht | ⟨hk, n, hn, hrest⟩
      · unfold Target.Found at ht ⊢
        cases hk : t.kind with
        | operation o =>
          rw [hk] at ht
          obtain ⟨b, hb, op, hop, hd⟩ := ht
          obtain ⟨b', hb'⟩ : ∃ b', body = some b' := by
            unfold SplitsArgument at hbody
            rw [hb] at hbody
            obtain ⟨b', -, hb'⟩ := hbody
            exact ⟨b', hb'⟩
          obtain ⟨b₁, hb₁, hre⟩ := hsplit b' hb'
          obtain rfl := Option.some.inj (hb.symm.trans hb₁)
          obtain ⟨op', hop', hkind, -⟩ := hre.op? hop
          exact ⟨b', hb', op', hop', hkind ▸ hd⟩
        | port =>
          rw [hk] at ht
          obtain ⟨q, hq, hqg, hqs⟩ := ht
          refine ⟨q, ?_, hqg, hqs⟩
          simp only [List.mem_append, List.mem_cons] at hq ⊢
          rcases hq with hq | rfl | hq
          · exact .inl (.inl hq)
          · rw [hground] at hqg
            cases hqg
          · exact .inr hq
      · unfold Target.Found
        rw [hk]
        exact ⟨n, List.mem_append_left _ (List.mem_append_right _ hn), hrest⟩
    · simp only [List.mem_append] at hq
      rcases hq with (hq | hq) | hq
      · exact hkeep t (h.stems q (List.mem_append_left _ hq) t ht)
      · exact hstems q hq t ht
      · exact hkeep t (h.stems q (List.mem_append_right _ (List.mem_cons_of_mem _ hq)) t ht)
    · obtain ⟨b₁, -, hre⟩ := hsplit b hb
      exact hre.coherent

/-- Once a module is lowered, only symbols that it carried before have targets, and every target is found there, with
a symbol that it did not carry before. -/
theorem recorded_lower (hm : m.Reachable) : Ends False (m.lower cx generated) fun r =>
    r.1.name = m.name ∧ r.2.Recorded m (Target.Found r.1.body r.1.ports) := by
  have hports : ∀ {y : Symbols} {P : Target → Prop}, y.Recorded m P → ∀ p ∈ m.ports, ∀ t, p.sym = some t →
      y.Stems m t := fun hy p hp t ht =>
    hy.stems (List.mem_append_left _ (List.mem_filterMap.2 ⟨p, hp, ht⟩))
  refine (lower_any (S := fun b₀ b y => b.Recorded m b₀.Counts y) (fun hb => (hm hb).coherent)
    (fun {b} hb => ⟨Body.Recorded.keptBySteps (hm hb).coherent m, .start m _ generated, fun {x s} hC hs => ?_⟩)
    (Recorded.edits m _) (fun _ => ⟨.start m _ generated, hports (.start m (fun _ => True) generated), nofun⟩)
    fun {b₀ b y} hb hedited hrec _ => ⟨hrec.symbols.mono fun t ⟨o, hk, hd⟩ => ?_, hports hrec.symbols, ?_⟩).mono ?_
  · -- operations that count carry symbols of the module
    have hcoherent := (hm hb).coherent
    obtain ⟨k, hk, hbase⟩ := Option.bind_eq_some_iff.1 hs
    obtain ⟨op, hop, -⟩ := standing?_eq_some_iff.1 hk
    refine (Symbols.Recorded.start m (fun _ => True) generated).stems ?_
    rw [syms_eq_of_some hcoherent hb]
    refine List.mem_append_right _ (List.mem_filterMap.2 ⟨x, hcoherent.mem_walk_iff.2 (hC (by rw [hop]; rfl)), ?_⟩)
    unfold Body.sym?
    rw [hk]
    exact OpKind.sym_of_base? hbase
  · unfold Target.Found
    rw [hk]
    exact ⟨b, rfl, hd⟩
  · intro b' hb'
    obtain rfl := Option.some.inj hb'
    exact hedited.coherent
  · rintro ⟨m', y⟩ ⟨⟨body, hJ, heq⟩, -⟩
    refine ⟨(congrArg Module.name heq :), hJ.symbols.mono fun t ht => ?_⟩
    have hbody : m'.body = body.map compact := congrArg Module.body heq
    unfold Target.Found at ht ⊢
    cases hk : t.kind with
    | operation o =>
      rw [hk] at ht
      obtain ⟨b, rfl, hd⟩ := ht
      exact ⟨b.compact, hbody, hd⟩
    | port =>
      rw [hk] at ht
      exact ht

end Module

end Scalarize
