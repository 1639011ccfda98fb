import Scalarize.Proofs.Descent
import Scalarize.Proofs.Stage

/-!
# Descent while a body is lowered

* `restrict_spec`, `Decl.labelsPart`, `Memory.narrow_spec`, `Port.labelsPart` : what carriers of parts carry;
* `Body.Carries` : ports, and operations of a body, as carriers;
* `Body.events_of_plain`, `Body.events_of_inst`, `Body.events_of_declared` : what every edit does to them;
* `Descent.lowersTo` : descent is kept when an operation is lowered by one layer.
-/

namespace Scalarize

open Body Lower

/-! ## What parts carry -/

namespace Annotation

theorem onPart_path {a : Annotation} {part : Part} {last : Nat} {s : Share} {a' : Annotation}
    (h : a.onPart part last = .ok s) (ha : s.carried? = some a') : a'.path = a.path := by
  have hends : Ends False (a.onPart part last) fun s => ∀ a', s.carried? = some a' → a'.path = a.path := by
    unfold onPart
    split
    · refine .map (Ends.mono (P := fun a' => a'.path = a.path) ?_ fun a' ha' a'' he =>
        Option.some.inj he ▸ ha')
      unfold spread
      split
      · exact .pure rfl
      · exact Ends.bind (P := fun _ => True) (.intro (fun _ _ => trivial) False.elim) fun _ _ => .pure rfl
    · exact .pure fun a' he => Option.some.inj he ▸ rfl
    · split
      · exact .pure fun _ he => absurd he.symm (Option.some_ne_none _)
      split
      · exact .pure fun a' he => Option.some.inj he ▸ rfl
      split
      · exact .pure fun _ he => absurd he.symm (Option.some_ne_none _)
      · exact .pure fun a' he => Option.some.inj he ▸ rfl
  exact hends.of_ok h a' ha

end Annotation

/-- Annotations of a part are scoped to paths of annotations of the whole; where there are none, the part
has none, and needs no symbol. -/
theorem restrict_spec {annotations : List Annotation} {part : Part} {r : Restricted}
    (h : restrict annotations part = .ok r) :
    (∀ a ∈ r.annotations, ∃ a' ∈ annotations, a'.path = a.path) ∧ (annotations = [] → r.needsSym = false) := by
  have hends : Ends False (restrict annotations part) fun r =>
      (∀ a ∈ r.annotations, ∃ a' ∈ annotations, a'.path = a.path) ∧
        (annotations = [] → r.needsSym = false) := by
    refine Ends.bind (P := fun _ => True) (.intro (fun _ _ => trivial) nofun) fun below _ => ?_
    refine Ends.bind (P := fun _ => True) (.intro (fun _ _ => trivial) nofun) fun last _ => ?_
    refine Ends.bind (Ends.mapM (fun (a : Annotation) s => a.onPart part last = .ok s) annotations
      fun a _ => .intro (fun _ hs => hs) nofun) fun shares hs => .pure ⟨fun a ha => ?_, ?_⟩
    · obtain ⟨s, hsm, hc⟩ := List.mem_filterMap.1 ha
      obtain ⟨a', ha', hp⟩ := exists_of_forall₂ hs hsm
      have hpath := Annotation.onPart_path hp hc
      exact ⟨a', ha', hpath.symm⟩
    · rintro rfl
      cases hs
      rfl
  exact hends.of_ok h

theorem Decl.labelsPart (d : Decl) (part : Part) (r : Restricted) (y : Symbols) (x : OpId) :
    y.LabelsPart (.operation x) part d.sym (d.forPart part r y x).1.sym (d.forPart part r y x).2 ∧
      (d.forPart part r y x).1.annotations = r.annotations := by
  unfold forPart
  cases d.sym with
  | some base => exact ⟨.derived base, rfl⟩
  | none =>
    dsimp only
    split
    · exact ⟨.detached d.name, rfl⟩
    · exact ⟨.none, rfl⟩

/-- The symbols stay as they are where there is nothing to declare. -/
theorem Decl.forPart_empty {part : Part} {r : Restricted} (hr : r.needsSym = false) (y : Symbols) (x : OpId) :
    (({} : Decl).forPart part r y x).2 = y := by
  unfold forPart
  simp [hr]

/-- The memory of a part has the annotations of the memory, and no symbol yet. -/
theorem Memory.narrow_spec {m m' : Memory} {part : Part} (h : m.narrow part = .ok m') :
    m'.dataType = part.ty ∧ m'.decl.annotations = m.decl.annotations ∧ m'.decl.sym = none := by
  have hends : Ends False (m.narrow part) fun m' => m'.dataType = part.ty ∧
      m'.decl.annotations = m.decl.annotations ∧ m'.decl.sym = none :=
    Ends.bind (P := fun _ => True) (.intro (fun _ _ => trivial) nofun) fun _ _ => .pure ⟨rfl, rfl, rfl⟩
  exact hends.of_ok h

theorem Port.labelsPart {p n : Port} {part : Part} {y y' : Symbols} (h : p.narrow part y = .ok (n, y')) :
    y.LabelsPart .port part p.sym n.sym y' ∧ ∀ a ∈ n.annotations, ∃ a' ∈ p.annotations, a'.path = a.path := by
  have hends : Ends False (p.narrow part y) fun r => y.LabelsPart .port part p.sym r.1.sym r.2 ∧
      ∀ a ∈ r.1.annotations, ∃ a' ∈ p.annotations, a'.path = a.path := by
    refine Ends.bind (P := fun r => restrict p.annotations part = .ok r) (.intro (fun _ hr => hr) nofun)
      fun r hr => ?_
    have hpath := (restrict_spec hr).1
    cases p.sym with
    | some base => exact .pure ⟨.derived base, hpath⟩
    | none =>
      dsimp only
      split
      · exact .pure ⟨.detached _, hpath⟩
      · exact .pure ⟨.none, hpath⟩
  exact hends.of_ok h

/-! ## Carriers of a body -/

/-- The ports `ports`, and the declarations of the operations with `C`. -/
def Body.Carries (ports : List Carrier) (keep : Bool) (C : OpId → Prop) (b : Body) (e : Carrier) : Prop :=
  e ∈ ports ∨ ∃ x, C x ∧ b.carrier? keep x = some e

namespace Body

variable {ports : List Carrier} {keep : Bool} {C : OpId → Prop} {b b' : Body} {x : OpId} {o : OpId} {e : Carrier}

theorem carries_congr (h : ∀ x, C x → b'.carrier? keep x = b.carrier? keep x) :
    b'.Carries ports keep C = b.Carries ports keep C := by
  funext e
  refine propext (or_congr_right (exists_congr fun x => and_congr_right fun hx => ?_))
  rw [h x hx]

/-- A new operation may be a carrier more. -/
theorem carries_created (ports : List Carrier) (keep : Bool) (o : OpId) {new : Option Carrier}
    (h : ∀ x', b'.carrier? keep x' = if x' = x then new else b.carrier? keep x') (hx : b.op? x = none)
    (ho : (b.op? o).isSome) (e : Carrier) :
    b'.Carries ports keep (· ≠ o) e ↔ b.Carries ports keep (· ≠ o) e ∨ new = some e := by
  have hxo : x ≠ o := by
    rintro rfl
    rw [hx] at ho
    cases ho
  have hold : ∀ {x'}, b.carrier? keep x' = some e → x' ≠ x := by
    rintro x' hx' rfl
    obtain ⟨op, -, hop, -⟩ := carrier?_eq_some_iff.1 hx'
    rw [hx] at hop
    cases hop
  constructor
  · rintro (hp | ⟨x', hne, hx'⟩)
    · exact .inl (.inl hp)
    · rw [h] at hx'
      split at hx'
      · exact .inr hx'
      · exact .inl (.inr ⟨x', hne, hx'⟩)
  · rintro ((hp | ⟨x', hne, hx'⟩) | hnew)
    · exact .inl hp
    · exact .inr ⟨x', hne, by rw [h, if_neg (hold hx')]; exact hx'⟩
    · exact .inr ⟨x, hxo, by rw [h, if_pos rfl]; exact hnew⟩

end Body

/-! ## Lowering one operation -/

/-- Operations that are made on the way carry no symbol and no annotation. -/
theorem OpKind.Plain.carrier? {kind : OpKind} (h : kind.Plain) {keep : Bool} {x : OpId} {first : Option Ty}
    {c : Carrier} (hc : kind.carrier? keep x first = some c) : c.sym = none ∧ c.annotations = [] := by
  obtain ⟨d, hd, rfl⟩ := Option.map_eq_some_iff.1 hc
  cases kind with
  | wire | reg | regReset | node => obtain rfl := Option.some.inj hd; exact h
  | mem | inst => exact h.elim
  | _ => cases hd

theorem OpKind.carrier?_eq_none {kind : OpKind} (h : kind.decl? = none) (keep : Bool) (x : OpId)
    (first : Option Ty) : kind.carrier? keep x first = none := by
  rw [carrier?, h, Option.map_none]

section

variable {options : Options} {m : Module} {E E' : Carrier → Prop} {left : String → List Ty} {y : Symbols}

/-- Carriers may come that have no symbol and no annotation. -/
theorem Descent.extend (h : Descent options m E left y) {new : Option Carrier}
    (hnew : ∀ c, new = some c → c.sym = none ∧ c.annotations = []) (hE : ∀ e, E' e ↔ E e ∨ new = some e) :
    Descent options m E' left y := by
  cases new with
  | none =>
    obtain rfl : E' = E := funext fun e => propext ((hE e).trans (by simp))
    exact h
  | some c =>
    obtain ⟨hs, ha⟩ := hnew c rfl
    have hg : y.Gains c.sym y := by
      rw [hs]
      exact .refl h.rooted
    refine h.add hg (fun e => (hE e).trans (or_congr_right (by rw [Option.some.injEq, eq_comm]))) ?_
      (.inr ⟨rfl, ?_⟩) ?_ ?_
    · rw [hs]
      nofun
    · rw [hs]
      nofun
    · rw [ha]
      nofun
    · rw [hs]
      exact fun _ _ _ _ => rfl

theorem Parting.extend {e : Carrier} {rest : List Part} (h : Parting options m E e rest y)
    {new : Option Carrier} (hnew : ∀ c, new = some c → c.sym = none ∧ c.annotations = [])
    (hE : ∀ e, E' e ↔ E e ∨ new = some e) : Parting options m E' e rest y :=
  ⟨h.descent.extend hnew hE, h.taken, h.root, h.keep, h.annotated⟩

end

namespace Body

variable {cx : Context} {m : Module} {ports : List Carrier} {b₀ : Body} {o : OpId} {op : Operation} {y₀ : Symbols}

/-- Edits, other than those by which carriers come, do not change the carriers. -/
theorem carries_dropped {keep : Bool} {b b' : Body} {x : OpId} {f : Bool → Bool} (hf : f true = true)
    (hx : f false = true → x ≠ o → ∀ op, b.op? x = some op → op.kind.isAccessor = true)
    (hd : Dropped b x f b') : b'.Carries ports keep (· ≠ o) = b.Carries ports keep (· ≠ o) := by
  refine carries_congr fun x' hne => hd.carrier? hf ?_
  rintro rfl hff op hop
  have hacc := hx hff hne op hop
  revert hacc
  cases op.kind <;> simp [OpKind.isAccessor, OpKind.decl?]

/-- While an operation without a declaration is lowered, nothing that matters comes or goes. -/
theorem events_of_plain (hd : op.kind.decl? = none) (hop : b₀.op? o = some op) :
    Events cx b₀ o op fun _ b y =>
      Descent cx.options m (b.Carries ports cx.options.preserveAggregate (· ≠ o)) (fun _ => []) y where
  create hb hS hk hc := by
    obtain ⟨op', hop', -⟩ := hb.op? hop
    exact hS.extend (fun c => hk.carrier?) (carries_created _ _ _ (hc.carrier? hb.coherent) hc.fresh (by rw [hop']; rfl))
  guard hb hS hc := by
    obtain ⟨op', hop', -⟩ := hb.op? hop
    refine hS.extend (fun c hc' => ?_) (carries_created _ _ _ (hc.carrier? hb.coherent) hc.fresh (by rw [hop']; rfl))
    rw [OpKind.carrier?_eq_none rfl] at hc'
    cases hc'
  part {_ _ _ _ y kind _ _ _ x _ _ r} hb hS _ _ hcopies hc hr := by
    obtain ⟨op', hop', -⟩ := hb.op? hop
    rw [hd, Option.getD_none] at hr ⊢
    rw [Decl.forPart_empty ((restrict_spec hr).2 rfl)]
    refine hS.extend (fun c hc' => ?_)
      (carries_created _ _ _ (hc.carrier?_declared hb.coherent _) hc.fresh (by rw [hop']; rfl))
    rw [OpKind.carrier?_eq_none (by rw [OpKind.decl?_mapDecl, hcopies.decl? hd, Option.map_none])] at hc'
    cases hc'
  memory _ _ hk := by
    rw [hk] at hd
    cases hd
  inst _ hk := by
    rw [hk] at hd
    cases hd
  replace _ hS hr := by rwa [carries_congr fun x _ => hr.carrier? x]
  drop _ hS hf hx hd := by rwa [carries_dropped hf hx hd]

/-- The type of the operand of a node agrees with that of its result. -/
def NodeTyped (b : Body) (op : Operation) : Prop :=
  ∀ d, op.kind = .node d → ∃ v r s t, op.operands[0]? = some v ∧ op.results[0]? = some r ∧
    b.ty? v = some s ∧ b.ty? r = some t ∧ s.Agree t

/-- Where types are as they should be, what stands for a part has the type of the part. -/
theorem Copies.ty_eq {b : Body} {keep : Bool} {part : Part} {kind : OpKind} {ty : Ty} {ps : List Part}
    (h : b.Copies op part kind ty) (hb : b₀.Edited b) (hd : op.kind.decl?.isSome) (hnode : b₀.NodeTyped op)
    (hdiv : b₀.Divides keep op ps) (hpart : part ∈ ps) : ty = part.ty := by
  by_cases hn : ∃ d, op.kind = .node d
  · obtain ⟨d, hk⟩ := hn
    obtain ⟨v, t, hv, ht, hchild⟩ := h.node d hk
    obtain ⟨v', r, s, t', hv', hr, hs, ht', hag⟩ := hnode d hk
    obtain rfl := Option.some.inj (hv.symm.trans hv')
    obtain rfl := Option.some.inj (ht.symm.trans (hb.ty? hs))
    unfold Divides at hdiv
    rw [hk] at hdiv
    obtain ⟨r', t'', keep', hr', ht'', hpeel, -⟩ := hdiv
    obtain rfl := Option.some.inj (hr.symm.trans hr')
    obtain rfl := Option.some.inj (ht'.symm.trans ht'')
    have hps := ((Ty.peel_ends (nofun : False → _)).of_ok hpeel).1
    obtain rfl := hag.symm.eq_of_not_isGround hps.aggregate
    obtain ⟨i, hi⟩ := List.mem_iff_getElem?.1 hpart
    rw [hps.index hi, hps.child hi] at hchild
    exact (Option.some.inj hchild).symm
  · exact h.type hd fun d hk => hn ⟨d, hk⟩

/-- The carrier that an operation is which stands for a part of a declaration. -/
theorem Copies.carrier? {b : Body} {part : Part} {kind : OpKind} {ty : Ty} (h : b.Copies op part kind ty)
    (hd : op.kind.decl?.isSome) (new : Decl) (keep : Bool) (x : OpId) :
    (kind.mapDecl fun _ => new).carrier? keep x (some ty) =
      some ⟨.operation x, new.sym, new.annotations, some ty, op.kind.keeps keep⟩ := by
  have hbare := h.bare hd
  have hkeeps : kind.keeps keep = op.kind.keeps keep := by
    rw [← OpKind.keeps_mapDecl (fun _ => {}) kind, ← OpKind.keeps_mapDecl (fun _ => {}) op.kind]
    exact congrArg (OpKind.keeps keep) hbare
  have hd' : kind.decl?.isSome := by rw [isSome_decl?_of_bare_eq hbare, hd]
  unfold OpKind.carrier?
  rw [OpKind.decl?_mapDecl, OpKind.holds?_mapDecl, OpKind.keeps_mapDecl, hkeeps]
  have hplain := h.plain
  cases kind with
  | wire | reg | regReset | node => rfl
  | mem | inst => exact hplain.elim
  | _ => cases hd'

/-- While a declaration is lowered, it gives way to its parts. -/
theorem events_of_declared {eo : Carrier} (hop : b₀.op? o = some op) (hd : op.kind.decl?.isSome)
    (hinst : ∀ i, op.kind ≠ .inst i) (hnode : b₀.NodeTyped op)
    (heo : b₀.carrier? cx.options.preserveAggregate o = some eo) :
    Events cx b₀ o op fun ps b y => ∀ ps' rest, b₀.Divides cx.options.preserveAggregate op ps' →
      ps' = ps ++ rest → Parting cx.options m (b.Carries ports cx.options.preserveAggregate (· ≠ o)) eo rest y where
  create hb hS hk hc _ _ hdiv hps := by
    obtain ⟨op', hop', -⟩ := hb.op? hop
    exact (hS _ _ hdiv hps).extend (fun c => hk.carrier?)
      (carries_created _ _ _ (hc.carrier? hb.coherent) hc.fresh (by rw [hop']; rfl))
  guard hb hS hc _ _ hdiv hps := by
    obtain ⟨op', hop', -⟩ := hb.op? hop
    refine (hS _ _ hdiv hps).extend (fun c hc' => ?_)
      (carries_created _ _ _ (hc.carrier? hb.coherent) hc.fresh (by rw [hop']; rfl))
    rw [OpKind.carrier?_eq_none rfl] at hc'
    cases hc'
  part {ps _ _ _ y kind _ ty _ x _ part r} hb hS _ _ hcopies hc hr ps' rest hdiv hps := by
    obtain ⟨op', hop', -⟩ := hb.op? hop
    obtain ⟨d, hd'⟩ := Option.isSome_iff_exists.1 hd
    rw [hd', Option.getD_some] at hr ⊢
    obtain rfl := hcopies.ty_eq hb hd hnode hdiv (hps ▸ by simp : part ∈ ps')
    obtain ⟨op₀, d₀, hop₀, -, hd₀, rfl⟩ := carrier?_eq_some_iff.1 heo
    obtain rfl := Option.some.inj (hop.symm.trans hop₀)
    obtain rfl := Option.some.inj (hd'.symm.trans hd₀)
    obtain ⟨hl, hann⟩ := d.labelsPart part r y x
    refine (hS ps' (part :: rest) hdiv (by simpa using hps)).label hl r.annotations (fun e => ?_)
      fun a ha p hp => ?_
    · have hE := carries_created ports cx.options.preserveAggregate o
        (hc.carrier?_declared hb.coherent
          fun _ => (d.forPart part r y x).1) hc.fresh (by rw [hop']; rfl) e
      rw [hE, List.getElem?_cons_zero, hcopies.carrier? hd, hann, Option.some.injEq, eq_comm (b := e)]
    · obtain ⟨a', ha', hp'⟩ := (restrict_spec hr).1 a ha
      exact ⟨a', ha', hp'.trans hp⟩
  memory {ps _ _ _ y m part m' _ x _} hb hS hk _ _ hm' hc ps' rest hdiv hps := by
    obtain ⟨op', hop', -⟩ := hb.op? hop
    obtain ⟨op₀, d₀, hop₀, -, hd₀, rfl⟩ := carrier?_eq_some_iff.1 heo
    obtain rfl := Option.some.inj (hop.symm.trans hop₀)
    rw [hk] at hd₀ hS ⊢
    obtain rfl := Option.some.inj hd₀
    obtain ⟨hty, hann, hsym⟩ := Memory.narrow_spec hm'
    have hparting := hS ps' (part :: rest) hdiv (by simpa using hps)
    -- the new memory is a carrier, with the symbol that it was given
    have hE (f : Decl → Decl) := carries_created ports cx.options.preserveAggregate o
      (hc.carrier?_declared hb.coherent f) hc.fresh (by rw [hop']; rfl)
    have hsame : ∀ a ∈ m.decl.annotations, ∀ p, a.path = some p → ∃ a' ∈ m.decl.annotations, a'.path = some p :=
      fun a ha p hp => ⟨a, ha, hp⟩
    unfold Memory.forPart
    cases hs : m.decl.sym with
    | some base =>
      rw [hs] at hparting
      refine hparting.label (.derived base) m.decl.annotations (fun e => ?_) hsame
      rw [hE, ← hty, ← hann]
      exact or_congr_right (Option.some_inj.trans eq_comm)
    | none =>
      rw [hs] at hparting
      refine hparting.label (Symbols.LabelsPart.none : y.LabelsPart (.operation x) part none none y) m.decl.annotations
        (fun e => ?_) hsame
      rw [carries_created _ _ _ (hc.carrier? hb.coherent) hc.fresh (by rw [hop']; rfl), ← hty, ← hann, ← hsym]
      exact or_congr_right (Option.some_inj.trans eq_comm)
  inst _ hk := absurd hk (hinst _)
  replace _ hS hr _ _ hdiv hps := by
    rw [carries_congr fun x _ => hr.carrier? x]
    exact hS _ _ hdiv hps
  drop _ hS hf hx hd _ _ hdiv hps := by
    rw [carries_dropped hf hx hd]
    exact hS _ _ hdiv hps

/-- The carrier that an instance is. -/
theorem carrier?_inst {keep : Bool} {b : Body} {x : OpId} {i : Instance} {e : Carrier}
    (hx : b.op? x = some op) (hk : op.kind = .inst i) (he : b.carrier? keep x = some e) :
    e = ⟨.operation x, i.decl.sym, i.decl.annotations, none, keep⟩ := by
  obtain ⟨op', d, hop', -, hd, rfl⟩ := carrier?_eq_some_iff.1 he
  obtain rfl := Option.some.inj (hx.symm.trans hop')
  rw [hk] at hd ⊢
  obtain rfl := Option.some.inj hd
  rfl

/-- While an instance is lowered, it is made anew at once. -/
theorem events_of_inst {i : Instance} {eo : Carrier} (hb₀ : b₀.Coherent) (hop : b₀.op? o = some op)
    (hk : op.kind = .inst i) (heo : b₀.carrier? cx.options.preserveAggregate o = some eo) :
    Events cx b₀ o op fun ps b y => Descent cx.options m (fun e =>
      b.Carries ports cx.options.preserveAggregate (· ≠ o) e ∨ ps = [] ∧ e = eo) (fun _ => []) y where
  create {ps _ _ _ _ _ _ _ _} hb hS hk hc := by
    obtain ⟨op', hop', -⟩ := hb.op? hop
    exact hS.extend (fun c => hk.carrier?) fun e => (or_congr_left
      (carries_created _ _ _ (hc.carrier? hb.coherent) hc.fresh (by rw [hop']; rfl) e)).trans or_right_comm
  guard {ps _ _ _ _ _ _ _} hb hS hc := by
    obtain ⟨op', hop', -⟩ := hb.op? hop
    refine hS.extend (fun c (hc' : none = some c) => nomatch hc') fun e => ?_
    rw [carries_created _ _ _ (hc.carrier? hb.coherent) hc.fresh (by rw [hop']; rfl), OpKind.carrier?_eq_none rfl]
    exact or_right_comm
  part _ _ _ _ hcopies hc := by
    have hbare := hcopies.bare (by rw [hk]; rfl)
    have hplain := hcopies.plain
    revert hbare hplain
    rw [hk]
    cases ‹OpKind› <;> simp [OpKind.bare, OpKind.mapDecl, OpKind.Plain]
  memory _ _ hk' := by
    rw [hk] at hk'
    cases hk'
  inst {y i' entry splits p x b'} hS hk' _ _ hc part := by
    obtain rfl : i = i' := OpKind.inst.inj (hk.symm.trans hk')
    have heq := carrier?_inst hop hk heo
    have hE : ∀ e, b'.Carries ports cx.options.preserveAggregate (· ≠ o) e ∨ [part] = [] ∧ e = eo ↔
        b₀.Carries ports cx.options.preserveAggregate (· ≠ o) e ∨ e = ⟨.operation x, (i.renamed splits y).1,
          i.decl.annotations, none, cx.options.preserveAggregate⟩ := fun e => by
      refine (or_iff_left (by simp)).trans ((carries_created _ _ _ (hc.carrier? hb₀) hc.fresh (by rw [hop]; rfl) e).trans ?_)
      exact or_congr_right (Option.some_inj.trans eq_comm)
    have hrest : ∀ e, b₀.Carries ports cx.options.preserveAggregate (· ≠ o) e ∨ ([] : List Part) = [] ∧ e = eo →
        e = eo ∨ b₀.Carries ports cx.options.preserveAggregate (· ≠ o) e := fun e he => he.symm.imp_left And.right
    cases hs : i.decl.sym with
    | some s =>
      have hrenamed : i.renamed splits y = (some s, y) := by
        unfold Instance.renamed
        rw [hs]
        rfl
      rw [hrenamed] at hE ⊢
      refine hS.swap (.inr ⟨rfl, rfl⟩) (by rw [heq]) (by rw [heq, hs]) ⟨rfl, rfl, by rw [heq]⟩ (fun e he => ?_) (fun e he => ?_)
        ((hE _).2 (.inr rfl))
      · exact ((hE e).1 he).imp_left .inl
      · exact (hrest e he).imp_right fun he => (hE e).2 (.inl he)
    | none =>
      have hlabel : y.Gains (i.renamed splits y).1 (i.renamed splits y).2 ∧
          (i.renamed splits y).2.targets = y.targets ∧
          ∀ s, (i.renamed splits y).1 = some s → (i.renamed splits y).2.root s = s := by
        unfold Instance.renamed
        split
        · have hg := Symbols.gains_fresh hS.rooted ("sym" ++ i.decl.name.getD "")
          refine ⟨hg, rfl, fun s hs => ?_⟩
          exact hS.rooted.root_eq (hg.new s hs)
        · rw [hs]
          exact ⟨.refl hS.rooted, rfl, fun s hs => absurd hs.symm (Option.some_ne_none s)⟩
      obtain ⟨hg, htargets, hroot⟩ := hlabel
      exact hS.renew (.inr ⟨rfl, rfl⟩) (by rw [heq, hs]) ⟨rfl, by rw [heq]⟩ hg htargets hroot
        (fun e he => .inl he) hrest hE
  replace _ hS hr := by rwa [carries_congr fun x _ => hr.carrier? x]
  drop _ hS hf hx hd := by rwa [carries_dropped hf hx hd]

theorem carries_ne {keep : Bool} {b : Body} (h : b.carrier? keep o = none) :
    b.Carries ports keep (· ≠ o) = b.Carries ports keep fun _ => True := by
  funext e
  refine propext (or_congr_right (exists_congr fun x => and_congr_left fun hx => iff_of_true ?_ trivial))
  rintro rfl
  rw [h] at hx
  cases hx

theorem carrier?_of_erased {keep : Bool} {b : Body} {x : OpId} (h : ∀ {op}, b.op? x = some op → op.erased) :
    b.carrier? keep x = none := by
  unfold carrier?
  cases hx : b.op? x with
  | none => rfl
  | some op => rw [Option.bind_some, h hx, if_pos rfl]

/-- What a declaration is split into is what its carrier is. -/
theorem Divides.peel_eq {keep : Bool} {b : Body} {x : OpId} {e : Carrier} {ps : List Part}
    (h : b.Divides keep op ps) (hop : b.op? x = some op) (hinst : ∀ i, op.kind ≠ .inst i)
    (he : b.carrier? keep x = some e) : ∃ t, e.ty = some t ∧ t.peel e.keep = .ok (some ps) := by
  obtain ⟨op', d, hop', -, hd, rfl⟩ := carrier?_eq_some_iff.1 he
  obtain rfl := Option.some.inj (hop.symm.trans hop')
  unfold Divides at h
  cases hk : op.kind with
  | inst i => exact absurd hk (hinst i)
  | mem m =>
    rw [hk] at h
    exact ⟨m.dataType, rfl, h⟩
  | wire | reg | regReset | node =>
    rw [hk] at h
    obtain ⟨r, ty, keep', hr, hty, hpeel, hkeep⟩ := h
    obtain rfl := hkeep rfl
    exact ⟨ty, by simp [OpKind.holds?, hr, hty], hpeel⟩
  | _ =>
    rw [hk] at hd
    cases hd

end Body

/-- Descent is kept when an operation is lowered by one layer. -/
theorem Descent.lowersTo {cx : Context} {m : Module} {ports : List Carrier} {t : LowerState} {o : OpId}
    {op : Operation} (hports : ∀ e ∈ ports, e.place = .port) (hb : t.builder.body.Coherent)
    (hop : t.builder.body.op? o = some op) (he : op.erased = false) (hnode : t.builder.body.NodeTyped op)
    (h : Descent cx.options m (t.builder.body.Carries ports cx.options.preserveAggregate fun _ => True)
      (fun _ => []) t.symbols) :
    LowersTo cx t o op fun b y =>
      Descent cx.options m (b.Carries ports cx.options.preserveAggregate fun _ => True) (fun _ => []) y := by
  -- all but the operation itself are carriers once it is erased
  have hend : ∀ {ps b y}, Replacement cx t.builder.body o op ps b →
      Descent cx.options m (b.Carries ports cx.options.preserveAggregate (· ≠ o)) (fun _ => []) y →
      Descent cx.options m (b.Carries ports cx.options.preserveAggregate fun _ => True) (fun _ => []) y :=
    fun hr hd => by rwa [Body.carries_ne (Body.carrier?_of_erased hr.erased)] at hd
  have hmine : t.builder.body.carrier? cx.options.preserveAggregate o = _ := Body.carrier?_of_op? hop he
  cases hd : op.kind.decl? with
  | none =>
    rw [OpKind.carrier?_eq_none hd] at hmine
    refine (Body.events_of_plain hd hop).lowersTo hb hop ?_ fun hT hr => hend hr hT
    rwa [Body.carries_ne hmine]
  | some d =>
    obtain ⟨eo, heo⟩ : ∃ eo, t.builder.body.carrier? cx.options.preserveAggregate o = some eo :=
      ⟨_, hmine.trans (by rw [OpKind.carrier?, hd]; rfl)⟩
    have hcarries : t.builder.body.Carries ports cx.options.preserveAggregate (fun _ => True) eo :=
      .inr ⟨o, trivial, heo⟩
    have hsub : ∀ e, t.builder.body.Carries ports cx.options.preserveAggregate (· ≠ o) e →
        t.builder.body.Carries ports cx.options.preserveAggregate (fun _ => True) e := by
      rintro e (hp | ⟨x, -, hx⟩)
      exacts [.inl hp, .inr ⟨x, trivial, hx⟩]
    have hrest : ∀ e, t.builder.body.Carries ports cx.options.preserveAggregate (fun _ => True) e →
        e = eo ∨ t.builder.body.Carries ports cx.options.preserveAggregate (· ≠ o) e := by
      rintro e (hp | ⟨x, -, hx⟩)
      · exact .inr (.inl hp)
      · by_cases hxo : x = o
        · rw [hxo, heo] at hx
          exact .inl (Option.some.inj hx).symm
        · exact .inr (.inr ⟨x, hxo, hx⟩)
    by_cases hinst : ∃ i, op.kind = .inst i
    · obtain ⟨i, hk⟩ := hinst
      have hevents : Events cx t.builder.body o op fun ps b y => Descent cx.options m (fun e =>
          b.Carries ports cx.options.preserveAggregate (· ≠ o) e ∨ ps = [] ∧ e = eo) (fun _ => []) y :=
        Body.events_of_inst hb hop hk heo
      refine hevents.lowersTo hb hop (h.congr fun e => ?_) fun {ps b y} hT hr => hend hr (hT.congr fun e => ?_)
      · exact ⟨fun he => he.elim (hsub e) fun he => he.2 ▸ hcarries,
          fun he => (hrest e he).symm.imp_right fun he => ⟨rfl, he⟩⟩
      · have hdiv := hr.divides (by rw [hd]; rfl)
        unfold Body.Divides at hdiv
        rw [hk] at hdiv
        exact (or_iff_left fun hps => hdiv hps.1).symm
    · have hinst' : ∀ i, op.kind ≠ .inst i := fun i hk => hinst ⟨i, hk⟩
      have hsome : op.kind.decl?.isSome := by rw [hd]; rfl
      refine (Body.events_of_declared hop hsome hinst' hnode heo).lowersTo hb hop (fun ps rest hdiv hps => ?_)
        fun hT hr => hend hr (hT _ [] (hr.divides hsome) (List.append_nil _).symm).finish
      obtain rfl : ps = rest := hps
      obtain ⟨ty, hty, hpeel⟩ := hdiv.peel_eq hop hinst' heo
      refine h.part hcarries hty hpeel hsub hrest fun _ hE => ?_
      have hplace := Body.place_of_carrier? heo
      rcases hE with hp | ⟨x, hne, hx⟩
      · rw [hports eo hp] at hplace
        cases hplace
      · rw [Body.place_of_carrier? hx] at hplace
        exact hne (TargetKind.operation.inj hplace)

end Scalarize
