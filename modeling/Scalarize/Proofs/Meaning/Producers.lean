import Scalarize.Lower.Instance
import Scalarize.Proofs.Meaning.GivingWay
import Scalarize.Proofs.Meaning.Values

/-!
# Operations that make values

* `Rendered` : an operation was reached; others with its effects were made, or it stays;
* `Due.splitProducer_runs`, `Due.producer_runs`, `Due.bitcast_runs`, `Due.subaccess_runs`, `Due.inst_runs`.
-/

namespace Scalarize

open Body Lower

variable {I : Interpretation} {idle : OpId → Prop} {W : List OpId → Builder → Prop} {P : List OpId}

namespace Draft

variable {d : Draft I idle W P} [Site W]

/-- Declarations do not matter. -/
theorem exists_declared (d : Draft I idle W P) (o : OpId) (f : Decl → Decl) :
    ∃ d' : Draft I idle W P, d'.builder = ⟨d.body.modifyDecl o f, d.builder.point⟩ ∧ d.Next [] d' := by
  have hexposed : (d.body.modifyDecl o f).Exposed d.builder.point.block := by
    rcases d.exposed with he | ⟨g, hg, hk⟩
    · exact .inl he
    · refine .inr ⟨g, (alike_modifyDecl d.body o f).symm.walked (fun x hs => by rwa [stands_modifyDecl]) hg, ?_⟩
      obtain ⟨op, hop⟩ : ∃ op, d.body.op? g = some op := by
        cases hop : d.body.op? g with
        | some op => exact ⟨op, rfl⟩
        | none => simp [guardedBlocks, hop] at hk
      rwa [(Local.modifyDecl d.body o f [] []).guardedBlocks (by rw [hop]; rfl)]
  exact ⟨⟨⟨d.body.modifyDecl o f, d.builder.point⟩, d.made, d.senses, Site.declared f d.site, hexposed,
    d.interpreted.declared o f⟩, rfl, Extends.modifyDecl d.body o f, fun _ _ => rfl, [], by simp, by simp, rfl⟩

theorem declarePart_runs (d : Draft I idle W P) (y : Symbols) (decl : Decl) (part : Part) (r : Restricted)
    (v : ValueId) : Runs False (declarePart decl part r v) ⟨d.builder, y⟩ fun _ t' =>
      ∃ d' : Draft I idle W P, d'.builder = t'.builder ∧ d.Next [] d' := by
  refine Runs.bind_any fun d? _ => ?_
  split
  next x _ =>
    have hdeclare : ∀ sym y, Runs False (do
        let new : Decl := { decl.extendName part.suffix with annotations := r.annotations, sym }
        change fun b => return b.modifyDecl x fun _ => new) ⟨d.builder, y⟩
          fun _ t' => ∃ d' : Draft I idle W P, d'.builder = t'.builder ∧ d.Next [] d' :=
      fun sym y => Runs.change (.pure (d.exists_declared _ _))
    split
    next => exact .bind_mint (hdeclare _ _)
    next =>
      split
      · exact .bind_mint (hdeclare _ _)
      · exact hdeclare _ _
  next => exact .pure ⟨d, rfl, .refl d⟩

end Draft

/-! ## Parts of results -/

variable {S : ValueId → Sense} {o : OpId} {op : Operation} {k : BlockId} {A B : List OpId} {s s' : Builder} {y : Symbols}
  {r v : ValueId} {ty u : Ty}

/-- The last pending operation was reached: others with its effects were made in front of it, or it stays and is no
longer pending. -/
def Rendered (I : Interpretation) (idle : OpId → Prop) (P : List OpId) (S : ValueId → Sense) (o : OpId) (k : BlockId)
    (A B : List OpId) (s : Builder) (replaced : Bool) (s' : Builder) : Prop :=
  if replaced then ∃ H N S', Supplants I idle s.body P S o k A B H N S' s'
  else s' = s ∧ s.body.Interpreted I idle P S

theorem Body.effectsBy_single {b : Body} (hop : b.op? o = some op) (hc : ∀ strict, op.kind ≠ .connect strict)
    (hres : op.results = [r]) (hr : b.ty? r = some ty) (S : ValueId → Sense) :
    b.effectsBy S o = op.kind.role?.elim [] (ty.holding · (S r)) := by
  rw [effectsBy_eq hop]
  unfold effectsWith
  split
  next hkind _ => exact absurd hkind (hc _)
  next =>
    rw [hres]
    cases op.kind.role? with
    | none => rfl
    | some role => simp [holding, tyOf_eq hr]

/-- What computes its result drives nothing, and its result has the bits that it computes. -/
theorem Body.Heeds.sense_eq {b : Body} (h : b.Heeds I S op) (hr : op.results[0]? = some r)
    (hacc : op.kind.isAccessor = false) (hplace : op.kind.holdsPlaces = false) {f : List Nat → List Bool}
    (hf : op.kind.value? I (b.tyOf r) (op.operands.map (b.reading S)) = some f) : S r = ⟨f, none⟩ := by
  have hreach : op.kind.reach? (op.operands.map (b.reading S)) = none := by
    cases hreach : op.kind.reach? (op.operands.map (b.reading S)) with
    | none => rfl
    | some j => rw [OpKind.isAccessor_of_reach? hreach] at hacc; cases hacc
  have hbits : (S r).bits = f := by
    refine h.bits hr (s := ⟨f, none⟩) ?_
    unfold Body.sense
    rw [hreach, hf]
    rfl
  have hp := h.placeless hacc hplace r (List.mem_of_getElem? hr)
  rw [← hbits, ← hp]

theorem Draft.choice_part {c : Ty} {i : Nat} (hc : ty.child? i = some c) (index : Reading)
    (fs : List (List Nat → List Bool)) : (fun path => choice ty index fs (i :: path)) =
      choice c index (fs.map fun f path => f (i :: path)) := by
  unfold choice
  cases index.position? with
  | none => simp [Ty.unpack_child hc]
  | some j =>
    rw [Option.bind_some, Option.bind_some, ← List.map_reverse, List.getElem?_map]
    cases fs.reverse[j]? with
    | none => simp [Ty.unpack_child hc]
    | some f => rfl

/-- A literal position is the one that is written. -/
theorem Body.Interpreted.position_eq {b : Body} {i n : Nat} (h : b.Interpreted I idle P S) (hv : b.Owned idle v)
    (hlit : b.Literal v n) (hi : (b.reading S v).position? = some i) : i = n := by
  obtain ⟨x, j, op, horigin, hop, hk⟩ := hlit
  rcases hv with harg | ⟨x', j', op', horigin', hact⟩
  · rw [harg] at horigin
    cases horigin
  obtain ⟨rfl, rfl⟩ : x = x' ∧ j = j' := by simpa using horigin.symm.trans horigin'
  obtain rfl := Option.some.inj (hop.symm.trans hact.op?)
  obtain ⟨ins, outs, -, houts, -, hshaped⟩ := (h.heeds hact).typed
  rw [hk] at hshaped
  obtain ⟨-, t, rfl, ht⟩ := hshaped
  obtain ⟨r, hr, hres⟩ := houts.singleton
  obtain rfl : r = v := by
    obtain ⟨op₁, hop₁, hv⟩ := h.coherent.origin horigin
    rw [Option.some.inj (hop₁.symm.trans hop), hres] at hv
    cases j with
    | zero => simpa using hv
    | succ j => simp at hv
  obtain ⟨g, rfl⟩ : ∃ g, t = .ground g := by
    have := ht trivial
    cases t <;> first | exact ⟨_, rfl⟩ | cases this
  have hS : S r = ⟨(Ty.ground g).literal n, none⟩ := (h.heeds hact).sense_eq (by rw [hres]; rfl) (by rw [hk]; rfl)
    (by rw [hk]; rfl) (by rw [hk, tyOf_eq hr]; rfl)
  rw [reading_eq hr, hS] at hi
  unfold Reading.position? at hi
  split at hi
  next m hm =>
    change g.number (g.literal n) = Int.ofNat m at hm
    have hpos : 0 ≤ g.number (g.literal n) := by rw [hm]; exact Int.natCast_nonneg m
    have := Ground.toNat_number hpos
    rw [Ground.natOf_literal, hm] at this
    rw [← Option.some.inj hi, ← this]
    rfl
  next => cases hi

/-- A part that is reached once more is reached without a computed position if it was so before. -/
theorem Body.Straight.again {b : Body} {w : ValueId} {x : OpId} {opo opx : Operation} {j : Nat}
    (h : b.Straight idle S r) (hr : b.origin? r = some (.result o 0)) (ho : b.Active idle o opo)
    (hacc : opo.kind.isAccessor = true) (hv : opo.operands[0]? = some v) (hw : b.origin? w = some (.result x 0))
    (hx : b.Active idle x opx) (haccx : opx.kind.isAccessor = true) (hsub : opx.kind ≠ .subaccess)
    (hvx : opx.operands[0]? = some v) (hj : opx.kind.reach? (opx.operands.map (b.reading S)) = some j)
    (hplace : (S w).place = ((S v).part j).place) : b.Straight idle S w := by
  obtain ⟨F, hF, hd⟩ := h
  obtain ⟨v', -, hv', hFv, -⟩ := hd.access hF hr ho hacc
  obtain rfl := Option.some.inj (hv.symm.trans hv')
  have hown : ∀ {y i}, b.origin? w = some (.result y i) → y = x := fun hy => by
    have := hw.symm.trans hy
    simp only [Option.some.injEq, Origin.result.injEq] at this
    exact this.1.symm
  refine ⟨fun u => F u ∨ u = w, .inr rfl, fun {u y i op} hu horigin hact hacc => ?_, fun {u} hu => ?_,
    fun {u y i} hu horigin => ?_⟩
  · rcases hu with hu | rfl
    · obtain ⟨v', j', hv', hFv', hrest⟩ := hd.access hu horigin hact hacc
      exact ⟨v', j', hv', .inl hFv', hrest⟩
    · obtain rfl := hown horigin
      obtain rfl := Option.some.inj (hact.op?.symm.trans hx.op?)
      exact ⟨v, j, hvx, .inl hFv, hj, hplace, fun h => absurd h hsub⟩
  · rcases hu with hu | rfl
    · exact hd.root hu
    · rintro ⟨y, i, op, a, g, t, horigin, hact, hk, -⟩
      obtain rfl := hown horigin
      rw [Option.some.inj (hx.op?.symm.trans hact.op?), hk] at haccx
      cases haccx
  · rcases hu with hu | rfl
    · exact hd.active hu horigin
    · obtain rfl := hown horigin
      exact ⟨_, hx⟩

namespace Due

section Makers

variable (h : Due I idle P S o op k A B s) (hc : ∀ strict, op.kind ≠ .connect strict)
  {d d' : Draft I idle (MadeInFront s.body k A (o :: B) [] []) P} {E : List Effect}

include hc in
theorem stays (h : Due I idle P S o op k A B s) : s.body.Interpreted I idle P S := by
  have := (h.draft hc).interpreted
  rwa [show (h.draft hc).made = [] from rfl, List.append_nil] at this

/-- The results stay as they are. -/
theorem result_ends (hd : (h.draft hc).Next E d) (i : Nat) :
    Ends False (d.body.result o i) fun v => op.results[i]? = some v := by
  obtain ⟨op', hop', -, -, hres, -⟩ := hd.grows.op? h.active.op?
  refine Body.result_ends (fun op₁ v hop₁ hv => ?_) nofun
  rwa [← hres, ← Option.some.inj (hop₁.symm.trans hop')]

theorem operand_ends (h : Due I idle P S o op k A B s) (i : Nat) :
    Ends False (s.body.operand o i) fun v => op.operands[i]? = some v :=
  Body.operand_ends (fun _ _ hop' hv => by rwa [Option.some.inj (h.active.op?.symm.trans hop')]) nofun

/-- Nothing that is pending or new makes a result. -/
theorem not_madeBy (hd : (h.draft hc).Next E d) {i : Nat} (hr : op.results[i]? = some r) :
    ¬d.body.MadeBy (P ++ d.made) r := by
  have horigin := hd.grows.origin?_some (h.interpreted.coherent.result h.active.op? hr)
  rintro (harg | ⟨x, hx, j, hx'⟩)
  · rw [harg] at horigin
    cases horigin
  · obtain ⟨rfl, -⟩ : o = x ∧ i = j := by simpa using horigin.symm.trans hx'
    rcases List.mem_append.1 hx with hx | hx
    · exact h.new hx
    · have := InFront.fresh d.site _ hx
      rw [h.active.op?] at this
      cases this

/-- No result is read by what is pending or new. -/
theorem unread (hd : (h.draft hc).Next E d) {i : Nat} (hr : op.results[i]? = some r) {x : OpId}
    (hx : x ∈ P ++ d.made) {opx : Operation} (hact : d.body.Active idle x opx) : r ∉ opx.operands := fun hmem =>
  h.not_madeBy hc hd hr ((d.interpreted.expects hx hact).reads r hmem)

theorem sense_result (hd : (h.draft hc).Next E d) {i : Nat} (hr : op.results[i]? = some r) : d.senses r = S r :=
  hd.senses r (isSome_value?.1 (isSome_of_origin? (h.interpreted.coherent.result h.active.op? hr)))

/-- The readers of the result give way to parts that were made. -/
theorem rewire_runs (hd : (h.draft hc).Next (s.body.effectsBy S o) d) (hres : op.results = [r])
    (hr : s.body.ty? r = some ty) (hacc : op.kind.isAccessor = false) {ps : List Part} (hps : ty.PartsOf ps)
    {vs : List ValueId}
    (hvs : List.Forall₂ (fun v p => d.Has v p.ty ((S r).part p.index) ∧ d.body.Rooted idle v) vs ps) :
    Ends False (d.body.rewire r vs) fun b => Rendered I idle P S o k A B s true ⟨b, d.builder.point⟩ := by
  have hr₀ : op.results[0]? = some r := by rw [hres]; rfl
  have horigin := hd.grows.origin?_some (h.interpreted.coherent.result h.active.op? hr₀)
  refine (d.interpreted.rewired (hd.grows.ty?_some hr) hps (hvs.imp fun v p hv => ?_) (fun x i opx hx hopx => ?_)
    fun x hx opx hact => h.unread hc hd hr₀ hx hact).mono fun b ⟨hi, hq, hout, _⟩ =>
      ⟨_, _, _, h.supplants hc hd hi hq hout⟩
  · refine ⟨hv.1.ty?, by rw [hv.1.sense, h.sense_result hc hd hr₀], hv.2, ?_⟩
    rintro rfl
    exact h.not_madeBy hc hd hr₀ hv.1.made
  · obtain ⟨rfl, rfl⟩ : o = x ∧ 0 = i := by simpa using horigin.symm.trans hx
    obtain ⟨op', hop', hbare, -⟩ := hd.grows.op? h.active.op?
    obtain rfl := Option.some.inj (hop'.symm.trans hopx)
    rw [← OpKind.isAccessor_eq_of_bare_eq hbare] at hacc
    cases hk : op'.kind <;> rw [hk] at hacc <;> first | rfl | cases hacc

/-- The operation gives way to one for each part of its result. -/
theorem splitProducer_runs (hd : (h.draft hc).Next [] d) (hres : op.results = [r]) (hr : s.body.ty? r = some ty)
    (hacc : op.kind.isAccessor = false) {keep : Bool} {clone : Part → Build ValueId}
    (hclone : ∀ {E d' p}, ty.child? p.index = some p.ty → d.Next E d' → Runs False (clone p) d'.builder
      (d'.Makes (op.kind.role?.elim [] (p.ty.holding · ((S r).part p.index))) p.ty ((S r).part p.index))) :
    Runs False (splitProducer o keep clone) ⟨d.builder, y⟩ fun replaced t' =>
      if replaced then Rendered I idle P S o k A B s true t'.builder
      else t'.builder = d.builder ∧ (keep = false → ty.isGround) := by
  refine Runs.bind_body (h.result_ends hc hd 0) fun r' hr' => ?_
  obtain rfl : r = r' := by simpa [hres] using hr'
  refine Runs.bind_body (P := (ty = ·)) (typeOf_ends (fun ty' hty' => ?_) nofun) ?_
  · exact Option.some.inj ((hd.grows.ty?_some hr).symm.trans hty')
  rintro _ rfl
  refine Runs.bind_except (Ty.peel_ends (nofun : False → _)) fun ps? hps => ?_
  split
  next ps =>
    have hps : ty.PartsOf ps := hps.1
    refine Runs.bind_any fun kind _ => ?_
    refine Runs.bind (Runs.mapM (fun done vs t' => ∃ d', d'.builder = t'.builder ∧
      d.Next (done.flatMap fun p => op.kind.role?.elim [] (p.ty.holding · ((S r).part p.index))) d' ∧
      List.Forall₂ (fun v p => d'.Has v p.ty ((S r).part p.index) ∧ d'.body.Rooted idle v) vs done) ps
      ⟨d, rfl, .refl d, .nil⟩ ?_) ?_
    · rintro done p rest vs ⟨_, y⟩ hl ⟨d₁, rfl, h₁, hvs⟩
      have hp := hps.child_index (hl ▸ List.mem_append_right _ List.mem_cons_self)
      refine Runs.bind_except (P := fun _ => True) (.intro (fun _ _ => trivial) nofun) fun restricted _ => ?_
      refine Runs.bind_build (hclone hp h₁) ?_
      rintro v _ ⟨d₂, rfl, h₂, hv, hrooted⟩
      refine (d₂.declarePart_runs _ _ _ _ _).bind ?_
      rintro _ ⟨_, y'⟩ ⟨d₃, rfl, h₃⟩
      refine .pure ⟨d₃, rfl, ?_, List.rel_append (hvs.imp fun w q hw => ?_) (.cons ?_ .nil)⟩
      · rw [List.flatMap_append, List.flatMap_singleton, ← List.append_nil (List.flatMap _ done ++ _)]
        exact (h₁.trans h₂).trans h₃
      · exact ⟨(hw.1.next h₂).next h₃, (hw.2.extends h₂.grows d₁.coherent).extends h₃.grows d₂.coherent⟩
      · exact ⟨hv.next h₃, hrooted.extends h₃.grows d₂.coherent⟩
    · rintro vs ⟨_, y⟩ ⟨d₁, rfl, h₁, hvs⟩
      have heffects : s.body.effectsBy S o =
          ps.flatMap fun p => op.kind.role?.elim [] (p.ty.holding · ((S r).part p.index)) := by
        rw [effectsBy_single h.active.op? hc hres hr]
        cases op.kind.role? with
        | none => simp
        | some role => exact hps.holding_eq role (S r)
      have h₀ := hd.trans h₁
      rw [List.nil_append, ← heffects] at h₀
      exact Runs.bind_change (h.rewire_runs hc h₀ hres hr hacc hps hvs) fun _ hb => .pure hb
  next hne =>
    cases ps? with
    | some ps => exact absurd rfl (hne ps)
    | none =>
      have hground : ty.isGround ∨ keep = true ∧ ty.preservable = true := hps
      exact .pure ⟨rfl, fun hk => hground.resolve_right (by simp [hk])⟩

/-- The same, where nothing was made before. -/
theorem splits (hres : op.results = [r]) (hr : s.body.ty? r = some ty) (hacc : op.kind.isAccessor = false) {keep : Bool}
    {clone : Part → Build ValueId}
    (hclone : ∀ {E d' p}, ty.child? p.index = some p.ty → (h.draft hc).Next E d' → Runs False (clone p) d'.builder
      (d'.Makes (op.kind.role?.elim [] (p.ty.holding · ((S r).part p.index))) p.ty ((S r).part p.index))) :
    Runs False (splitProducer o keep clone) ⟨s, y⟩ fun replaced t' => Rendered I idle P S o k A B s replaced t'.builder := by
  refine (h.splitProducer_runs hc (Draft.Next.refl (h.draft hc)) hres hr hacc hclone).mono fun replaced t' hout => ?_
  cases replaced with
  | true => exact hout
  | false => exact ⟨hout.1, h.stays hc⟩

end Makers

/-! ## Declarations and choices -/

/-- Declarations and choices give way to those of the parts. -/
theorem producer_runs (h : Due I idle P S o op k A B s) (hc : ∀ strict, op.kind ≠ .connect strict) (keep : Bool) :
    Runs False (producer o keep op.kind) ⟨s, y⟩ fun replaced t' => Rendered I idle P S o k A B s replaced t'.builder := by
  obtain ⟨ins, outs, hins, houts, hfits, hshaped⟩ := h.heeds.typed
  have hmeant := h.heeds.meant
  have hexact : ∀ {r t c i}, s.body.ty? r = some t → t.child? i = some c → c.Exact ((S r).part i).bits := fun hr hc =>
    (h.interpreted.proper hr).child hc
  have hparts : ∀ {r t c i}, s.body.ty? r = some t → t.child? i = some c → c.Accepts ((S r).part i).bits := fun hr hc =>
    (hexact hr hc).accepts
  cases hk : op.kind with
  | wire decl =>
    rw [hk] at hshaped
    obtain ⟨rfl, t, rfl⟩ := hshaped
    obtain ⟨r, hr, hres⟩ := houts.singleton
    exact h.splits hc hres hr (by rw [hk]; rfl) fun hp _ => by
      rw [hk]
      exact Draft.wire_makes _ _ _ (hparts hr hp)
  | reg decl =>
    rw [hk] at hshaped
    obtain ⟨c, t, rfl, rfl⟩ := hshaped
    obtain ⟨r, hr, hres⟩ := houts.singleton
    obtain ⟨clock, hclock, hops⟩ := hins.singleton
    refine Runs.bind_body (h.operand_ends 0) fun clock' hclock' => ?_
    obtain rfl : clock = clock' := by simpa [hops] using hclock'
    exact h.splits hc hres hr (by rw [hk]; rfl) fun hp hd => by
      rw [hk]
      exact ((h.has hc (by simp [hops]) hclock).next hd).reg_makes _ _ (hparts hr hp)
  | regReset decl =>
    rw [hk] at hfits
    obtain ⟨c, u, t, rfl, rfl⟩ := hfits
    obtain ⟨r, hr, hres⟩ := houts.singleton
    obtain ⟨clock, reset, init, hclock, hreset, hinit, hops⟩ := hins.triple
    refine Runs.bind_body (h.operand_ends 0) fun clock' hclock' => Runs.bind_body (h.operand_ends 1) fun reset' hreset' =>
      Runs.bind_body (h.operand_ends 2) fun init' hinit' => ?_
    obtain rfl : clock = clock' := by simpa [hops] using hclock'
    obtain rfl : reset = reset' := by simpa [hops] using hreset'
    obtain rfl : init = init' := by simpa [hops] using hinit'
    exact h.splits hc hres hr (by rw [hk]; rfl) fun hp hd => by
      have has : ∀ {v t}, v ∈ op.operands → s.body.ty? v = some t → _ := fun hv ht => (h.has hc hv ht).next hd
      refine Draft.Gives.bind ((has (by simp [hops]) hinit).part_gives hp) fun v d₁ h₁ hv => ?_
      rw [hk]
      have hall : d₁.HasAll [clock, reset, v] [(c, S clock), (u, S reset), (_, (S init).part _)] :=
        .cons ((has (by simp [hops]) hclock).next h₁) (.cons ((has (by simp [hops]) hreset).next h₁) (.cons hv .nil))
      exact (hall.regReset_makes {} (hparts hr hp)).mono fun _ _ hm => hm.after h₁
  | node decl =>
    rw [hk] at hfits
    obtain ⟨t, rfl, rfl⟩ := hfits
    obtain ⟨r, hr, hres⟩ := houts.singleton
    obtain ⟨input, hinput, hops⟩ := hins.singleton
    refine Runs.bind_body (h.operand_ends 0) fun input' hinput' => ?_
    obtain rfl : input = input' := by simpa [hops] using hinput'
    have hS : S r = ⟨(S input).bits, none⟩ := h.heeds.sense_eq (by rw [hres]; rfl) (by rw [hk]; rfl) (by rw [hk]; rfl)
      (by rw [hk, hops]; rfl)
    exact h.splits hc hres hr (by rw [hk]; rfl) fun hp hd => by
      refine Draft.Gives.bind (((h.has hc (by simp [hops]) hinput).next hd).part_gives hp) fun v d₁ h₁ hv => ?_
      rw [hk, hS]
      exact (hv.node_makes {}).mono fun _ _ hm => hm.after h₁
  | invalid =>
    rw [hk] at hshaped
    obtain ⟨rfl, t, rfl⟩ := hshaped
    obtain ⟨r, hr, hres⟩ := houts.singleton
    have hplace : (S r).place = none := h.heeds.placeless (by rw [hk]; rfl) (by rw [hk]; rfl) r (by simp [hres])
    exact h.splits hc hres hr (by rw [hk]; rfl) fun hp _ => by
      rw [hk]
      exact Draft.invalid_makes _ _ (hexact hr hp) (by simp [Sense.part, hplace])
  | mux =>
    rw [hk] at hfits
    obtain ⟨x, t, rfl, rfl⟩ := hfits
    obtain ⟨r, hr, hres⟩ := houts.singleton
    obtain ⟨sel, high, low, hsel, hhigh, hlow, hops⟩ := hins.triple
    refine Runs.bind_body (h.operand_ends 0) fun sel' hsel' => Runs.bind_body (h.operand_ends 1) fun high' hhigh' =>
      Runs.bind_body (h.operand_ends 2) fun low' hlow' => ?_
    obtain rfl : sel = sel' := by simpa [hops] using hsel'
    obtain rfl : high = high' := by simpa [hops] using hhigh'
    obtain rfl : low = low' := by simpa [hops] using hlow'
    have hS : S r = ⟨if true ∈ (S sel).bits [] then (S high).bits else (S low).bits, none⟩ :=
      h.heeds.sense_eq (by rw [hres]; rfl) (by rw [hk]; rfl) (by rw [hk]; rfl) (by rw [hk, hops]; rfl)
    exact h.splits hc hres hr (by rw [hk]; rfl) fun {_ _ p} hp hd => by
      have has : ∀ {v t}, v ∈ op.operands → s.body.ty? v = some t → _ := fun hv ht => (h.has hc hv ht).next hd
      refine Draft.Gives.bind ((has (by simp [hops]) hhigh).part_gives hp) fun v d₁ h₁ hv => ?_
      refine Draft.Gives.bind (((has (by simp [hops]) hlow).next h₁).part_gives hp) fun w d₂ h₂ hw => ?_
      have hpart : (S r).part p.index = ⟨if true ∈ (S sel).bits [] then ((S high).part p.index).bits
          else ((S low).part p.index).bits, none⟩ := by
        rw [hS]
        split <;> rfl
      rw [hk, hpart]
      exact ((((has (by simp [hops]) hsel).next h₁).next h₂).mux_makes (hv.next h₂) hw).mono
        fun _ _ hm => (hm.after h₂).after h₁
  | multiMux =>
    rw [hk] at hfits
    obtain ⟨x, rest, t, rfl, hrest, rfl⟩ := hfits
    obtain ⟨r, hr, hres⟩ := houts.singleton
    refine Runs.bind_body (P := (op = ·)) (op_ends (fun op' hop' => Option.some.inj (h.active.op?.symm.trans hop'))
      False.elim) ?_
    rintro _ rfl
    split
    · exact .throw id
    next index inputs hops =>
      rw [hops] at hins
      obtain ⟨hx, hinputs⟩ := List.forall₂_cons.1 hins
      have hall : ∀ v ∈ inputs, s.body.ty? v = some t := fun v hv => by
        obtain ⟨i, hi⟩ := List.mem_iff_getElem?.1 hv
        obtain ⟨u', hu', hv'⟩ := Types.getElem? hinputs hi
        rw [hv', hrest u' (List.mem_of_getElem? hu')]
      have hreading : inputs.map (s.body.reading S) = inputs.map fun v => (t, (S v).bits) :=
        List.map_congr_left fun v hv => reading_eq (hall v hv)
      have hS : S r = ⟨Draft.choice t (x, (S index).bits) (inputs.map fun v => (S v).bits), none⟩ := by
        refine h.heeds.sense_eq (by rw [hres]; rfl) (by rw [hk]; rfl) (by rw [hk]; rfl) ?_
        rw [hk, hops, List.map_cons, Draft.value?_multiMux, hreading, List.map_map, reading_eq hx, tyOf_eq hr]
        rfl
      refine h.splits hc hres hr (by rw [hk]; rfl) fun {_ d p} hp hd => ?_
      have has : ∀ {v t}, v ∈ op.operands → s.body.ty? v = some t → _ := fun hv ht => (h.has hc hv ht).next hd
      refine Runs.bind (Runs.mapM (fun done vs s' => ∃ d', d'.builder = s' ∧ d.Next [] d' ∧
        d'.HasAll vs ((done.map fun v => (S v).part p.index).map fun s => (p.ty, s))) inputs
          ⟨d, rfl, .refl d, .nil⟩ ?_) ?_
      · rintro done v rest vs _ hl ⟨d₁, rfl, h₁, hvs⟩
        have hmem : v ∈ inputs := hl ▸ List.mem_append_right _ List.mem_cons_self
        refine (((has (by simp [hops, hmem]) (hall v hmem)).next h₁).part_gives hp).mono ?_
        rintro w _ ⟨d₂, rfl, h₂, hw⟩
        refine ⟨d₂, rfl, h₁.trans h₂, ?_⟩
        rw [List.map_append, List.map_append]
        exact List.rel_append (hvs.next h₂) (.cons hw .nil)
      · rintro vs _ ⟨d₁, rfl, h₁, hvs⟩
        have hpart : (S r).part p.index = ⟨Draft.choice p.ty (x, (S index).bits)
            ((inputs.map fun v => (S v).part p.index).map (·.bits)), none⟩ := by
          rw [hS, List.map_map]
          change Sense.mk (fun path => _) _ = _
          rw [Draft.choice_part hp, List.map_map]
          rfl
        rw [hk, hpart]
        exact (Draft.HasAll.multiMux_makes ((has (by simp [hops]) hx).next h₁) hvs).mono fun _ _ hm => hm.after h₁
  | unrealizedCast =>
    rw [hk] at hmeant
    exact hmeant.elim
  | _ => exact .pure ⟨rfl, h.stays hc⟩

/-! ## Casts and accesses -/

section Readers

variable (h : Due I idle P S o op k A B s) (hc : ∀ strict, op.kind ≠ .connect strict)
  {d : Draft I idle (MadeInFront s.body k A (o :: B) [] []) P}

/-- The result gives way to a value that was made. -/
theorem giveWay_runs (hd : (h.draft hc).Next [] d) (hres : op.results = [r]) (hr : s.body.ty? r = some ty)
    (hrole : op.kind.role? = none) (hlit : ∀ n, op.kind ≠ .constant n) {w : ValueId} {σ : Sense} (hw : d.Has w ty σ)
    (hbits : σ.bits = (S r).bits)
    (hstraight : d.body.Straight idle d.senses r → d.body.Straight idle d.senses w ∧ σ.place = (S r).place) :
    Runs False (do change (·.replaceAllUses r w); return true) ⟨d.builder, y⟩
      fun replaced t' => Rendered I idle P S o k A B s replaced t'.builder := by
  have hr₀ : op.results[0]? = some r := by rw [hres]; rfl
  have horigin := hd.grows.origin?_some (h.interpreted.coherent.result h.active.op? hr₀)
  have hS := h.sense_result hc hd hr₀
  have heffects : s.body.effectsBy S o = [] := by rw [effectsBy_single h.active.op? hc hres hr, hrole]; rfl
  rw [← heffects] at hd
  refine Runs.bind_change (replaceAllUses_any d.coherent.toExact) fun b hb => .pure ?_
  rcases hb with rfl | ⟨hne, hv, hw', hrep⟩
  · exact ⟨_, _, _, h.supplants hc hd d.interpreted (.refl _ _ _) (.refl _)⟩
  obtain ⟨hi, hq⟩ := d.interpreted.replaced hrep
    { ne := hne
      known := ⟨hv, hw'⟩
      literal := by
        rintro n ⟨x, i, opx, hx, hopx, hkind⟩
        obtain ⟨rfl, rfl⟩ : o = x ∧ 0 = i := by simpa using horigin.symm.trans hx
        obtain ⟨op', hop', hbare, -⟩ := hd.grows.op? h.active.op?
        obtain rfl := Option.some.inj (hop'.symm.trans hopx)
        exact hlit n ((OpKind.eq_iff_of_bare_eq hbare rfl).1 hkind)
      owned := fun _ => ⟨hw.owned, h.not_madeBy hc hd hr₀, by rw [hw.ty?, hd.grows.ty?_some hr],
        by rw [hw.sense, hbits, hS]⟩
      straight := fun hs => by
        obtain ⟨hs', hplace⟩ := hstraight hs
        exact ⟨hs', by rw [hw.sense, hplace, hS]⟩ }
  exact ⟨_, _, _, h.supplants hc hd hi hq hrep.outlives⟩

end Readers

theorem bitcast_runs (h : Due I idle P S o op k A B s) (hk : op.kind = .bitcast) : Runs False (Lower.bitcast o) ⟨s, y⟩
    fun replaced t' => Rendered I idle P S o k A B s replaced t'.builder := by
  have hc : ∀ strict, op.kind ≠ .connect strict := by simp [hk]
  obtain ⟨ins, outs, hins, houts, hfits, -⟩ := h.heeds.typed
  rw [hk] at hfits
  obtain ⟨a, u, w, rfl, rfl, ha, hu, hlt⟩ := hfits
  obtain ⟨r, hr, hres⟩ := houts.singleton
  obtain ⟨input, hinput, hops⟩ := hins.singleton
  have hS : S r = ⟨u.unpack (a.pack (S input).bits), none⟩ := by
    refine h.heeds.sense_eq (by rw [hres]; rfl) (by rw [hk]; rfl) (by rw [hk]; rfl) ?_
    rw [hk, hops, List.map_singleton, reading_eq hinput, tyOf_eq hr]
    rfl
  refine Runs.bind_body (h.operand_ends 0) fun input' hinput' => ?_
  obtain rfl : input = input' := by simpa [hops] using hinput'
  refine Runs.bind_body (h.result_ends hc (Draft.Next.refl (h.draft hc)) 0) fun r' hr' => ?_
  obtain rfl : r = r' := by simpa [hres] using hr'
  refine Runs.bind_body (P := (a = ·)) (typeOf_ends (fun t ht => Option.some.inj (hinput.symm.trans ht)) nofun) ?_
  rintro _ rfl
  refine Runs.bind_body (P := (u = ·)) (typeOf_ends (fun t ht => Option.some.inj (hr.symm.trans ht)) nofun) ?_
  rintro _ rfl
  split
  next => exact .pure ⟨rfl, h.stays hc⟩
  next hground =>
  refine Runs.bind_build ((h.has hc (by simp [hops]) hinput).flatten_gives ha) ?_
  rintro flat _ ⟨σ, ⟨d, rfl, hd, hflat⟩, hpack, hexact⟩
  refine Runs.bind_except (Ty.peel_ends (nofun : False → _)) fun ps? hps => ?_
  split
  next parts =>
    have hps : u.PartsOf parts := hps.1
    refine (h.splitProducer_runs hc hd hres hr (by rw [hk]; rfl) fun {_ _ p} hp hd' => ?_).mono
      fun replaced t' hout => ?_
    · have hpart : (S r).part p.index = ⟨fun path => u.unpack ((Ty.uint w).pack σ.bits) (p.index :: path), none⟩ := by
        rw [hS, hpack]
        rfl
      rw [hk, hpart]
      exact (hflat.next hd').slice_makes hps hp
    · cases replaced with
      | true => exact hout
      | false =>
        have := hout.2 rfl
        rw [hps.aggregate] at this
        cases this
  next =>
    have hu' : u.isGround := hps.resolve_right nofun
    have ha' : a.isGround = false := by simpa [hu'] using hground
    obtain ⟨g, rfl⟩ : ∃ g, u = .ground g := by cases u <;> first | exact ⟨_, rfl⟩ | cases hu'
    -- the result is a cast of an aggregate, so that nothing is reached by way of it
    have hcast : ∀ {d' : Draft I idle (MadeInFront s.body k A (o :: B) [] []) P}, (h.draft hc).Next [] d' →
        ¬d'.body.Straight idle d'.senses r := by
      rintro d' hd' ⟨F, hF, hdirect⟩
      obtain ⟨op', hact', hbare, hops', -⟩ := h.active.extends hd'.grows
      refine hdirect.root hF ⟨o, 0, op', input, g, a, ?_, hact', ?_, hops'.trans hops, hd'.grows.ty?_some hr,
        hd'.grows.ty?_some hinput, ha'⟩
      · exact hd'.grows.origin?_some (h.interpreted.coherent.result h.active.op? (by rw [hres]; rfl))
      · exact (OpKind.eq_iff_of_bare_eq hbare rfl).2 hk
    have hbits : (Ty.ground g).unpack ((Ty.uint w).pack σ.bits) = (S r).bits := by rw [hS, hpack]
    have hgive : ∀ {v s' p}, d.Gives [] (.ground g) ⟨(Ty.ground g).unpack ((Ty.uint w).pack σ.bits), p⟩ v s' →
        Runs False (do change (·.replaceAllUses r v); return true) ⟨s', y⟩
          fun replaced t' => Rendered I idle P S o k A B s replaced t'.builder := by
      rintro v _ p ⟨d', rfl, hd', hv⟩
      have hboth := hd.trans hd'
      exact h.giveWay_runs hc hboth hres hr (by rw [hk]; rfl) (by simp [hk]) hv hbits
        fun hs => absurd hs (hcast hboth)
    split
    next width hsint =>
      obtain rfl : g = .sint width := by simpa using hsint
      obtain rfl : width = some w := hu
      exact Runs.bind_build (hflat.asSInt_makes rfl) fun v s' hv => hgive hv.gives
    next =>
      exact Runs.bind_build (hflat.castTo_gives (w := w) rfl hu hlt (hexact ha')) fun v s' ⟨p, hv⟩ => hgive hv

theorem subaccess_runs (h : Due I idle P S o op k A B s) (hk : op.kind = .subaccess) :
    Runs False (Lower.subaccess o) ⟨s, y⟩ fun replaced t' => Rendered I idle P S o k A B s replaced t'.builder := by
  have hc : ∀ strict, op.kind ≠ .connect strict := by simp [hk]
  have hb := h.interpreted.coherent
  obtain ⟨ins, outs, hins, houts, hfits, -⟩ := h.heeds.typed
  rw [hk] at hfits
  obtain ⟨e, n, x, rfl, rfl⟩ := hfits
  obtain ⟨r, hr, hres⟩ := houts.singleton
  obtain ⟨input, index, hinput, hindex, hops⟩ := hins.pair
  have hr₀ : op.results[0]? = some r := by rw [hres]; rfl
  -- the position is in range
  obtain ⟨i, hi, hlt⟩ : ∃ i, (s.body.reading S index).position? = some i ∧ i < n := by
    obtain ⟨v, w, e', n', i, hvw, hv, hw, hlt⟩ := h.heeds.reaches hk
    obtain ⟨rfl, rfl⟩ : input = v ∧ index = w := by simpa [hops] using hvw
    obtain ⟨rfl, rfl⟩ : e = e' ∧ n = n' := by simpa using hinput.symm.trans hv
    exact ⟨i, hw, hlt⟩
  have hn : n < UInt64.size := h.heeds.short hk (by simp [hops]) hinput
  have hS : S r = (S input).part i := by
    refine h.expects.sense hr₀ ?_
    unfold Body.sense
    rw [hk, hops, List.map_cons, List.map_singleton]
    have hreach : OpKind.subaccess.reach? [s.body.reading S input, s.body.reading S index] = some i := hi
    rw [hreach]
    rfl
  have has : ∀ {v t}, v ∈ op.operands → s.body.ty? v = some t → (h.draft hc).Has v t (S v) := h.has hc
  refine Runs.bind_body (h.operand_ends 0) fun input' hinput' => Runs.bind_body (h.operand_ends 1) fun index' hindex' => ?_
  obtain rfl : input = input' := by simpa [hops] using hinput'
  obtain rfl : index = index' := by simpa [hops] using hindex'
  refine Runs.bind_body (h.result_ends hc (Draft.Next.refl (h.draft hc)) 0) fun r' hr' => ?_
  obtain rfl : r = r' := by simpa [hres] using hr'
  refine Runs.bind_body (P := (· = (e, n))) ?_ ?_
  · refine Ends.bind (P := (· = .vector e n)) (typeOf_ends (fun ty hty => ?_) False.elim) ?_
    · exact Option.some.inj (hty.symm.trans hinput)
    · rintro _ rfl
      exact .pure rfl
  rintro _ rfl
  dsimp only
  split
  next h0 => omega
  refine Runs.bind_body (constant?_ends hb False.elim) fun l? hl => ?_
  split
  next l =>
    have hlit : s.body.Literal index l := (hl l).2 rfl
    obtain rfl := h.interpreted.position_eq (h.interpreted.scope h.active (by simp [hops])) hlit hi
    rw [Nat.mod_eq_of_lt (Nat.lt_trans hlt hn)]
    refine Runs.bind_build ((has (by simp [hops]) hinput).subindex_made i) ?_
    rintro w _ ⟨c, hchild, d, rfl, hd, hw, hmade⟩
    obtain rfl : e = c := by simpa [Ty.child?, hlt] using hchild
    refine h.giveWay_runs hc hd hres hr (by rw [hk]; rfl) (by simp [hk]) hw (by rw [hS]) fun hs => ⟨?_, by rw [hS]⟩
    obtain ⟨opx, hact, hbare, hopsx, -⟩ := h.active.extends hd.grows
    obtain ⟨y, op', horigin, hact', hkind, hops'⟩ := hmade
    refine hs.again (hd.grows.origin?_some (hb.result h.active.op? hr₀)) hact ?_ (by rw [hopsx, hops]; rfl) horigin hact'
      (by rw [hkind]; rfl) (by rw [hkind]; exact fun h => by cases h) (by rw [hops']; rfl) (by rw [hkind]; rfl) ?_
    · rw [(OpKind.eq_iff_of_bare_eq hbare rfl).2 hk]
      rfl
    · rw [hw.sense, hd.senses input (hb.operand h.active.op? (by simp [hops]))]
      rfl
  next =>
    have hinputs : Runs False ((List.range n).reverse.mapM fun i => (Build.subindex input i : Lower ValueId)) ⟨s, y⟩
        fun inputs (t' : LowerState) => ∃ d : Draft I idle (MadeInFront s.body k A (o :: B) [] []) P, d.builder = t'.builder ∧
          (h.draft hc).Next [] d ∧
          d.HasAll inputs (((List.range n).reverse.map fun j => (S input).part j).map fun s => (e, s)) := by
      refine Runs.mapM (fun done vs (t' : LowerState) => ∃ d : Draft I idle (MadeInFront s.body k A (o :: B) [] []) P,
        d.builder = t'.builder ∧ (h.draft hc).Next [] d ∧
        d.HasAll vs ((done.map fun j => (S input).part j).map fun s => (e, s))) _ ⟨h.draft hc, rfl, .refl _, .nil⟩ ?_
      rintro done j rest vs ⟨_, y⟩ _ ⟨d, rfl, hd, hvs⟩
      refine Runs.build ((((has (by simp [hops]) hinput).next hd).subindex_made j).mono ?_)
      rintro w _ ⟨c, hchild, d', rfl, hd', hw, -⟩
      obtain rfl : e = c := by
        change (if j < n then some e else none) = some c at hchild
        split at hchild
        · exact Option.some.inj hchild
        · cases hchild
      refine ⟨d', rfl, hd.trans hd', ?_⟩
      rw [List.map_append, List.map_append]
      exact List.rel_append (hvs.next hd') (.cons hw .nil)
    refine Runs.bind hinputs ?_
    rintro inputs ⟨_, y⟩ ⟨d, rfl, hd, hvs⟩
    refine Runs.bind_build (Draft.HasAll.multiMux_makes ((has (by simp [hops]) hindex).next hd) hvs) ?_
    rintro w _ ⟨d', rfl, hd', hw, -⟩
    refine h.giveWay_runs hc (hd.trans hd') hres hr (by rw [hk]; rfl) (by simp [hk]) hw ?_ fun hs => ?_
    · rw [reading_eq hindex] at hi
      rw [hS]
      simp [Draft.choice, hi, hlt]
    · -- on the way to the result the position must be computed
      obtain ⟨F, hF, hdirect⟩ := hs
      have hboth := hd.trans hd'
      obtain ⟨opx, hact, hbare, hopsx, -⟩ := h.active.extends hboth.grows
      have hkind := (OpKind.eq_iff_of_bare_eq hbare rfl).2 hk
      obtain ⟨-, -, -, -, -, -, hlit⟩ := hdirect.access hF (hboth.grows.origin?_some (hb.result h.active.op? hr₀)) hact
        (by rw [hkind]; rfl)
      obtain ⟨z, l, hz, hl'⟩ := hlit hkind
      obtain rfl : index = z := by simpa [hopsx, hops] using hz
      have := (hl l).1 (hl'.of_extends hboth.grows hb (hb.operand h.active.op? (by simp [hops])))
      cases this

end Due

end Scalarize
