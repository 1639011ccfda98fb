import Scalarize.Proofs.Step.Access

/-!
# Writes at computed positions

* `Body.Leads` : a path of accessors from a value up to the one that they start from;
  `Body.writePath_leads` : the path of a write is one;
* `Start.accessChain_ends`, `Start.writePath_ends` : the path from a destination up to its outermost
  computed access;
* `Start.guard_runs`, `Start.leave` : new operations in a block of their own;
* `Retraces`, `Start.guardedWrite_runs` : the same path from one element, and a write through it;
* `Start.writePath_runs` : the write gives way to one guarded write for each element.
-/

namespace Scalarize

open Body Lower

namespace Body

variable {b : Body} {v u w : ValueId} {x : OpId}

/-- Accessors `path` lead from `v` up to `w`; the first of them makes `v`. -/
inductive Leads (b : Body) : ValueId → List OpId → ValueId → Prop
  | nil {v : ValueId} : Leads b v [] v
  | cons {v u w : ValueId} {x : OpId} {i : Nat} {op : Operation} {path : List OpId}
      (hv : b.origin? v = some (.result x i)) (hop : b.op? x = some op)
      (hacc : op.kind.isAccessor = true) (hu : op.operands[0]? = some u) (h : Leads b u path w) :
      Leads b v (x :: path) w

theorem Leads.split {p p' : List OpId} (h : Leads b v (p ++ p') w) :
    ∃ u, Leads b v p u ∧ Leads b u p' w := by
  induction p generalizing v with
  | nil => exact ⟨v, .nil, h⟩
  | cons x p ih =>
    cases h with
    | cons hv hop hacc hu h =>
      obtain ⟨u', h₁, h₂⟩ := ih h
      exact ⟨u', .cons hv hop hacc hu h₁, h₂⟩

theorem Leads.isAccessor {path : List OpId} (h : Leads b v path w) {x : OpId} (hx : x ∈ path)
    {op : Operation} (hop : b.op? x = some op) : op.kind.isAccessor = true := by
  induction h with
  | nil => cases hx
  | cons hv hop' hacc hu _ ih =>
    rcases List.mem_cons.1 hx with rfl | hx
    · rw [hop] at hop'
      rw [Option.some.inj hop', hacc]
    · exact ih hx

theorem Leads.exists_accessor {path : List OpId} (h : b.Leads v path w) (hx : x ∈ path) :
    ∃ op, b.op? x = some op ∧ op.kind.isAccessor = true := by
  induction h with
  | nil => cases hx
  | cons _ hop hacc _ _ ih =>
    rcases List.mem_cons.1 hx with rfl | hx
    · exact ⟨_, hop, hacc⟩
    · exact ih hx

/-- An accessor reads `u`, of the first type, and makes `v`, of the second. -/
inductive Reached (b : Body) (op : Operation) (u v : ValueId) : Ty → Ty → Prop
  | fixed {i : Nat} {t c : Ty} (hk : op.kind.fixedIndex? = some i) (hops : op.operands = [u])
      (hu : b.ty? u = some t) (hv : b.ty? v = some c) (hr : Grows.Reaches t i op.kind c) :
      Reached b op u v t c
  | computed {y : ValueId} {n : Nat} {c a : Ty} (hk : op.kind = .subaccess) (hops : op.operands = [u, y])
      (hu : b.ty? u = some (.vector c n)) (hy : b.ty? y = some a) (hv : b.ty? v = some c) :
      Reached b op u v (.vector c n) c

/-- An accessor reads something. -/
theorem exists_input_of_isAccessor {strict : Prop} {op : Operation} {ins outs : List Ty}
    (hacc : op.kind.isAccessor = true) (hins : b.Types op.operands ins)
    (hsh : op.kind.Shaped strict ins outs) : ∃ u, op.operands[0]? = some u := by
  cases hk : op.kind <;> rw [hk] at hacc hsh <;> cases hacc
  case subfield | subindex =>
    obtain ⟨_, _, rfl, -⟩ := hsh
    obtain ⟨u, -, hops⟩ := hins.singleton
    exact ⟨u, by rw [hops]; rfl⟩
  case subaccess =>
    obtain ⟨_, _, _, rfl, -⟩ := hsh
    obtain ⟨u, _, -, -, hops⟩ := hins.pair
    exact ⟨u, by rw [hops]; rfl⟩

theorem exists_reached {op : Operation} {i : Nat} {ins outs : List Ty} (hb : b.Coherent)
    (hr : b.origin? v = some (.result x i)) (hop : b.op? x = some op)
    (hacc : op.kind.isAccessor = true) (hu : op.operands[0]? = some u) (hins : b.Types op.operands ins)
    (houts : b.Types op.results outs) (hsh : op.kind.Shaped False ins outs) :
    ∃ t c, b.Reached op u v t c := by
  obtain ⟨op', hop', hres⟩ := hb.origin hr
  rw [hop] at hop'
  obtain rfl := Option.some.inj hop'
  cases hfix : op.kind.fixedIndex? with
  | some j =>
    obtain ⟨t, c, rfl, rfl, hreach⟩ := Grows.Reaches.of_shaped hfix hsh
    obtain ⟨u', hu', hops⟩ := hins.singleton
    obtain ⟨v', hv', hress⟩ := houts.singleton
    obtain rfl : u' = u := by simpa [hops] using hu
    obtain rfl : v = v' := by simpa [hress] using List.mem_of_getElem? hres
    exact ⟨t, c, .fixed hfix hops hu' hv' hreach⟩
  | none =>
    have hk : op.kind = .subaccess := by
      cases hk : op.kind <;> simp [hk, OpKind.isAccessor, OpKind.fixedIndex?] at hacc hfix ⊢
    rw [hk] at hsh
    obtain ⟨e, n, a, rfl, rfl⟩ := hsh
    obtain ⟨u', y, hu', hy, hops⟩ := hins.pair
    obtain ⟨v', hv', hress⟩ := houts.singleton
    obtain rfl : u' = u := by simpa [hops] using hu
    obtain rfl : v = v' := by simpa [hress] using List.mem_of_getElem? hres
    exact ⟨_, _, .computed hk hops hu' hy hv'⟩

theorem Reached.tail {op : Operation} {t c : Ty} (h : b.Reached op u v t c) :
    op.operands = u :: op.operands.tail := by
  cases h with
  | fixed hk hops => rw [hops]; rfl
  | computed hk hops => rw [hops]; rfl

/-- An access at a position that must be computed, or in a vector without elements. -/
def Dynamic (b : Body) (x : OpId) : Prop :=
  ∃ op w y, b.op? x = some op ∧ op.kind = .subaccess ∧ op.operands = [w, y] ∧ b.Computed w y

/-- The kind of a computed access. -/
theorem kind_of_isDynamic {op : Operation} (hop : b.op? x = some op) (h : b.isDynamic x = .ok true) : op.kind = .subaccess := by
  have hends : Ends False (b.isDynamic x) fun r => r = true → op.kind = .subaccess := by
    refine Ends.bind (P := (op.kind = ·)) (kindOf_ends (fun op' hop' => ?_) nofun) ?_
    · rw [Option.some.inj (hop.symm.trans hop')]
    rintro _ rfl
    split
    next hk => exact .intro (fun _ _ _ => hk) nofun
    next => exact .pure nofun
  exact hends.of_ok h rfl

theorem isDynamic_ends {must : Prop} (hb : b.Coherent) {op : Operation} {ins outs : List Ty}
    (hop : b.op? x = some op) (hins : b.Types op.operands ins) (hsh : op.kind.Shaped False ins outs) :
    Ends must (b.isDynamic x) fun r => r = true ↔ b.Dynamic x := by
  unfold isDynamic
  refine (kindOf_ends (Q := fun k => k = op.kind) (fun op' hop' => ?_) fun _ => by rw [hop]; rfl).bind ?_
  · rw [hop] at hop'
    rw [Option.some.inj hop']
  rintro _ rfl
  split
  next hk =>
    rw [hk] at hsh
    obtain ⟨e, n, t, rfl, -⟩ := hsh
    obtain ⟨w, y, hw, hy, hops⟩ := hins.pair
    have hdyn : b.Dynamic x ↔ b.Computed w y := by
      constructor
      · rintro ⟨op', w', y', hop', -, hops', hc⟩
        rw [hop] at hop'
        rw [← Option.some.inj hop', hops] at hops'
        obtain ⟨rfl, rfl⟩ : w = w' ∧ y = y' := by simpa using hops'
        exact hc
      · exact fun hc => ⟨op, w, y, hop, hk, hops, hc⟩
    have hoperand : ∀ {i v}, op.operands[i]? = some v →
        Ends must (b.operand x i) (v = ·) := fun {i v} hi => operand_ends (fun op' v' hop' hi' => by
      rw [hop] at hop'
      rw [← Option.some.inj hop', hi] at hi'
      exact Option.some.inj hi') fun _ => ⟨op, v, hop, hi⟩
    refine (hoperand (i := 1) (v := y) (by rw [hops]; rfl)).bind ?_
    rintro _ rfl
    refine (constant?_ends hb fun _ => ?_).bind fun l? hl => ?_
    · rw [isSome_value?, ← isSome_ty?, hy]
      rfl
    refine (hoperand (i := 0) (v := w) (by rw [hops]; rfl)).bind ?_
    rintro _ rfl
    refine (typeOf_ends (Q := (.vector e n = ·)) (fun t' ht' => ?_) fun _ => by rw [hw]; rfl).bind ?_
    · rw [hw] at ht'
      exact Option.some.inj ht'
    rintro _ rfl
    split
    next he =>
      obtain ⟨rfl, rfl⟩ : e = _ ∧ n = 0 := by simpa using he
      exact .pure ⟨fun _ => hdyn.2 (.inl ⟨e, hw⟩), fun _ => rfl⟩
    next hne =>
      refine .pure (Iff.trans ?_ hdyn.symm)
      constructor
      · intro hnone
        refine .inr fun m hm => ?_
        rw [(hl m).1 hm] at hnone
        cases hnone
      · rintro (⟨e', he'⟩ | hno)
        · rw [hw] at he'
          exact absurd (Option.some.inj he') (hne e')
        · cases l? with
          | none => rfl
          | some m => exact absurd ((hl m).2 rfl) (hno m)
  next hk =>
    refine .pure ⟨fun h => (by cases h), ?_⟩
    rintro ⟨op', w, y, hop', hk', -⟩
    rw [hop] at hop'
    rw [← Option.some.inj hop'] at hk'
    exact absurd hk' hk

/-- The accessors from a value on. -/
theorem accessChain_leads (b : Body) (fuel : Nat) {v : ValueId} :
    Ends False (b.accessChain fuel v) fun path => ∃ w, b.Leads v path w := by
  induction fuel generalizing v with
  | zero => exact .pure ⟨v, .nil⟩
  | succ fuel ih =>
    refine Ends.bind (P := fun d? => ∀ d, d? = some d → ∃ i, b.origin? v = some (.result d i))
      (definer_ends (fun _ => nofun) (fun d i hd d' hd' => ⟨i, Option.some.inj hd' ▸ hd⟩) nofun) fun d? hd => ?_
    cases d? with
    | none => exact .pure ⟨v, .nil⟩
    | some d =>
      obtain ⟨i, hv⟩ := hd d rfl
      refine Ends.bind (P := fun kind => ∃ op, b.op? d = some op ∧ op.kind = kind)
        (kindOf_ends (fun op hop => ⟨op, hop, rfl⟩) nofun) ?_
      rintro _ ⟨opd, hop, rfl⟩
      split
      next hacc =>
        refine Ends.bind (P := fun u => opd.operands[0]? = some u) (operand_ends (fun op' u hop' hu => ?_) nofun)
          fun u hu => ?_
        · rwa [Option.some.inj (hop.symm.trans hop')]
        · exact ih.bind fun path ⟨w, hw⟩ => .pure ⟨w, .cons hv hop hacc hu hw⟩
      next => exact .pure ⟨v, .nil⟩

/-- What is left of a path ends with a dynamic access. -/
theorem trimStatic_kept (b : Body) (path : List OpId) :
    Ends False (b.trimStatic path) fun kept => kept <+: path ∧
      ∀ x, kept.getLast? = some x → b.isDynamic x = .ok true := by
  induction path with
  | nil => exact .pure ⟨List.prefix_rfl, nofun⟩
  | cons o path ih =>
    refine ih.bind fun kept ⟨hpre, hlast⟩ => ?_
    cases kept with
    | nil =>
      refine Ends.bind (P := fun dynamic => b.isDynamic o = .ok dynamic) (.intro (fun _ h => h) nofun)
        fun dynamic hd => ?_
      cases dynamic
      · exact .pure ⟨List.nil_prefix, nofun⟩
      · exact .pure ⟨List.prefix_append [o] path, fun x hx => Option.some.inj hx ▸ hd⟩
    | cons x kept => exact .pure ⟨List.prefix_cons_inj o |>.2 hpre, fun y hy => hlast y (by simpa using hy)⟩

/-- The path of a write starts at its destination. -/
theorem writePath_leads {o : OpId} {op : Operation} (hop : b.op? o = some op) :
    Ends False (b.writePath o) fun path => ∃ v rest w, op.operands[0]? = some v ∧
      b.Leads v (path ++ rest) w ∧ ∀ x, path.getLast? = some x → b.isDynamic x = .ok true := by
  refine Ends.bind (P := fun v => op.operands[0]? = some v) (operand_ends (fun op' v hop' hv => ?_) nofun)
    fun v hv => ?_
  · rwa [Option.some.inj (hop.symm.trans hop')]
  refine (b.accessChain_leads _).bind fun chain ⟨w, hw⟩ => (b.trimStatic_kept chain).mono ?_
  rintro kept ⟨⟨rest, rfl⟩, hlast⟩
  exact ⟨v, rest, w, hv, hw, hlast⟩

/-- A list without dynamic accesses is dropped. -/
theorem trimStatic_eq {b : Body} {os : List OpId} (h : ∀ o ∈ os, b.isDynamic o = .ok false) :
    b.trimStatic os = .ok [] := by
  induction os with
  | nil => rfl
  | cons o os ih =>
    unfold trimStatic
    rw [ih fun x hx => h x (List.mem_cons_of_mem _ hx)]
    dsimp only [bind, Except.bind]
    rw [h o List.mem_cons_self]
    rfl

/-- Static accessors behind the last dynamic one are left out. -/
theorem trimStatic_ends {must : Prop} (hb : b.Coherent) {path : List OpId}
    (hpath : ∀ x ∈ path, ∃ op ins outs, b.op? x = some op ∧ b.Types op.operands ins ∧
      op.kind.Shaped False ins outs) :
    Ends must (b.trimStatic path) fun p => (∃ rest, path = p ++ rest ∧ ∀ x ∈ rest, ¬b.Dynamic x) ∧
      ∀ x, p.getLast? = some x → b.Dynamic x := by
  induction path with
  | nil => exact .pure ⟨⟨[], rfl, by simp⟩, by simp⟩
  | cons x path ih =>
    rw [trimStatic]
    refine (ih fun x hx => hpath x (List.mem_cons_of_mem _ hx)).bind fun p ⟨⟨rest, hp, hrest⟩, hlast⟩ => ?_
    subst hp
    cases p with
    | nil =>
      obtain ⟨op, ins, outs, hop, hins, hsh⟩ := hpath x List.mem_cons_self
      refine (isDynamic_ends hb hop hins hsh).bind fun r hr => ?_
      cases r with
      | true => exact .pure ⟨⟨rest, rfl, hrest⟩, fun y hy => by
          obtain rfl : x = y := by simpa using hy
          exact hr.1 rfl⟩
      | false => exact .pure ⟨⟨x :: rest, rfl, fun y hy => by
          rcases List.mem_cons.1 hy with rfl | hy
          · exact fun hd => by cases hr.2 hd
          · exact hrest y hy⟩, by simp⟩
    | cons z p => exact .pure ⟨⟨rest, rfl, hrest⟩, fun y hy => hlast y (by simpa using hy)⟩

end Body

namespace Start

variable {q : Setting} {b₀ : Body} {R₀ : OpId → Nat} {P D N : List OpId} {o x : OpId} {k : BlockId}
  {A B : List OpId} {op : Operation} {v u : ValueId} {s : Builder} {y : Symbols}

/-- What makes a value that may be read stands, and reads such values. -/
theorem readable_operand (h : Start q b₀ R₀ P o D k A B) (hv : b₀.Readable q P v) {i : Nat}
    (hr : b₀.origin? v = some (.result x i)) (hop : b₀.op? x = some op) :
    op.erased = false ∧ (q.ordered → x ∈ P) ∧ ∀ u ∈ op.operands, b₀.Readable q P u := by
  obtain ⟨-, hmade, hstands⟩ := hv
  obtain ⟨op', hop', he⟩ := hstands hr
  rw [hop] at hop'
  obtain rfl := Option.some.inj hop'
  have hmem : q.ordered → x ∈ P := fun hord => by
    rcases hmade hord with ha | ⟨d, hd, j, hr'⟩
    · rw [hr] at ha
      cases ha
    · rw [hr] at hr'
      obtain ⟨rfl, -⟩ : x = d ∧ i = j := by simpa using hr'
      exact hd
  refine ⟨he, hmem, fun u hu => ⟨h.holds.coherent.operand hop hu, fun hord => ?_, fun {d j} hd => ?_⟩⟩
  · exact Closed.madeBy (Closed.of_append (h.holds.closed hord)) (hmem hord) hop hu
  · obtain ⟨opd, hopd, -⟩ := h.holds.coherent.origin hd
    exact ⟨opd, hopd, h.holds.not_read_of_erased ⟨op, hop, hu⟩ hd hopd⟩

/-- The accessors on a path stand, and start from a value that may be read. -/
theorem readable_leads (h : Start q b₀ R₀ P o D k A B) (hv : b₀.Readable q P v) {path : List OpId}
    {w : ValueId} (hp : b₀.Leads v path w) : b₀.Readable q P w ∧ ∀ x ∈ path, ∃ op,
      b₀.op? x = some op ∧ op.erased = false ∧ (q.ordered → x ∈ P) ∧
      ∀ u ∈ op.operands, b₀.Readable q P u := by
  induction hp with
  | nil => exact ⟨hv, by simp⟩
  | @cons v u w x i op path hr hop hacc hu _ ih =>
    obtain ⟨he, hmem, hops⟩ := h.readable_operand hv hr hop
    obtain ⟨hw, hrest⟩ := ih (hops u (List.mem_of_getElem? hu))
    exact ⟨hw, List.forall_mem_cons.2 ⟨⟨op, hop, he, hmem, hops⟩, hrest⟩⟩

theorem accessChain_ends (h : Start q b₀ R₀ P o D k A B) (hv : b₀.Readable q P v) (fuel : Nat) :
    Ends q.must (b₀.accessChain fuel v) fun path => ∃ w, b₀.Leads v path w := by
  induction fuel generalizing v with
  | zero => exact .pure ⟨v, .nil⟩
  | succ fuel ih =>
    have hb := h.holds.coherent
    rw [accessChain]
    refine Ends.bind (P := fun d? => ∀ d, d? = some d → ∃ i, b₀.origin? v = some (.result d i))
      (definer_ends (fun _ => by simp) (fun d i hr => ?_) fun _ => isSome_value?.2 hv.1) ?_
    · rintro d' ⟨⟩
      exact ⟨i, hr⟩
    intro d? hd
    cases d? with
    | none => exact .pure ⟨v, .nil⟩
    | some d =>
      obtain ⟨i, hr⟩ := hd d rfl
      obtain ⟨opd, hopd, -⟩ := hb.origin hr
      obtain ⟨he, -, hreads⟩ := h.readable_operand hv hr hopd
      refine (kindOf_ends (Q := (opd.kind = ·)) (fun op' hop' => ?_) fun _ => by rw [hopd]; rfl).bind ?_
      · rw [hopd] at hop'
        rw [Option.some.inj hop']
      rintro _ rfl
      split
      next hacc =>
        obtain ⟨ins, outs, hins, -, hsh⟩ := h.holds.typed List.not_mem_nil hopd he
        obtain ⟨u, hu⟩ := exists_input_of_isAccessor hacc hins hsh
        refine (operand_ends (Q := (u = ·)) (fun op' u' hop' hu' => ?_) fun _ => ⟨opd, u, hopd, hu⟩).bind ?_
        · rw [hopd] at hop'
          rw [← Option.some.inj hop', hu] at hu'
          exact Option.some.inj hu'
        rintro _ rfl
        refine (ih (hreads u (List.mem_of_getElem? hu))).bind fun path ⟨w, hw⟩ => ?_
        exact .pure ⟨w, .cons hr hopd hacc hu hw⟩
      next => exact .pure ⟨v, .nil⟩

/-- The path from a destination up to its outermost computed access. -/
theorem writePath_ends (h : Start q b₀ R₀ P o D k A B) (hop : b₀.op? o = some op)
    (hv : op.operands[0]? = some v) :
    Ends q.must (b₀.writePath o) fun p => ∃ rest w, b₀.Leads v (p ++ rest) w ∧
      (∀ x ∈ rest, ¬b₀.Dynamic x) ∧ ∀ x, p.getLast? = some x → b₀.Dynamic x := by
  unfold Body.writePath
  refine (operand_ends (Q := (v = ·)) (fun op' v' hop' hv' => ?_) fun _ => ⟨op, v, hop, hv⟩).bind ?_
  · rw [hop] at hop'
    rw [← Option.some.inj hop', hv] at hv'
    exact Option.some.inj hv'
  rintro _ rfl
  have hread := h.readable hop (List.mem_of_getElem? hv)
  refine (h.accessChain_ends hread _).bind fun path ⟨w, hw⟩ => ?_
  refine (trimStatic_ends h.holds.coherent fun x hx => ?_).mono ?_
  · obtain ⟨opx, hopx, he, -⟩ := (h.readable_leads hread hw).2 x hx
    obtain ⟨ins, outs, hins, -, hsh⟩ := h.holds.typed List.not_mem_nil hopx he
    exact ⟨opx, ins, outs, hopx, hins, hsh.mono False.elim⟩
  · rintro p ⟨⟨rest, rfl, hrest⟩, hlast⟩
    exact ⟨rest, w, hw, hrest, hlast⟩

/-- A guard is made in front of the operation that was taken up. -/
theorem guard_runs (h : Start q b₀ R₀ P o D k A B) (hF : Front q b₀ R₀ P o D k A B N s)
    {cond : ValueId} {c : Ty} (hv : AtHand (b₀.Readable q P) N s.body cond)
    (hc : s.body.ty? cond = some c) (hg : c.isGround) (hpos : q.must → 0 < R₀ o) :
    Runs q.must (Build.when cond false) s fun r s' => ∃ H,
      Guarded q b₀ R₀ P o D k A B H r.1 r.2.1 N (N ++ [r.1]) ⟨s'.body, ⟨r.2.1, 0⟩⟩ ∧
      Extends s.body s'.body ∧ s'.point = ⟨k, (A ++ (H ++ [r.1])).length⟩ := by
  obtain ⟨⟨H, hH⟩, R, hR⟩ := hF
  have hb := hR.holds.coherent
  refine (when_runs s cond false fun _ => ⟨hH.place, isSome_ty?.1 (by rw [hc]; rfl)⟩).mono ?_
  rintro ⟨w, t, e⟩ s' ⟨hcr, hp, he⟩
  obtain rfl : e = none := by simpa using he
  have hmaking := h.created (r := R₀ o - 1) hH hR hcr (by simpa using hv) (.cons hc .nil) ⟨c, rfl, rfl⟩
    fun hm => ⟨.of_checked (by simp) (.cons hc .nil) ⟨c, rfl, hg, rfl⟩ (by simp), trivial, by
      have := hpos hm
      omega⟩
  refine ⟨H, ⟨⟨[], [], rfl, InGuard.start hH hb hcr⟩, _, hmaking, fun _ => Function.update_self ..⟩,
    hcr.extended, ?_⟩
  rw [hp, hH.point]
  simp [Nat.add_assoc]

/-- Behind the guard, operations are made in front again. -/
theorem leave {H N₀ : List OpId} {w : OpId} {t : BlockId}
    (hG : Guarded q b₀ R₀ P o D k A B H w t N₀ N s) :
    Front q b₀ R₀ P o D k A B N ⟨s.body, ⟨k, (A ++ (H ++ [w])).length⟩⟩ := by
  obtain ⟨⟨G, NG, rfl, hguard⟩, R, hR, -⟩ := hG
  exact ⟨⟨H ++ [w], hguard.outer⟩, R, hR⟩

end Start

/-! ## The path from one element -/

/-- The operation is a computed access. -/
def Body.computes (b : Body) (x : OpId) : Bool := b.kind? x = some .subaccess

theorem Body.computes_eq {b : Body} {x : OpId} {op : Operation} (hop : b.op? x = some op) :
    b.computes x = decide (op.kind = .subaccess) := by
  simp [computes, kind?_eq, hop]

/-- Each computed access on a path is counted. -/
theorem Body.Leads.accesses {b : Body} {v w : ValueId} {path : List OpId} (h : b.Leads v path w)
    {n : Nat} (hn : b.Accesses v n) : ∃ m, b.Accesses w m ∧ m + path.countP b.computes ≤ n := by
  induction h generalizing n with
  | nil => exact ⟨n, hn, Nat.le_refl _⟩
  | @cons v u w x i op path hv hop hacc hu _ ih =>
    rw [List.countP_cons, computes_eq hop]
    cases hn with
    | argument hv' =>
      rw [hv] at hv'
      cases hv'
    | result hv' hop' hk =>
      rw [hv] at hv'
      obtain ⟨rfl, rfl⟩ : x = _ ∧ i = _ := by simpa using hv'
      rw [hop] at hop'
      rw [← Option.some.inj hop', hacc] at hk
      cases hk
    | fixed hv' hop' hk hops hw =>
      rw [hv] at hv'
      obtain ⟨rfl, rfl⟩ : x = _ ∧ i = _ := by simpa using hv'
      rw [hop] at hop'
      obtain rfl := Option.some.inj hop'
      obtain rfl : _ = u := by simpa [hops] using hu
      obtain ⟨m, hm, hle⟩ := ih hw
      have hne : op.kind ≠ .subaccess := fun he => by
        rw [he] at hk
        cases hk
      exact ⟨m, hm, by simpa [hne] using hle⟩
    | computed hv' hop' hk hops hw =>
      rw [hv] at hv'
      obtain ⟨rfl, rfl⟩ : x = _ ∧ i = _ := by simpa using hv'
      rw [hop] at hop'
      obtain rfl := Option.some.inj hop'
      obtain rfl : _ = u := by simpa [hops] using hu
      obtain ⟨m, hm, hle⟩ := ih hw
      exact ⟨m, hm, by rw [hk]; simp; omega⟩

/-- From `v`, accessors like those of the path make `w`. -/
inductive Retraces (b₀ b : Body) : List OpId → ValueId → ValueId → Prop
  | nil {v : ValueId} : Retraces b₀ b [] v v
  | cons {v u w u₀ w₀ : ValueId} {x d : OpId} {op : Operation} {path : List OpId} {t c : Ty}
      (h : Retraces b₀ b path v u) (hop : b₀.op? x = some op) (hr : b₀.Reached op u₀ w₀ t c)
      (hw : b.Makes d op.kind (u :: op.operands.tail) [w]) : Retraces b₀ b (x :: path) v w

namespace Retraces

variable {b₀ b b' : Body} {path : List OpId} {v w : ValueId}

theorem mono (h : Retraces b₀ b path v w) (hb : Extends b b') : Retraces b₀ b' path v w := by
  induction h with
  | nil => exact .nil
  | cons _ hop hr hw ih => exact .cons ih hop hr (hw.mono hb)

theorem accesses (h : Retraces b₀ b path v w) (hb : b.Coherent) {n : Nat} (hn : b.Accesses v n) :
    b.Accesses w (n + path.countP b₀.computes) := by
  induction h with
  | nil => exact hn
  | @cons v u w u₀ w₀ x d op path t c _ hop hr hw ih =>
    have horigin := hw.origin? hb (i := 0) rfl
    obtain ⟨op', hop', hbare, hops', -⟩ := hw
    rw [List.countP_cons, computes_eq hop]
    cases hr with
    | fixed hk hops =>
      have hne : op.kind ≠ .subaccess := fun he => by
        rw [he] at hk
        cases hk
      rw [hops] at hops'
      simp only [hne, decide_false, Bool.false_eq_true, if_false, Nat.add_zero]
      exact .fixed horigin hop' (by rw [OpKind.fixedIndex?_eq_of_bare_eq hbare, hk]) hops' (ih hn)
    | computed hk hops =>
      rw [hops] at hops'
      simp only [hk, decide_true, if_true, ← Nat.add_assoc]
      refine .computed horigin hop' ?_ hops' (ih hn)
      rw [← hk]
      exact (OpKind.eq_of_bare_eq hbare.symm (by rw [hk]; rfl)).symm

end Retraces

namespace Grows

variable {must : Prop} {S : ValueId → Prop} {M : Body → OpKind → List ValueId → List Ty → Prop}
  {A : OpKind → List Ty → Prop} {I : List OpId → Builder → Prop} {N : List OpId} {t : LowerState}

/-- The same access on another value of the type. -/
theorem reaccess_runs (hI : Grows S M A I) (h : I N t.builder) {b₀ : Body}
    (hext : Extends b₀ t.builder.body) {x : OpId} {op : Operation} {u v leaf : ValueId} {tu c : Ty}
    (hop : b₀.op? x = some op) (hr : b₀.Reached op u v tu c)
    (hv : AtHand S N t.builder.body leaf) (hty : t.builder.body.ty? leaf = some tu)
    (hv' : ∀ w ∈ op.operands.tail, AtHand S N t.builder.body w)
    (hM : M t.builder.body op.kind (leaf :: op.operands.tail) [c]) :
    Runs must (reaccess x leaf) t fun w t' => t'.symbols = t.symbols ∧
      NewValue I N t.builder op.kind (leaf :: op.operands.tail) c w t'.builder := by
  obtain ⟨op', hop', hbare, hops', -⟩ := hext.op? hop
  unfold reaccess
  refine Body.bind_kindOf hop' ?_
  cases hr with
  | @fixed i t c hk hops hu hv₀ hreach =>
    rw [hops, List.tail_cons] at hM ⊢
    have hk' : op'.kind = op.kind :=
      (OpKind.eq_of_bare_eq hbare.symm (by cases hkind : op.kind <;> rw [hkind] at hk <;>
        first | rfl | cases hk)).symm
    rw [hk']
    -- an accessor of this type at this position has this kind
    have hpart : MakesPart M t.builder.body leaf i := by
      intro t' c' kind ht' hr'
      rw [hty] at ht'
      obtain rfl := Option.some.inj ht'
      obtain rfl : c = c' := Option.some.inj (hreach.1.symm.trans hr'.1)
      obtain rfl : op.kind = kind := hreach.kind_eq hr'
      exact hM
    have hend : ∀ {w s'}, NewPart I N t.builder leaf i w s' →
        NewValue I N t.builder op.kind [leaf] c w s' := by
      rintro w s' ⟨t', c', kind, ht', hr', hnew⟩
      rw [hty] at ht'
      obtain rfl := Option.some.inj ht'
      obtain rfl : c = c' := Option.some.inj (hreach.1.symm.trans hr'.1)
      obtain rfl : op.kind = kind := hreach.kind_eq hr'
      exact hnew
    obtain ⟨hc, ⟨hkind, fs, rfl⟩ | ⟨hkind, e, n, rfl⟩⟩ := id hreach
    · rw [hkind]
      obtain ⟨f, hf, -⟩ := Option.map_eq_some_iff.1 hc
      refine Runs.build ((hI.subfield_runs h hv hpart fun _ => ⟨fs, f, hty, hf⟩).mono ?_)
      rintro w s' ⟨-, hnew⟩
      exact ⟨rfl, hkind ▸ hend hnew⟩
    · rw [hkind]
      refine Runs.build ((hI.subindex_runs h hv hpart fun _ => ⟨e, n, hty, ?_⟩).mono ?_)
      · by_contra hi
        simp [Ty.child?, hi] at hc
      · rintro w s' ⟨-, hnew⟩
        exact ⟨rfl, hkind ▸ hend hnew⟩
  | @computed y n c a hk hops hu hy hv₀ =>
    rw [hops, List.tail_cons] at hM hv' ⊢
    rw [hk] at hM ⊢
    have hk' : op'.kind = .subaccess := by
      rw [← hk]
      exact (OpKind.eq_of_bare_eq hbare.symm (by rw [hk]; rfl)).symm
    rw [hk']
    refine Body.bind_operand hop' (v := y) (by rw [hops', hops]; rfl) ?_
    refine Runs.build ((hI.subaccess_runs h hv (hv' y (List.mem_singleton_self _)) (fun e m he => ?_)
      (by rw [hext.ty?_some hy]; rfl) fun _ => ⟨c, n, hty⟩).mono ?_)
    · rw [hty] at he
      obtain ⟨rfl, rfl⟩ : c = e ∧ n = m := by simpa using he
      exact hM
    · rintro w s' ⟨e, m, he, hnew⟩
      rw [hty] at he
      obtain ⟨rfl, rfl⟩ : c = e ∧ n = m := by simpa using he
      exact ⟨rfl, hnew⟩

/-- What is asked of an accessor before the same access is made on another value. -/
def Reaccessible (S : ValueId → Prop) (M : Body → OpKind → List ValueId → List Ty → Prop)
    (I : List OpId → Builder → Prop) (N : List OpId) (s : Builder) (b₀ : Body) (x : OpId) : Prop :=
  ∀ {i op v u}, b₀.origin? v = some (.result x i) → b₀.op? x = some op → op.operands[0]? = some u →
    ∃ t c, b₀.Reached op u v t c ∧ (∀ w ∈ op.operands.tail, AtHand S N s.body w) ∧
      ∀ {N' s' leaf}, Grew I N s N' s' → s'.body.ty? leaf = some t →
        M s'.body op.kind (leaf :: op.operands.tail) [c]

/-- A path is made again, from another value of the type. -/
theorem retrace_runs (hI : Grows S M A I) (h : I N t.builder) {b₀ : Body}
    (hext : Extends b₀ t.builder.body) {path : List OpId} {u v leaf : ValueId} {tu : Ty}
    (hl : b₀.Leads v path u) (hu : b₀.ty? u = some tu) (hv : AtHand S N t.builder.body leaf)
    (hty : t.builder.body.ty? leaf = some tu)
    (hpath : ∀ x ∈ path, Reaccessible S M I N t.builder b₀ x) :
    Runs must (path.reverse.foldlM (fun leaf x => reaccess x leaf) leaf) t fun w t' =>
      t'.symbols = t.symbols ∧ ∃ N', Grew I N t.builder N' t'.builder ∧
        AtHand S N' t'.builder.body w ∧ Retraces b₀ t'.builder.body path leaf w ∧
        ∃ tv, b₀.ty? v = some tv ∧ t'.builder.body.ty? w = some tv := by
  induction hl with
  | nil => exact .pure ⟨rfl, N, .refl h, hv, .nil, tu, hu, hty⟩
  | @cons v u₁ u x i op path hr hop hacc hu₁ _ ih =>
    rw [List.reverse_cons, List.foldlM_append]
    refine (ih hu fun x hx => hpath x (List.mem_cons_of_mem _ hx)).bind ?_
    rintro w₁ t₁ ⟨hy₁, N₁, hg₁, hv₁, hret, tv, htv, hty₁⟩
    obtain ⟨ti, c, hreach, htail, hM⟩ := hpath x List.mem_cons_self hr hop hu₁
    obtain rfl : tv = ti := by
      cases hreach with
      | fixed _ _ hu' => exact Option.some.inj (htv.symm.trans hu')
      | computed _ _ hu' => exact Option.some.inj (htv.symm.trans hu')
    have hc : b₀.ty? v = some c := by
      cases hreach with
      | fixed _ _ _ hv' => exact hv'
      | computed _ _ _ _ hv' => exact hv'
    simp only [List.foldlM_cons, List.foldlM_nil, bind_pure]
    refine (hI.reaccess_runs hg₁.holds (hext.trans hg₁.body) hop hreach hv₁ hty₁
      (fun w hw => hg₁.atHand (htail w hw)) (hM hg₁ hty₁)).mono ?_
    rintro w t₂ ⟨hy₂, d, hg₂, hmk, hwty, -⟩
    refine ⟨hy₂.trans hy₁, _, hg₁.trans hg₂, ?_, .cons (hret.mono hg₂.body) hop hreach hmk, c, hc, hwty⟩
    exact .inr ⟨d, by simp, 0, hmk.origin? (hI.coherent hg₂.holds) rfl⟩

end Grows

/-! ## The write -/

namespace Start

variable {q : Setting} {b₀ : Body} {R₀ : OpId → Nat} {P D N : List OpId} {o access : OpId}
  {k : BlockId} {A B inner rest : List OpId} {op : Operation} {t : LowerState}
  {dest src vector index root : ValueId}

/-- A connection through a path of accessors whose last one, of those that matter, is a computed access
of `vector` at `index`. -/
structure Writes (q : Setting) (b₀ : Body) (P : List OpId) (op : Operation) (dest src : ValueId)
    (inner : List OpId) (access : OpId) (rest : List OpId) (vector index root : ValueId) : Prop where
  operands : op.operands = [dest, src]
  leads : b₀.Leads dest (inner ++ access :: rest) root
  last : ∃ opa, b₀.op? access = some opa ∧ opa.kind = .subaccess ∧ opa.operands = [vector, index]
  stands : ∀ x ∈ inner ++ access :: rest, ∃ op, b₀.op? x = some op ∧ op.erased = false ∧
    (q.ordered → x ∈ P) ∧ ∀ u ∈ op.operands, b₀.Readable q P u

/-- The accessors of a path may be made again in front of the operation that was taken up. -/
theorem reaccessible (h : Start q b₀ R₀ P o D k A B) {x : OpId} {r : Nat}
    {I : List OpId → Builder → Prop} {s : Builder} (hs : ∃ op, b₀.op? x = some op ∧ op.erased = false ∧ (q.ordered → x ∈ P) ∧
      ∀ u ∈ op.operands, b₀.Readable q P u)
    (hacc : ∀ op, b₀.op? x = some op → op.kind.isAccessor = true) (hext : Extends b₀ s.body)
    (hr : q.must → q.depth + 1 < r) :
    Grows.Reaccessible (b₀.Readable q P) (Allowed q r) I N s b₀ x := by
  intro i op v u hv hop hu
  obtain ⟨op', hop', he, hmem, hread⟩ := hs
  rw [hop] at hop'
  obtain rfl := Option.some.inj hop'
  obtain ⟨ins, outs, hins, houts, hsh⟩ := h.holds.typed List.not_mem_nil hop he
  obtain ⟨t, c, hreach⟩ := exists_reached h.holds.coherent hv hop (hacc op hop) hu hins houts
    (hsh.mono False.elim)
  refine ⟨t, c, hreach, fun w hw => .inl (hread w ?_), fun {N' s' leaf} hg hleaf hm => ?_⟩
  · rw [hreach.tail]
    exact List.mem_cons_of_mem _ hw
  have hext' := hext.trans hg.body
  have hready := (h.holds.ready hm (List.mem_append_left [o] (hmem (q.ordered_of_must hm))) hop he
    houts).1
  obtain ⟨hres, hout⟩ : (∃ w, op.results = [w]) ∧ outs = [c] := by
    cases hreach with
    | fixed hk _ _ hv' hr' =>
      obtain ⟨t', c', -, rfl, -⟩ := Grows.Reaches.of_shaped hk hsh
      obtain ⟨w, hw, hres⟩ := houts.singleton
      obtain ⟨opx, hopx, hresv⟩ := h.holds.coherent.origin hv
      rw [hop] at hopx
      obtain rfl := Option.some.inj hopx
      obtain rfl : v = w := by simpa [hres] using List.mem_of_getElem? hresv
      rw [hv'] at hw
      exact ⟨⟨v, hres⟩, by rw [Option.some.inj hw]⟩
    | computed hk hops _ _ hv' =>
      rw [hk] at hsh
      obtain ⟨e, n, a, -, rfl⟩ := hsh
      obtain ⟨w, hw, hres⟩ := houts.singleton
      obtain ⟨opx, hopx, hresv⟩ := h.holds.coherent.origin hv
      rw [hop] at hopx
      obtain rfl := Option.some.inj hopx
      obtain rfl : v = w := by simpa [hres] using List.mem_of_getElem? hresv
      rw [hv'] at hw
      exact ⟨⟨v, hres⟩, by rw [Option.some.inj hw]⟩
  subst hout
  have hsized := hready.sized c (List.mem_singleton_self c)
  have hagree := hext'.agrees h.holds.coherent
  cases hreach with
  | @fixed j t c hk hops hu' hv' hr' =>
    rw [hops, List.tail_cons]
    refine ⟨.of_checked (fun he => ?_) (.cons hleaf .nil) ?_ (by simpa using hsized), 0, ?_, ?_⟩
    · rw [he] at hk
      cases hk
    · have := hr'.shaped
      cases hkind : op.kind <;> rw [hkind] at hk this <;> first | exact this | cases hk
    · have := hr hm
      omega
    · cases hkind : op.kind <;> rw [hkind] at hk <;> trivial
  | @computed y n c a hk hops hu' hy hv' =>
    rw [hk, hops] at hready ⊢
    have hylt : y.index < b₀.values.size := h.holds.coherent.operand hop (by simp [hops])
    obtain ⟨ins', hins', e, n', x', rfl, -, hx⟩ := hready.types
    obtain rfl : a = x' := by
      cases hins' with | cons _ h₂ => cases h₂ with | cons h₂ _ => simpa using hy.symm.trans h₂
    refine ⟨⟨⟨[.vector c n, a], .cons hleaf (.cons (hext'.ty?_some hy) .nil), c, n, a, rfl, rfl, hx⟩,
      hready.sized, fun {w z e m l} _ hwz hw hl => ?_⟩, c.depth + 1, ?_, fun t ht => ?_⟩
    · obtain ⟨rfl, rfl⟩ : leaf = w ∧ y = z := by simpa using hwz
      rw [hleaf] at hw
      obtain ⟨rfl, rfl⟩ : c = e ∧ n = m := by simpa using hw
      exact hready.literal rfl rfl hu' ((hagree.literal hylt).1 hl)
    · have := hr hm
      omega
    · rw [List.mem_singleton.1 ht]
      exact Nat.lt_succ_self _

/-- What is known of the outermost computed access of a write. -/
theorem Writes.types (hw : Writes q b₀ P op dest src inner access rest vector index root)
    (h : Start q b₀ R₀ P o D k A B) : ∃ e n x, b₀.ty? vector = some (.vector e n) ∧
      b₀.ty? index = some x ∧ b₀.Readable q P vector ∧ b₀.Readable q P index ∧
      (q.must → x.isGround) ∧ ∃ v, b₀.Leads dest inner v ∧ b₀.ty? v = some e ∧
        b₀.Leads v (access :: rest) root ∧ b₀.Leads vector rest root := by
  obtain ⟨v, hin, hout⟩ := hw.leads.split
  obtain ⟨opa, hopa, hka, hops⟩ := hw.last
  obtain ⟨opa', hopa', he, hmem, hread⟩ := hw.stands access (by simp)
  rw [hopa] at hopa'
  obtain rfl := Option.some.inj hopa'
  obtain ⟨ins, outs, hins, houts, hsh⟩ := h.holds.typed List.not_mem_nil hopa he
  have hins' := hins
  rw [hka] at hsh
  obtain ⟨e, n, x, rfl, rfl⟩ := hsh
  rw [hops] at hins'
  have hvec : b₀.ty? vector = some (.vector e n) := by cases hins' with | cons h₁ _ => exact h₁
  have hidx : b₀.ty? index = some x := by
    cases hins' with | cons _ h₂ => cases h₂ with | cons h₂ _ => exact h₂
  refine ⟨e, n, x, hvec, hidx, hread _ (by simp [hops]), hread _ (by simp [hops]), fun hm => ?_, v, hin,
    ?_, hout, ?_⟩
  · obtain ⟨ins', hins'', hck⟩ :=
      (h.holds.ready hm (List.mem_append_left [o] (hmem (q.ordered_of_must hm))) hopa he houts).1.types
    rw [hka] at hck
    obtain ⟨e', n', x', rfl, -, hx⟩ := hck
    have := hins.unique hins''
    obtain rfl : x = x' := by simpa using (List.cons.inj (List.cons.inj this).2).1
    exact hx
  · cases hout with
    | cons hv hop hacc hu hrest =>
      rw [hopa] at hop
      obtain rfl := Option.some.inj hop
      obtain ⟨opx, hopx, hres⟩ := h.holds.coherent.origin hv
      rw [hopa] at hopx
      obtain rfl := Option.some.inj hopx
      obtain ⟨w, hw', hress⟩ := houts.singleton
      obtain rfl : v = w := by simpa [hress] using List.mem_of_getElem? hres
      exact hw'
  · cases hout with
    | cons hv hop hacc hu hrest =>
      rw [hopa] at hop
      obtain rfl := Option.some.inj hop
      obtain rfl : vector = _ := by simpa [hops] using hu
      exact hrest

/-- A write to one element is made behind a guard of its own. -/
theorem guardedWrite_runs (h : Start q b₀ R₀ P o D k A B) (hop : b₀.op? o = some op)
    (he : op.erased = false) {strict : Bool} (hk : op.kind = .connect strict)
    (hw : Writes q b₀ P op dest src inner access rest vector index root) {e : Ty} {n : Nat}
    (hvec : b₀.ty? vector = some (.vector e n)) (hF : Front q b₀ R₀ P o D k A B N t.builder)
    (hext : Extends b₀ t.builder.body) {width i : Nat} (hi : q.must → i < n) :
    Runs q.must (guardedWrite strict vector index src width inner i) t fun _ t' =>
      t'.symbols = t.symbols ∧ ∃ N', Grew (Front q b₀ R₀ P o D k A B) N t.builder N' t'.builder := by
  obtain ⟨ins, outs, hins, houts, hsh⟩ := h.shaped hop he
  have hsrc : b₀.Readable q P src := h.readable hop (by simp [hw.operands])
  obtain ⟨e', n', x, hvec', hidx, hrvec, hridx, hground, v, hinner, hvty, hacc, hrest⟩ := hw.types h
  rw [hvec] at hvec'
  obtain ⟨rfl, rfl⟩ : e = e' ∧ n = n' := by simpa using hvec'
  rw [hk] at hsh
  obtain ⟨td, ts, rfl, rfl⟩ := hsh
  obtain ⟨dest', src', htd, hts, hops⟩ := hins.pair
  obtain ⟨rfl, rfl⟩ : dest = dest' ∧ src = src' := by simpa [hw.operands] using hops
  -- one computed access less is left for the new write
  have hrank : q.must → ts = td ∧ ∃ m, b₀.Accesses vector m ∧ td.depth * (2 * q.depth + 2) +
      2 * (m + inner.countP b₀.computes + 1) + q.depth + 3 ≤ R₀ o := by
    intro hm
    obtain ⟨hready, hsuf⟩ := h.ready hm hop he houts
    rw [hk, hops] at hready hsuf
    obtain ⟨ins', hins', t', rfl, -⟩ := hready.types
    obtain ⟨rfl, rfl⟩ : td = t' ∧ ts = t' := by
      rw [hops] at hins
      simpa using hins.unique hins'
    obtain ⟨m, hacc', hle⟩ := hsuf dest ts rfl htd
    obtain ⟨m₁, hm₁, hle₁⟩ := hinner.accesses hacc'
    obtain ⟨opa, hopa, hka, hopsa⟩ := hw.last
    obtain ⟨m₂, hm₂, hle₂⟩ : ∃ m₂, b₀.Accesses vector m₂ ∧ m₂ + 1 ≤ m₁ := by
      have hsingle : b₀.Leads v [access] vector := by
        cases hacc with
        | cons hv' hop' hacc' hu _ =>
          rw [hopa] at hop'
          obtain rfl := Option.some.inj hop'
          exact .cons hv' hopa hacc' (by rw [hopsa]; rfl) .nil
      obtain ⟨m₂, hm₂, hle₂⟩ := hsingle.accesses hm₁
      rw [List.countP_singleton, computes_eq hopa, hka] at hle₂
      exact ⟨m₂, hm₂, by simpa using hle₂⟩
    exact ⟨rfl, m₂, hm₂, by omega⟩
  have hpos : q.must → q.depth + 4 < R₀ o := fun hm => by
    obtain ⟨-, m, -, hle⟩ := hrank hm
    omega
  have hR₀ : q.must → 0 < R₀ o := fun hm => Nat.lt_of_le_of_lt (Nat.zero_le _) (hpos hm)
  unfold guardedWrite
  -- the position and the condition
  refine Runs.bind_build (h.grows.constant_runs hF rfl fun hm => ⟨.of_checked (by simp) .nil
    ⟨rfl, _, rfl, rfl⟩ (by simp [Ty.lastId?, Ty.depth]), 0, hR₀ hm, trivial⟩) ?_
  intro position s₁ hnew₁
  obtain ⟨N₁, hg₁, hmade₁, hty₁⟩ := hnew₁.madeIn
  have hins₁ : s₁.body.Types [index, position] [x, .uint width] :=
    .cons ((hext.trans hg₁.body).ty?_some hidx) (.cons hty₁ .nil)
  refine Runs.bind_build (h.grows.prim_runs (p := .eq) hg₁.holds ?_ hins₁ rfl
    fun hm => ⟨.of_checked (by simp) hins₁ ⟨by simpa [Ty.isGround] using hground hm, _, rfl, rfl⟩
      (by simp [Ty.lastId?, Ty.depth]), 0, hR₀ hm, trivial⟩) ?_
  · intro u hu
    rcases List.mem_cons.1 hu with rfl | hu
    · exact .inl hridx
    · rw [List.mem_singleton.1 hu]
      exact hmade₁.atHand (h.grows.coherent hg₁.holds)
  intro cond s₂ hnew₂
  obtain ⟨N₂, hg₂, hmade₂, hty₂⟩ := hnew₂.madeIn
  refine Runs.bind_build (h.guard_runs hg₂.holds (hmade₂.atHand (h.grows.coherent hg₂.holds)) hty₂ rfl
    hR₀) ?_
  rintro ⟨w, tb, eb⟩ s₃ ⟨H, hG, hext₃, hp₃⟩
  refine Runs.bind_point (Runs.bind_moveTo ?_)
  -- behind the guard
  have hgrows : Grows (b₀.Readable q P) (Allowed q (R₀ o - 1)) (fun kind outs => q.must →
    kind.Declares outs) (Guarded q b₀ R₀ P o D k A B H w tb N₂) := growsIn
  have hext₀ := ((hext.trans hg₁.body).trans hg₂.body).trans hext₃
  refine Runs.bind_build (hgrows.subindex_runs (s := ⟨s₃.body, ⟨tb, 0⟩⟩) hG (.inl hrvec)
    (.part (fun hm {_ _} hu => ?_) (fun hm => ?_) vector i)
    fun hm => ⟨e, n, hext₀.ty?_some hvec, hi hm⟩) ?_
  · obtain ⟨-, R, hR, -⟩ := hG
    exact hR.holds.sized hm hu
  · have := hpos hm
    omega
  rintro leaf s₄ ⟨-, hpart⟩
  obtain ⟨N₄, hg₄, hmade₄, hpartOf⟩ := hpart.partOf
  have hat₄ := hmade₄.atHand (S := b₀.Readable q P) (hgrows.coherent hg₄.holds)
  have hext₄ := hext₀.trans hg₄.body
  have hleafty : s₄.body.ty? leaf = some e := by
    obtain ⟨-, t', c, ht', hc, hleaf⟩ := hpartOf
    rw [hext₄.ty?_some hvec] at ht'
    rw [← Option.some.inj ht', Ty.child?] at hc
    split at hc
    · rw [hleaf, hc]
    · cases hc
  refine Runs.bind (hgrows.retrace_runs (t := ⟨s₄, t.symbols⟩) hg₄.holds hext₄ hinner hvty hat₄ hleafty
    fun y hy => ?_) ?_
  · refine h.reaccessible (hw.stands y (by simp [hy])) (fun opy hopy => ?_) hext₄ fun hm => ?_
    · exact hinner.isAccessor hy hopy
    · have := hpos hm
      omega
  rintro leaf' t₅ ⟨hy₅, N₅, hg₅, hat₅, hret, tv, htv, hty₅⟩
  rw [htd] at htv
  obtain rfl := Option.some.inj htv
  have hext₅ := hext₄.trans hg₅.body
  refine Runs.bind_build (hgrows.connect_runs hg₅.holds hat₅ (.inl hsrc) hty₅ (hext₅.ty?_some hts)
    fun hm => ?_) ?_
  · obtain ⟨rfl, m, hm', hle⟩ := hrank hm
    have hb₅ := hgrows.coherent hg₅.holds
    have hvacc := hm'.agrees (hext₅.agrees h.holds.coherent) hrvec.1
    have hleafacc := hret.accesses hb₅ ((hpartOf.mono hg₅.body).accesses hb₅ hvacc)
    exact ⟨rfl, _, hleafacc, by omega⟩
  rintro d s₆ hg₆
  refine Runs.build (Runs.moveTo ⟨hy₅, N₅ ++ [d], ?_⟩)
  have hfront := leave hg₆.holds
  rw [hp₃]
  refine ⟨hfront, (((hg₁.body.trans hg₂.body).trans hext₃).trans hg₄.body).trans
    (hg₅.body.trans hg₆.body), ?_⟩
  exact ((hg₁.made.trans hg₂.made).trans (List.prefix_append _ _)).trans
    ((hg₄.made.trans hg₅.made).trans hg₆.made)

/-- A write through a computed access gives way to one guarded write for each element; any other
connection is left as it is. -/
theorem writePath_runs (h : Start q b₀ R₀ P o D k A B) {y : Symbols} (htr : b₀.Tracked y)
    (hop : b₀.op? o = some op) (he : op.erased = false) {strict : Bool} (hk : op.kind = .connect strict) :
    Runs q.must (Lower.writePath o strict) ⟨⟨b₀, ⟨k, A.length⟩⟩, y⟩ fun replaced t =>
      if replaced then Stepped q.must (Lowering.stage q) b₀ R₀ k A o B P D true t
      else t = ⟨⟨b₀, ⟨k, A.length⟩⟩, y⟩ := by
  obtain ⟨ins, outs, hins, houts, hsh⟩ := h.shaped hop he
  rw [hk] at hsh
  obtain ⟨td, ts, rfl, rfl⟩ := hsh
  obtain ⟨dest, src, -, -, hops⟩ := hins.pair
  have hres : op.results = [] := List.forall₂_nil_right_iff.1 houts
  unfold Lower.writePath
  refine Runs.bind_body (h.writePath_ends hop (v := dest) (by rw [hops]; rfl)) ?_
  rintro path ⟨rest, root, hleads, -, hlast⟩
  cases hpath : path.getLast? with
  | none => exact .pure rfl
  | some access =>
    obtain ⟨inner, rfl⟩ : ∃ inner, path = inner ++ [access] := List.getLast?_eq_some_iff.1 hpath
    obtain ⟨opa, vector, index, hopa, hka, hopsa, -⟩ := hlast access hpath
    rw [List.append_assoc, List.singleton_append] at hleads
    have hw : Writes q b₀ P op dest src inner access rest vector index root :=
      ⟨hops, hleads, ⟨opa, hopa, hka, hopsa⟩,
        (h.readable_leads (h.readable hop (by simp [hops])) hleads).2⟩
    obtain ⟨e, n, -, hvec, -⟩ := hw.types h
    refine Body.bind_operand hopa (v := vector) (by rw [hopsa]; rfl) ?_
    refine Body.bind_operand hopa (v := index) (by rw [hopsa]; rfl) ?_
    refine Body.bind_operand hop (v := src) (by rw [hops]; rfl) ?_
    refine Runs.bind_body ((vectorOf_ends fun _ => ⟨e, n, hvec⟩).mono (Q := ((e, n) = ·)) ?_) ?_
    · rintro ⟨e', n'⟩ hvec'
      rw [hvec] at hvec'
      simpa using hvec'
    rintro _ rfl
    rw [List.dropLast_concat]
    refine Runs.bind (Runs.forM (fun _ t => t.symbols = y ∧
      ∃ N, Grew (Front q b₀ R₀ P o D k A B) [] ⟨b₀, ⟨k, A.length⟩⟩ N t.builder) (List.range n)
      ⟨rfl, [], .refl h.front⟩ ?_) ?_
    · rintro done i rest' t hl ⟨hy, N, hg⟩
      have hi : i < n := List.mem_range.1 (hl ▸ List.mem_append_right done List.mem_cons_self)
      refine (h.guardedWrite_runs hop he hk hw hvec hg.holds hg.body fun _ => hi).mono ?_
      rintro _ t' ⟨hy', N', hg'⟩
      exact ⟨hy'.trans hy, N', hg.trans hg'⟩
    rintro _ t ⟨hy, N, hg⟩
    obtain ⟨⟨H, hH⟩, R, hR⟩ := hg.holds
    obtain ⟨op', hop', hbare, -, hres', -⟩ := hg.body.op? hop
    have hplain : op'.kind.blocks = [] := by
      rw [OpKind.blocks_eq_of_bare_eq hbare, hk]
      rfl
    have hread : ¬t.builder.body.ResultRead o := by
      rintro ⟨op'', v, x, hop'', hv, -⟩
      rw [hop'] at hop''
      rw [← Option.some.inj hop'', hres', hres] at hv
      cases hv
    refine Runs.bind_change (dropOperands_ends fun _ => by rw [hop']; rfl) fun b₁ hd => ?_
    have hlow := hR.holds.dropped rfl hd hread (.inl (List.mem_singleton_self o)) fun {op''} hop'' => by
      rw [hop'] at hop''
      rw [← Option.some.inj hop'', hplain]
    have hout := hd.outlives rfl
    refine Runs.bind_change (hlow.eraseUnread_ends fun x hx => ?_) fun b₂ ⟨hlow₂, hout₂⟩ => .pure ?_
    · obtain ⟨opx, hopx, -⟩ := hw.stands x (by simp at hx; simp [hx.imp_right Or.inl])
      have hacc := hleads.isAccessor (by simp at hx; simp [hx.imp_right Or.inl]) hopx
      obtain ⟨op₁, hop₁, hbare₁, -⟩ := hg.body.op? hopx
      obtain ⟨op₂, hop₂, hk₂, -⟩ := hout.op?_some hop₁
      refine ⟨op₂, hop₂, ?_⟩
      rw [hk₂, OpKind.blocks_eq_of_bare_eq hbare₁]
      cases hkind : opx.kind <;> rw [hkind] at hacc <;> first | rfl | cases hacc
    · rw [if_pos rfl]
      have hout' := hout.trans hout₂
      refine h.stepped hH hR ?_ hout' hlow₂ ?_ fun _ => ?_
      · rw [guardedBlocks_eq hop, hk]
        rfl
      · rw [hy]
        exact (htr.persists hg.body.persists).outlives hout'
      · rintro ⟨op'', v, x, hop'', hv, -⟩
        obtain ⟨op₃, hop₃, -, hres₃, -⟩ := hout'.op?_some' hop''
        rw [hop'] at hop₃
        obtain rfl := Option.some.inj hop₃
        rw [hres₃, hres', hres] at hv
        cases hv

end Start

end Scalarize
