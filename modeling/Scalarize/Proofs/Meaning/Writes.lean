import Scalarize.Proofs.Meaning.Producers
import Scalarize.Proofs.Region.Way

/-!
# Connections

* `Interpreted.access` : what a pending access keeps; `Interpreted.straight` : a destination without a computed
  position on the way to it;
* `Draft.reaccess_reaches`, `Draft.retrace_reaches` : the same access and the same path from another value;
* `Written`, `Written.guardedWrite_runs` : guarded writes so far, of which the one at the position of the access counts;
* `Due.writePath_runs`, `Due.connect_runs` : a connection gives way to guarded writes, or to one for each part.
-/

namespace Scalarize

open Body Lower

variable {I : Interpretation} {idle : OpId → Prop} {W : List OpId → Builder → Prop} {P P₀ : List OpId}
  {S : ValueId → Sense} {b : Body}

/-! ## Ways to values -/

namespace Body

variable {v u : ValueId} {x o : OpId} {op : Operation} {i : Nat} {path : List OpId} {t c : Ty}

/-- What is made behind `P` may read the value. -/
structure Provides (idle : OpId → Prop) (b : Body) (P : List OpId) (v : ValueId) (t : Ty) : Prop where
  made : b.MadeBy P v
  owned : b.Owned idle v
  ty? : b.ty? v = some t

theorem MadeBy.mem (hv : b.MadeBy P v) (horigin : b.origin? v = some (.result x i)) : x ∈ P := by
  rcases hv with harg | ⟨y, hy, j, hy'⟩
  · rw [harg] at horigin
    cases horigin
  · obtain ⟨rfl, -⟩ : x = y ∧ i = j := by simpa using horigin.symm.trans hy'
    exact hy

theorem Owned.active (ho : b.Owned idle v) (horigin : b.origin? v = some (.result x i)) : ∃ op, b.Active idle x op := by
  rcases ho with harg | ⟨y, j, op, hy, hact⟩
  · rw [harg] at horigin
    cases horigin
  · obtain ⟨rfl, -⟩ : x = y ∧ i = j := by simpa using horigin.symm.trans hy
    exact ⟨op, hact⟩

/-- What a pending operation reads is made in front of it. -/
theorem Interpreted.provides (h : b.Interpreted I idle P S) (hx : x ∈ P) (hact : b.Active idle x op)
    (hv : v ∈ op.operands) (ht : b.ty? v = some t) : b.Provides idle P v t :=
  ⟨(h.expects hx hact).reads v hv, h.scope hact hv, ht⟩

/-- What an accessor reaches is a part of what it reads. -/
theorem Heeds.part (h : b.Heeds I S op) (hacc : op.kind.isAccessor = true) : ∃ t c j rest,
    b.Types op.operands (t :: rest) ∧ b.Types op.results [c] ∧ t.child? j = some c ∧
      op.kind.reach? (op.operands.map (b.reading S)) = some j := by
  obtain ⟨ins, outs, hins, houts, hfits, -⟩ := h.typed
  cases hk : op.kind with
  | subfield j | subindex j =>
    rw [hk] at hfits
    obtain ⟨t, c, rfl, hc, rfl⟩ := hfits
    exact ⟨t, c, j, [], hins, houts, hc, rfl⟩
  | subaccess =>
    rw [hk] at hfits
    obtain ⟨e, n, a, rfl, rfl⟩ := hfits
    obtain ⟨w, y, e', n', j, hwy, hw, hj, hlt⟩ := h.reaches hk
    obtain ⟨rfl, rfl⟩ : e = e' ∧ n = n' := by
      rw [hwy] at hins
      cases hins with | cons h₁ _ => simpa using h₁.symm.trans hw
    exact ⟨_, e, j, [a], hins, houts, by simp [Ty.child?, hlt], by rw [hwy]; exact hj⟩
  | _ =>
    rw [hk] at hacc
    cases hacc

/-- A pending accessor makes the part that it reaches of a value that stands in front of it. -/
theorem Interpreted.access (h : b.Interpreted I idle P S) (hv : b.Provides idle P v c)
    (horigin : b.origin? v = some (.result x i)) (hop : b.op? x = some op) (hacc : op.kind.isAccessor = true)
    (hu : op.operands[0]? = some u) : x ∈ P ∧ b.Active idle x op ∧ ∃ t j, b.Provides idle P u t ∧
      t.child? j = some c ∧ op.kind.reach? (op.operands.map (b.reading S)) = some j ∧ S v = (S u).part j := by
  have hx := hv.made.mem horigin
  have hact : b.Active idle x op := by
    obtain ⟨op', hact⟩ := hv.owned.active horigin
    rwa [Option.some.inj (hop.symm.trans hact.op?)]
  obtain ⟨t, c', j, rest, hins, houts, hc, hreach⟩ := (h.heeds hact).part hacc
  obtain ⟨r, hr, hres⟩ := houts.singleton
  obtain ⟨op₁, hop₁, hv₁⟩ := h.coherent.origin horigin
  obtain rfl : r = v := by
    rw [Option.some.inj (hop₁.symm.trans hop), hres] at hv₁
    exact (List.mem_singleton.1 (List.mem_of_getElem? hv₁)).symm
  obtain rfl := Option.some.inj (hr.symm.trans hv.ty?)
  refine ⟨hx, hact, t, j, h.provides hx hact (List.mem_of_getElem? hu) (hins.getElem?_eq hu rfl), hc, hreach,
    (h.expects hx hact).sense (by rw [hres]; rfl) ?_⟩
  obtain ⟨w, ws, hws⟩ : ∃ w ws, op.operands = w :: ws := by
    cases hops : op.operands with
    | nil => rw [hops] at hu; cases hu
    | cons w ws => exact ⟨w, ws, rfl⟩
  unfold Body.sense
  rw [hreach, hws]
  rw [hws] at hu
  exact congrArg (fun v => some ((S v).part j)) (Option.some.inj hu)

/-- All values on a path may be read. -/
theorem Interpreted.provides_leads (h : b.Interpreted I idle P S) (hl : b.Leads v path u) (hv : b.Provides idle P v c) :
    ∃ t, b.Provides idle P u t := by
  induction hl generalizing c with
  | nil => exact ⟨c, hv⟩
  | cons horigin hop hacc hu _ ih =>
    obtain ⟨-, -, t, j, hu', -⟩ := h.access hv horigin hop hacc hu
    exact ih hu'

/-- Accessors lead from a value up to a root. -/
theorem Interpreted.exists_leads (h : b.Interpreted I idle P S) {Q L : List OpId} (hP : P = Q ++ L)
    (hv : b.MadeBy Q v) (ho : b.Owned idle v) : ∃ path w, b.Leads v path w ∧ b.Root w := by
  -- what an accessor reads is made in front of it
  induction hn : Q.length using Nat.strong_induction_on generalizing Q L v with
  | _ n ih =>
    rcases ho with harg | ⟨x, i, op, horigin, hact⟩
    · refine ⟨[], v, .nil, isSome_of_origin? harg, fun horigin _ => ?_⟩
      rw [harg] at horigin
      cases horigin
    cases hacc : op.kind.isAccessor with
    | false =>
      refine ⟨[], v, .nil, isSome_of_origin? horigin, fun {y j op'} horigin' hop' => ?_⟩
      obtain ⟨rfl, -⟩ : x = y ∧ i = j := by simpa using horigin.symm.trans horigin'
      rwa [Option.some.inj (hop'.symm.trans hact.op?)]
    | true =>
      obtain ⟨ins, outs, hins, -, -, hshaped⟩ := (h.heeds hact).typed
      obtain ⟨u, hu⟩ := exists_input_of_isAccessor hacc hins hshaped
      obtain ⟨Q', L', rfl⟩ := List.append_of_mem (hv.mem horigin)
      have hmem := List.mem_of_getElem? hu
      have hreads := (h.pending (L := L' ++ L) (by rw [hP, List.append_assoc]; rfl) hact).reads u hmem
      obtain ⟨path, w, hl, hw⟩ := ih Q'.length (by simp [← hn]) (Q := Q') (L := x :: L' ++ L)
        (by rw [hP, List.append_assoc]) hreads (h.scope hact hmem) rfl
      exact ⟨x :: path, w, .cons horigin hact.op? hacc hu hl, hw⟩

theorem Leads.static {w : ValueId} (h : b.Leads v path w) (hb : b.Coherent) (hw : b.Root w)
    (hd : ∀ x ∈ path, b.isDynamic x = .ok false) : b.Static v := by
  induction h with
  | @nil v =>
    obtain ⟨⟨ty, origin, uses⟩, hv⟩ := Option.isSome_iff_exists.1 hw.known
    have ho : b.origin? v = some origin := origin?_eq_some_iff.2 ⟨_, hv, rfl⟩
    cases origin with
    | argument => exact .argument ho
    | result x i =>
      obtain ⟨op, hop, -⟩ := hb.origin ho
      exact .result ho hop (hw.made ho hop)
  | cons hv hop hacc hu _ ih =>
    exact .accessor hv hop hacc hu (hd _ List.mem_cons_self) (ih hw fun x hx => hd x (List.mem_cons_of_mem _ hx))

/-- Nothing is left only of a path without computed accesses. -/
theorem isDynamic_of_trimStatic (h : b.trimStatic path = .ok []) : ∀ x ∈ path, b.isDynamic x = .ok false := by
  induction path with
  | nil => nofun
  | cons y path ih =>
    rw [trimStatic] at h
    cases hrest : b.trimStatic path with
    | error => rw [hrest] at h; cases h
    | ok rest =>
      rw [hrest] at h
      cases rest with
      | cons z rest => cases h
      | nil =>
        refine List.forall_mem_cons.2 ⟨?_, ih hrest⟩
        cases hy : b.isDynamic y with
        | error e =>
          dsimp only [bind, Except.bind] at h
          rw [hy] at h
          cases h
        | ok dynamic =>
          dsimp only [bind, Except.bind] at h
          rw [hy] at h
          cases dynamic
          · rfl
          · cases h

/-- A connection that is not written at a computed position is one to a value that is reached without. -/
theorem Interpreted.static_of_writePath (h : b.Interpreted I idle P S) (hop : b.op? o = some op)
    (hv : op.operands[0]? = some v) (hprovides : b.Provides idle P v t) (hw : b.writePath o = .ok []) : b.Static v := by
  obtain ⟨path, w, hl, hroot⟩ := h.exists_leads (L := []) (by rw [List.append_nil]) hprovides.made hprovides.owned
  refine hl.static h.coherent hroot (isDynamic_of_trimStatic ?_)
  unfold writePath at hw
  rw [operand_eq_ok hop hv] at hw
  change (b.accessChain b.ops.size v >>= b.trimStatic) = _ at hw
  rwa [hl.accessChain_eq h.coherent hroot (hl.length_le hroot)] at hw

/-- A destination that is not written at a computed position is reached without one. -/
theorem Interpreted.straight (h : b.Interpreted I idle P S) (hv : b.Provides idle P v c) (hcast : ¬b.GroundCast idle v)
    (hs : b.Static v) : b.Straight idle S v := by
  refine ⟨fun u => (∃ t, b.Provides idle P u t) ∧ b.Static u ∧ ¬b.GroundCast idle u, ⟨⟨c, hv⟩, hs, hcast⟩,
    fun {u x i op} ⟨⟨c, hu⟩, hs, _⟩ horigin hact hacc => ?_, fun hu => hu.2.2,
    fun ⟨⟨_, hu⟩, _⟩ horigin => hu.owned.active horigin⟩
  cases hs with
  | argument harg =>
    rw [harg] at horigin
    cases horigin
  | result horigin' hop' hk =>
    obtain ⟨rfl, -⟩ : x = _ ∧ i = _ := by simpa using horigin.symm.trans horigin'
    rw [← Option.some.inj (hact.op?.symm.trans hop'), hacc] at hk
    cases hk
  | @accessor _ w y j op' horigin' hop' hk hw hy hs' =>
    obtain ⟨rfl, -⟩ : x = y ∧ i = j := by simpa using horigin.symm.trans horigin'
    obtain rfl := Option.some.inj (hact.op?.symm.trans hop')
    obtain ⟨-, -, t, m, hw', hc, hreach, hS⟩ := h.access hu horigin hact.op? hacc hw
    refine ⟨w, m, hw, ⟨⟨t, hw'⟩, hs', ?_⟩, hreach, by rw [hS], fun hsub => ?_⟩
    · -- the value has parts
      rintro ⟨-, -, -, -, g, -, -, -, -, -, hg, -⟩
      rw [hw'.ty?] at hg
      rw [Option.some.inj hg] at hc
      cases hc
    · obtain ⟨-, z, -, n, -, hz, -, -, hlit⟩ := placable_of_isDynamic h.coherent hact.op? hy hsub
      exact ⟨z, n, hz, hlit⟩

/-- Accessors that nothing reads any more are erased. -/
theorem Interpreted.eraseUnread_ends : ∀ {b : Body}, b.Interpreted I idle P S →
    (∀ x ∈ path, ∀ op, b.op? x = some op → op.kind.isAccessor = true) →
    Ends False (b.eraseUnread path) fun b' => b'.Interpreted I idle P S ∧ Silent idle b S b' S ∧ Outlives b b' := by
  induction path with
  | nil => exact fun h _ => .pure ⟨h, .refl _ _ _, .refl _⟩
  | cons x path ih =>
    intro b h hpath
    rw [eraseUnread]
    refine Ends.bind (P := fun _ => True) (.intro (fun _ _ => trivial) False.elim) fun r _ => ?_
    split
    · exact .pure ⟨h, .refl _ _ _, .refl _⟩
    have hplain : ∀ op, b.op? x = some op → op.kind.blocks = [] ∧ b.effectsBy S x = [] := fun op hop => by
      have hacc := hpath x List.mem_cons_self op hop
      refine ⟨OpKind.blocks_of_isAccessor hacc, ?_⟩
      rw [effectsBy_eq hop]
      cases hk : op.kind <;> rw [hk] at hacc <;> first | rfl | cases hacc
    refine Ends.bind (eraseOp_ends h.coherent (fun op hop => (hplain op hop).1) False.elim) fun b₁ he => ?_
    have hspare : b.Spare idle (fun _ => true) x := .inr ⟨rfl, he.unread⟩
    refine (ih (h.dropped rfl he.dropped hspare fun op hop => (hplain op hop).1) fun y hy op hop => ?_).mono ?_
    · obtain ⟨op', hop', hk, -⟩ := he.outlives.op?_some' hop
      exact hk ▸ hpath y (List.mem_cons_of_mem _ hy) op' hop'
    · rintro b₂ ⟨h₂, hq, hout⟩
      exact ⟨h₂, (Silent.dropped rfl he.dropped hspare fun _ => hplain).trans hq, he.outlives.trans hout⟩

end Body

/-! ## The same way from another value -/

namespace Draft

variable {d d' : Draft I idle W P} {E : List Effect} {v u leaf : ValueId} {x : OpId} {op : Operation} {i : Nat}
  {t : Ty} {σ : Sense} {path : List OpId} {y : Symbols}

/-- The draft continues a body in which `P₀` were pending. -/
structure Follows (b : Body) (P₀ : List OpId) (S : ValueId → Sense) (d : Draft I idle W P) : Prop where
  grows : b.Extends d.body
  senses : ∀ v : ValueId, v.index < b.values.size → d.senses v = S v
  pending : P₀ ⊆ P ++ d.made

namespace Follows

theorem next (h : d.Follows b P₀ S) (hd : d.Next E d') : d'.Follows b P₀ S where
  grows := h.grows.trans hd.grows
  senses v hv := by rw [hd.senses v (Nat.lt_of_lt_of_le hv h.grows.size), h.senses v hv]
  pending := by
    obtain ⟨N, hN, -⟩ := hd.made
    rw [hN, ← List.append_assoc]
    exact fun x hx => List.mem_append_left _ (h.pending hx)

theorem has (h : d.Follows b P₀ S) (hv : b.Provides idle P₀ v t) : d.Has v t (S v) where
  made := (hv.made.extends h.grows).mono h.pending
  owned := hv.owned.extends h.grows
  ty? := h.grows.ty?_some hv.ty?
  sense := h.senses v hv.owned.lt

end Follows

variable [Site W]

/-- The same access on another value. -/
theorem Has.reaccess_reaches (hleaf : d.Has leaf t σ) (hd : d.Follows b P₀ S) (h : b.Interpreted I idle P₀ S)
    (hx : x ∈ P₀) (hact : b.Active idle x op) (hacc : op.kind.isAccessor = true) (hu : op.operands[0]? = some u)
    (ht : b.ty? u = some t) {j : Nat} (hreach : op.kind.reach? (op.operands.map (b.reading S)) = some j) :
    Runs False (reaccess x leaf) ⟨d.builder, y⟩ fun w t' => ∃ c, t.child? j = some c ∧ d.Reaches c (σ.part j) w t'.builder := by
  obtain ⟨op', hop', hbare, hops', -⟩ := hd.grows.op? hact.op?
  refine Body.bind_kindOf hop' ?_
  rw [(OpKind.eq_of_bare_eq hbare.symm (by cases hk : op.kind <;> rw [hk] at hacc <;> first | rfl | cases hacc)).symm]
  cases hk : op.kind with
  | subfield i =>
    rw [hk] at hreach
    obtain rfl := Option.some.inj hreach
    exact Runs.build (hleaf.subfield_reaches i)
  | subindex i =>
    rw [hk] at hreach
    obtain rfl := Option.some.inj hreach
    exact Runs.build (hleaf.subindex_reaches i)
  | subaccess =>
    obtain ⟨w, z, e, n, i, hwz, hw, hi, hlt⟩ := (h.heeds hact).reaches hk
    obtain rfl : w = u := by simpa [hwz] using hu
    obtain rfl := Option.some.inj (hw.symm.trans ht)
    rw [hk, hwz] at hreach
    obtain rfl : i = j := Option.some.inj (hi.symm.trans hreach)
    have hmem : ∀ {y}, y ∈ [w, z] → y ∈ op.operands := fun hy => hwz ▸ hy
    have hz : z ∈ op.operands := hmem (by simp)
    obtain ⟨a, ha⟩ := Option.isSome_iff_exists.1 (isSome_ty?.2 (h.coherent.operand hact.op? hz))
    rw [reading_eq ha] at hi
    have hindex := hd.has (h.provides hx hact hz ha)
    refine Body.bind_operand hop' (v := z) (by rw [hops', hwz]; rfl) ?_
    refine Runs.build ((hleaf.subaccess_reaches hindex hi hlt ((h.heeds hact).short hk (hmem (by simp)) ht) ?_).mono
      fun _ _ hr => ⟨e, by simp [Ty.child?, hlt], hr⟩)
    rintro e' n' rfl
    exact (h.heeds hact).short hk hz ha
  | _ =>
    rw [hk] at hacc
    cases hacc

/-- The same path from another value, which leads to the old value from the old start. -/
theorem retrace_reaches (h : b.Interpreted I idle P₀ S) (hl : b.Leads v path u) (hu : b.ty? u = some t) {c : Ty}
    (hv : b.Provides idle P₀ v c) : ∀ {d : Draft I idle W P} {leaf : ValueId} {σ : Sense},
    d.Follows b P₀ S → d.Has leaf t σ → ¬d.body.GroundCast idle leaf → ∀ {y : Symbols},
    Runs False (path.reverse.foldlM (fun leaf x => reaccess x leaf) leaf) ⟨d.builder, y⟩ fun w t' =>
      ∃ σ', (σ = S u → σ' = S v) ∧ d.Reaches c σ' w t'.builder := by
  induction hl generalizing c with
  | nil =>
    obtain rfl := Option.some.inj (hu.symm.trans hv.ty?)
    exact fun _ hleaf hcast _ => .pure ⟨_, id, _, rfl, .refl _, hleaf, hcast⟩
  | @cons v u w x i op path horigin hop hacc hu' _ ih =>
    intro d leaf σ hd hleaf hcast y
    obtain ⟨hx, hact, t', j, hprovides, hchild, hreach, hS⟩ := h.access hv horigin hop hacc hu'
    rw [List.reverse_cons, List.foldlM_append]
    refine (ih hu hprovides hd hleaf hcast).bind ?_
    rintro leaf' ⟨_, y'⟩ ⟨σ', hσ, d₁, rfl, h₁, hleaf', -⟩
    rw [List.foldlM_cons]
    refine (hleaf'.reaccess_reaches (hd.next h₁) h hx hact hacc hu' hprovides.ty? hreach).bind ?_
    rintro leaf'' ⟨_, y''⟩ ⟨c', hc', d₂, rfl, h₂, hleaf'', hcast''⟩
    obtain rfl := Option.some.inj (hchild.symm.trans hc')
    exact .pure ⟨_, fun he => by rw [hσ he, hS], d₂, rfl, h₁.trans h₂, hleaf'', hcast''⟩

end Draft

/-! ## Operations at a place -/

variable {S' S'' : ValueId → Sense} {k t : BlockId} {A B H H' N N' : List OpId} {E E' : List Effect} {s s' s'' : Builder}
  {b₀ b' : Body} {o w : OpId} {cond : ValueId}

/-- More operations were made behind those that were made. -/
theorem InFront.trans (h : InFront b₀ k A B H N s) (hb : s.body.Coherent) (h' : InFront s.body k (A ++ H) B H' N' s') :
    InFront b₀ k A B (H ++ H') (N ++ N') s' where
  coherent₀ := h.coherent₀
  slots := by rw [h'.slots, List.append_assoc A]
  exists_block := h'.exists_block
  point := by rw [h'.point, List.append_assoc]
  unfolds := by
    refine (h'.untouched.unfolds hb h.unfolds h.known (fun x hx k' hk' => ?_) (by simp)).append h'.unfolds
    rw [List.mem_singleton.1 hk']
    exact h.not_guarded hb x hx
  untouched := h.untouched.trans h'.untouched h.coherent₀ hb (by simp)
  fresh := by
    refine List.forall_mem_append.2 ⟨h.fresh, fun x hx => ?_⟩
    cases hop : b₀.op? x with
    | none => rfl
    | some op =>
      obtain ⟨op', hop', -⟩ := h.untouched.op? hop
      rw [h'.fresh x hx] at hop'
      cases hop'
  known := List.forall_mem_append.2 ⟨fun x hx => h'.untouched.isSome (h.known x hx), h'.known⟩

/-- Operations may be made in block `k` between `A` and `B`. -/
structure Opening (I : Interpretation) (idle : OpId → Prop) (P : List OpId) (S : ValueId → Sense) (k : BlockId)
    (A B : List OpId) (s : Builder) : Prop where
  interpreted : s.body.Interpreted I idle P S
  exposed : s.body.Exposed k
  exists_block : (s.body.block? k).isSome
  slots : s.body.slotsOf k = A ++ B
  point : s.point = ⟨k, A.length⟩

/-- Since `b` operations `H` were made between `A` and `B`, which unfold to `N` and have the effects `E`. -/
structure Adds (I : Interpretation) (idle : OpId → Prop) (b : Body) (P : List OpId) (S : ValueId → Sense) (k : BlockId)
    (A B : List OpId) (E : List Effect) (H N : List OpId) (S' : ValueId → Sense) (s : Builder) : Prop where
  front : InFront b k A B H N s
  exposed : s.body.Exposed k
  interpreted : s.body.Interpreted I idle (P ++ N) S'
  grows : b.Extends s.body
  senses : ∀ v : ValueId, v.index < b.values.size → S' v = S v
  contributes : Contributes idle s.body S' k H E

theorem Adds.opening (h : Adds I idle b P S k A B E H N S' s) : Opening I idle (P ++ N) S' k (A ++ H) B s where
  interpreted := h.interpreted
  exposed := h.exposed
  exists_block := h.front.exists_block
  slots := h.front.slots
  point := h.front.point

theorem Adds.trans (h : Adds I idle b P S k A B E H N S' s)
    (h' : Adds I idle s.body (P ++ N) S' k (A ++ H) B E' H' N' S'' s') :
    Adds I idle b P S k A B (E ++ E') (H ++ H') (N ++ N') S'' s' where
  front := h.front.trans h.interpreted.coherent h'.front
  exposed := h'.exposed
  interpreted := by
    rw [← List.append_assoc]
    exact h'.interpreted
  grows := h.grows.trans h'.grows
  senses v hv := by rw [h'.senses v (Nat.lt_of_lt_of_le hv h.grows.size), h.senses v hv]
  contributes := by
    refine .append (h.contributes.silent (.extends h.interpreted.coherent h'.grows h'.senses) fun k' hne hk' => ?_)
      h'.contributes
    obtain ⟨blk, hblk⟩ := Option.isSome_iff_exists.1 hk'
    refine ⟨?_, h'.front.untouched.slotsOf hblk (by simpa using hne) (by simp)⟩
    rw [h'.front.untouched.block? hblk (by simpa using hne) (by simp)]
    rfl

namespace Opening

theorem front (h : Opening I idle P S k A B s) : InFront s.body k A B [] [] s :=
  .start h.interpreted.coherent h.slots h.exists_block h.point

/-- Nothing was made yet. -/
theorem adds (h : Opening I idle P S k A B s) : Adds I idle s.body P S k A B [] [] [] S s where
  front := h.front
  exposed := h.exposed
  interpreted := by
    rw [List.append_nil]
    exact h.interpreted
  grows := .refl _
  senses _ _ := rfl
  contributes := .nil

/-- Operations are made. -/
def draft (h : Opening I idle P S k A B s) : Draft I idle (MadeInFront s.body k A B [] []) P where
  builder := s
  made := []
  senses := S
  site := h.front
  exposed := by
    rw [h.point]
    exact h.exposed
  interpreted := h.adds.interpreted

theorem follows (h : Opening I idle P S k A B s) : h.draft.Follows s.body P S :=
  ⟨.refl _, fun _ _ => rfl, List.subset_append_left _ _⟩

/-- What was made has its effects. -/
theorem next (h : Opening I idle P S k A B s) {d : Draft I idle (MadeInFront s.body k A B [] []) P}
    (hd : h.draft.Next E d) : Adds I idle s.body P S k A B E d.made d.made d.senses d.builder where
  front := d.site
  exposed := by
    have hp : d.builder.point = _ := InFront.point d.site
    have := d.exposed
    rwa [hp] at this
  interpreted := d.interpreted
  grows := hd.grows
  senses := hd.senses
  contributes := by
    obtain ⟨N, hN, hplain, hE⟩ := hd.made
    obtain rfl : d.made = N := hN
    rw [← hE]
    exact .plain hplain

/-- A guard without operations yet. -/
theorem enter (h : Opening I idle P S k A B s) {c : Ty} (hv : s.body.MadeBy P cond) (ho : s.body.Owned idle cond)
    (ht : s.body.ty? cond = some c) (hc : Created s.body s.point (.when t none) [cond] [] w b') :
    ∃ d : Draft I idle (MadeInGuard s.body k A B [] w t []) (P ++ [w]), d.builder = ⟨b', ⟨t, 0⟩⟩ ∧ d.made = [] ∧
      d.Follows s.body P S := by
  have hb := h.interpreted.coherent
  have hexposed : s.body.Exposed s.point.block := by
    rw [h.point]
    exact h.exposed
  have hi := h.interpreted.created hc hexposed (σ := fun _ => ⟨fun _ => [], none⟩)
    { typed := ⟨[c], .cons ht .nil, trivial, c, rfl, rfl⟩
      meant := trivial
      reads := fun u hu => by
        obtain rfl := List.mem_singleton.1 hu
        exact ⟨hv, ho⟩
      proper := nofun
      sense := nofun
      placeless := fun _ _ _ => rfl
      reaches := nofun
      short := nofun
      exact := nofun
      dest := nofun }
  have hguard : t ∈ b'.guardedBlocks w := by
    rw [guardedBlocks_eq hc.op?_self]
    exact List.mem_singleton_self t
  exact ⟨⟨⟨b', ⟨t, 0⟩⟩, [], s.body.extend S _, ⟨InGuard.start h.front hb hc, List.nodup_singleton w⟩,
    .inr ⟨w, hc.walked_self hexposed, hguard⟩, by rw [List.append_nil]; exact hi⟩, rfl, rfl, hc.extended,
    fun v hv => extend_old hv, by rw [List.append_nil]; exact List.subset_append_left _ _⟩

/-- Behind a guard, where operations are made in front again. -/
theorem leave (h : Opening I idle P S k A B s) {c : Ty} (ht : s.body.ty? cond = some c)
    (hc : Created s.body s.point (.when t none) [cond] [] w b')
    {d d' : Draft I idle (MadeInGuard s.body k A B [] w t []) (P ++ [w])} (hd : d.builder = ⟨b', ⟨t, 0⟩⟩)
    (hnil : d.made = []) (hfollows : d.Follows s.body P S) (hnext : d.Next E d') :
    Adds I idle s.body P S k A B (Effect.sieve (decide (true ∈ (S cond).bits [])) E) [w] (w :: d'.made) d'.senses
      ⟨d'.body, ⟨k, (A ++ [w]).length⟩⟩ := by
  have hguard : InGuard s.body k A B [] w t [] d'.made d'.made d'.builder := d'.site.1
  have hb := d'.coherent
  have hbusy : ¬idle w := fun hi => by
    have := h.interpreted.present (.inr hi)
    rw [hc.fresh] at this
    cases this
  have hmade : d.body.Active idle w _ := ⟨(congrArg (fun s => s.body.op? w) hd).trans hc.op?_self, rfl, hbusy⟩
  obtain ⟨op, hact, hbare, hops, -⟩ := Active.extends hnext.grows hmade
  have hkind : op.kind = .when t none := (OpKind.eq_iff_of_bare_eq hbare rfl).2 rfl
  obtain ⟨M, hM, hplain, hE⟩ := hnext.made
  obtain rfl : d'.made = M := by rw [hM, hnil, List.nil_append]
  have hf := hfollows.next hnext
  have hslots : d'.body.slotsOf t = d'.made := hguard.slots
  have hholds : d'.body.holds d'.senses w = decide (true ∈ (S cond).bits []) := by
    rw [holds_eq hact.op?, hkind, hops]
    change decide (true ∈ (d'.senses cond).bits []) = _
    rw [hf.senses cond (isSome_ty?.1 (by rw [ht]; rfl))]
  refine
    { front := hguard.outer, exposed := (d'.interpreted.walked hact).exposed hb ?_, interpreted := ?_, grows := hf.grows
      senses := hf.senses, contributes := ?_ }
  · change w ∈ d'.body.slotsOf k
    rw [show d'.body.slotsOf k = _ from hguard.outer.slots]
    simp
  · have := d'.interpreted
    rwa [List.append_assoc] at this
  · obtain ⟨blk, hblk⟩ := hguard.exists_block hb
    have hcon := Contributes.guard (k := k) (S := d'.senses) hact hkind (hguard.ne hb) (by rw [show d'.body.block? t = _ from hblk]; rfl)
      (by rw [hslots]; exact hplain)
    rwa [hslots, hE, hholds] at hcon

end Opening

/-! ## Guarded writes -/

theorem Ty.sieve_driving (t : Ty) (dest src : Sense) : Effect.sieve false (t.driving dest src) = [] := by
  refine List.filter_eq_nil_iff.2 fun e he => ?_
  obtain ⟨_, -, rfl⟩ := List.mem_map.1 he
  simp [Effect.isHold]

/-- `src` is written to `dest`, to which `inner` leads from the element at position `j` of a vector. -/
structure Body.WritesAt (idle : OpId → Prop) (b : Body) (P : List OpId) (S : ValueId → Sense) (inner : List OpId)
    (dest src vector index : ValueId) (t e : Ty) (n j : Nat) : Prop where
  leads : ∃ u, b.Leads dest inner u ∧ b.ty? u = some e ∧ S u = (S vector).part j
  position : ∃ u, b.Provides idle P index u ∧ Reading.position? (u, (S index).bits) = some j
  lt : j < n
  dest : b.Provides idle P dest t
  src : b.Provides idle P src t
  vector : b.Provides idle P vector (.vector e n)

/-- A write to one element, which counts if the element is the one that is reached. -/
theorem Opening.guardedWrite_runs (h : Opening I idle P S' k A B s) (hf : h.draft.Follows b P₀ S)
    (hi : b.Interpreted I idle P₀ S) {inner : List OpId} {dest src vector index : ValueId} {ty e : Ty} {n j : Nat}
    (hw : b.WritesAt idle P₀ S inner dest src vector index ty e n j) (strict : Bool) (width i : Nat) {y : Symbols} :
    Runs False (guardedWrite strict vector index src width inner i) ⟨s, y⟩ fun _ t' => ∃ H N S'',
      Adds I idle s.body P S' k A B (if i = j then ty.driving (S dest) (S src) else []) H N S'' t'.builder := by
  obtain ⟨u, hindex, hj⟩ := hw.position
  obtain ⟨v, hl, hv, hS⟩ := hw.leads
  -- the condition compares the positions
  refine Runs.bind_build ((h.draft.constant_makes (.uint width) i).mono fun _ _ => Draft.Makes.gives) ?_
  rintro position _ ⟨d₁, rfl, h₁, hposition⟩
  refine Runs.bind_build ((((hf.has hindex).next h₁).eq_makes hposition).mono fun _ _ => Draft.Makes.gives) ?_
  rintro cond _ ⟨d₂, rfl, h₂, hcond⟩
  have hadds := h.next (h₁.trans h₂)
  have ha := hadds.opening
  have hf₂ := (hf.next h₁).next h₂
  have hholds : decide (true ∈ (d₂.senses cond).bits []) = decide (i = j) := by
    rw [hcond.sense]
    change decide (true ∈ (Ty.uint 1).unpack [decide (u.number (S index).bits = natOf ((Ground.uint width).literal i))] []) = _
    rw [Ty.unpack_bit, Ground.natOf_literal, decide_eq_decide]
    unfold Reading.position? at hj
    split at hj
    next m hm =>
      obtain rfl := Option.some.inj hj
      change u.number (S index).bits = _ at hm
      rw [hm]
      rw [List.mem_singleton, eq_comm, decide_eq_true_eq, Int.ofNat_eq_natCast]
      omega
    next => cases hj
  refine Runs.bind_build (when_runs d₂.builder cond false nofun) ?_
  rintro ⟨w, tb, else?⟩ s₃ ⟨hc, hp, helse⟩
  obtain rfl : else? = none := by simpa using helse
  refine Runs.bind_point (Runs.bind_moveTo ?_)
  obtain ⟨d₃, hd₃, hnil, hf₃⟩ := ha.enter hcond.made hcond.owned hcond.ty? hc
  have hf₃' : d₃.Follows b P₀ S := ⟨hf₂.grows.trans hf₃.grows, fun v hv => by
    rw [hf₃.senses v (Nat.lt_of_lt_of_le hv hf₂.grows.size), hf₂.senses v hv], fun x hx => hf₃.pending (hf₂.pending hx)⟩
  rw [← hd₃]
  -- the way to the destination, from the element
  refine Runs.bind_build ((hf₃'.has hw.vector).subindex_reaches i) ?_
  rintro leaf _ ⟨c, hchild, d₄, rfl, h₄, hleaf, hcast⟩
  obtain rfl : e = c := by
    change (if i < n then some e else none) = some c at hchild
    split at hchild
    · exact Option.some.inj hchild
    · cases hchild
  refine (Draft.retrace_reaches hi hl hv hw.dest (hf₃'.next h₄) hleaf hcast).bind ?_
  rintro leaf' ⟨_, y'⟩ ⟨σ, hσ, d₅, rfl, h₅, hleaf', hcast'⟩
  refine Runs.bind_build (hleaf'.connect_next (((hf₃'.next h₄).next h₅).has hw.src) strict hcast') ?_
  rintro - _ ⟨d₆, rfl, h₆⟩
  have hguard := ha.leave hcond.ty? hc hd₃ hnil hf₃ (h₄.trans (h₅.trans h₆))
  rw [hholds] at hguard
  have hpoint : s₃.point = ⟨k, (A ++ d₂.made ++ [w]).length⟩ := by
    rw [hp, ha.point]
    simp [Nat.add_assoc]
  have heffects : (if i = j then ty.driving (S dest) (S src) else []) =
      [] ++ [] ++ Effect.sieve (decide (i = j)) ([] ++ ([] ++ ty.driving σ (S src))) := by
    split
    next he =>
      subst he
      simp [hσ hS.symm]
    next he => simp [he, Ty.sieve_driving]
  have hout : Adds I idle s.body P S' k A B (if i = j then ty.driving (S dest) (S src) else []) (d₂.made ++ [w])
      (d₂.made ++ w :: d₆.made) d₆.senses ⟨d₆.body, s₃.point⟩ := by
    rw [heffects, hpoint]
    exact hadds.trans hguard
  exact Runs.build (Runs.moveTo ⟨_, _, _, hout⟩)

/-! ## Connections -/

/-- One part of a connection; a flipped part is driven the other way. -/
theorem Draft.Has.connectPart_next [Site W] {d : Draft I idle W P} {dest src : ValueId} {t : Ty} {σ τ : Sense}
    (hd : d.Has dest t σ) (hs : d.Has src t τ) (strict : Bool) {part : Part} (hc : t.child? part.index = some part.ty) :
    Runs False (connectPart strict dest src part) d.builder fun _ s' => ∃ d', d'.builder = s' ∧
      d.Next (if part.flip then part.ty.driving (τ.part part.index) (σ.part part.index)
        else part.ty.driving (σ.part part.index) (τ.part part.index)) d' := by
  refine (hs.part_reaches hc).bind ?_
  rintro v _ ⟨d₁, rfl, h₁, hv, hvcast⟩
  refine ((hd.next h₁).part_reaches hc).bind ?_
  rintro w _ ⟨d₂, rfl, h₂, hw, hwcast⟩
  have hv₂ := hv.next h₂
  split
  · have hcast : ¬d₂.body.GroundCast idle v := fun h => hvcast (h.of_extends h₂.grows d₁.coherent hv.owned.lt)
    exact (hv₂.connect_next hw strict hcast).bind fun _ _ ⟨d₃, hs₃, h₃⟩ => .pure ⟨d₃, hs₃, h₁.trans (h₂.trans h₃)⟩
  · exact (hw.connect_next hv₂ strict hwcast).bind fun _ _ ⟨d₃, hs₃, h₃⟩ => .pure ⟨d₃, hs₃, h₁.trans (h₂.trans h₃)⟩

theorem flatMap_range_single (n j : Nat) (E : List Effect) :
    ((List.range n).flatMap fun i => if i = j then E else []) = if j < n then E else [] := by
  induction n with
  | zero => rfl
  | succ n ih =>
    rw [List.range_succ, List.flatMap_append, ih, List.flatMap_singleton]
    split_ifs <;> first | omega | simp

namespace Due

variable {op : Operation} {strict : Bool} {dest src : ValueId} {ty : Ty} {v : ValueId} {y : Symbols} {replaced : Bool}

section Idle

variable (h : Due I idle P S o op k A B s) (hres : op.results = [])

include h hres in
theorem busy_of_results {x : OpId} {opx : Operation} (hx : s.body.Active idle x opx) (hne : opx.results ≠ []) :
    s.body.Active (fun x => idle x ∨ x = o) x opx := by
  refine ⟨hx.op?, hx.erased, fun hi => hi.elim hx.busy ?_⟩
  rintro rfl
  rw [Option.some.inj (hx.op?.symm.trans h.active.op?), hres] at hne
  exact hne rfl

include h hres in
/-- An operation that makes nothing need not count. -/
theorem opening : Opening I (fun x => idle x ∨ x = o) P S k A (o :: B) s where
  interpreted := by
    refine (h.interpreted.reidle (fun hx => ⟨hx.op?, hx.erased, fun hi => hx.busy (.inl hi)⟩)
      (fun hx hne => h.busy_of_results hres hx hne) fun x hx => ?_).retire fun {x op'} hx hact => ?_
    · rcases hx with hx | rfl
      · exact h.interpreted.present (.inr hx)
      · rw [h.active.op?]
        rfl
    · exact absurd (.inr (List.mem_singleton.1 hx)) hact.busy
  exposed := (h.interpreted.walked h.active).exposed h.interpreted.coherent (by simp [h.slots])
  exists_block := by
    obtain ⟨blk, hblk⟩ := exists_block_of_mem_slotsOf (o := o) (b := s.body) (k := k) (by simp [h.slots])
    rw [hblk]
    rfl
  slots := h.slots
  point := h.point

include h hres in
theorem provides (hv : v ∈ op.operands) (ht : s.body.ty? v = some ty) :
    s.body.Provides (fun x => idle x ∨ x = o) P v ty where
  made := h.expects.reads v hv
  owned := by
    rcases h.interpreted.scope h.active hv with harg | ⟨x, i, opx, horigin, hact⟩
    · exact .inl harg
    · obtain ⟨op', hop', hmem⟩ := h.interpreted.coherent.origin horigin
      rw [Option.some.inj (hop'.symm.trans hact.op?)] at hmem
      exact .inr ⟨x, i, opx, horigin, h.busy_of_results hres hact (List.ne_nil_of_mem (List.mem_of_getElem? hmem))⟩
  ty? := ht

/-- Operations with the effects of `o` were made, and then others were erased that nothing reads. -/
theorem supplants_of (h : Due I idle P S o op k A B s)
    (ha : Adds I (fun x => idle x ∨ x = o) s.body P S k A (o :: B) (s.body.effectsBy S o) H N S' s')
    (hi : b'.Interpreted I (fun x => idle x ∨ x = o) (P ++ N) S')
    (hq : Silent (fun x => idle x ∨ x = o) s'.body S' b' S') (hout : Outlives s'.body b') :
    Supplants I idle s.body P S o k A B H N S' ⟨b', s'.point⟩ where
  front := ha.front.outlives hout
  interpreted := ⟨_, fun _ => .inl, fun _ => id, hi⟩
  silent := (Silent.extends h.interpreted.coherent ha.grows ha.senses).trans hq
  senses := ha.senses
  contributes := ha.contributes.silent hq fun k' _ hk' => ⟨by rwa [hout.block?], hout.slotsOf k'⟩

end Idle

/-- What is known of a connection that is reached. -/
theorem connects (h : Due I idle P S o op k A B s) (hk : op.kind = .connect strict) : ∃ dest src ty,
    op.operands = [dest, src] ∧ op.results = [] ∧ s.body.ty? dest = some ty ∧ s.body.ty? src = some ty ∧
    s.body.effectsBy S o = ty.driving (S dest) (S src) := by
  obtain ⟨ins, outs, hins, houts, hfits, hshaped⟩ := h.heeds.typed
  rw [hk] at hfits hshaped
  obtain ⟨ty, rfl⟩ := hfits
  obtain ⟨-, -, -, rfl⟩ := hshaped
  obtain ⟨dest, src, hdest, hsrc, hops⟩ := hins.pair
  refine ⟨dest, src, ty, hops, List.forall₂_nil_right_iff.1 houts, hdest, hsrc, ?_⟩
  rw [effectsBy_eq h.active.op?, hk, hops]
  change (s.body.tyOf dest).driving (S dest) (S src) = _
  rw [tyOf_eq hdest]

/-- A write through a computed access gives way to one guarded write for each element. -/
theorem writePath_runs (h : Due I idle P S o op k A B s) (hk : op.kind = .connect strict) :
    Runs False (Lower.writePath o strict) ⟨s, y⟩ fun written t' =>
      if written then ∃ H N S', Supplants I idle s.body P S o k A B H N S' t'.builder
      else t' = ⟨s, y⟩ ∧ s.body.writePath o = .ok [] := by
  obtain ⟨dest, src, ty, hops, hres, hdest, hsrc, heffects⟩ := h.connects hk
  have ha := h.opening hres
  refine Runs.bind_body (((Ends.intro (fun _ hp => hp) False.elim).and (writePath_leads h.active.op?))) ?_
  rintro path ⟨hpath, v, rest, root, hv, hl, hdyn⟩
  obtain rfl : dest = v := by simpa [hops] using hv
  split
  next access hlast =>
    obtain ⟨inner, rfl⟩ : ∃ inner, path = inner ++ [access] := List.getLast?_eq_some_iff.1 hlast
    rw [List.append_assoc] at hl
    obtain ⟨v, hinner, hrest⟩ := hl.split
    cases hrest with
    | @cons _ vector _ _ i opa _ hv hopa hacc hvector _ =>
    have hprovides : s.body.Provides (fun x => idle x ∨ x = o) P dest ty := h.provides hres (by simp [hops]) hdest
    obtain ⟨c, hv'⟩ := ha.interpreted.provides_leads hinner hprovides
    obtain ⟨hx, hact, t, j, hvector', hchild, hreach, hS⟩ := ha.interpreted.access hv' hv hopa hacc hvector
    have hkind := kind_of_isDynamic hopa (hdyn access hlast)
    obtain ⟨w, index, e, n, j', hwz, hw, hj, hlt⟩ := (ha.interpreted.heeds hact).reaches hkind
    obtain rfl : w = vector := by simpa [hwz] using hvector
    obtain rfl := Option.some.inj (hw.symm.trans hvector'.ty?)
    rw [hkind, hwz] at hreach
    obtain rfl : j' = j := Option.some.inj (hj.symm.trans hreach)
    obtain rfl : e = c := by simpa [Ty.child?, hlt] using hchild
    have hindex : index ∈ opa.operands := by simp [hwz]
    obtain ⟨u, hu⟩ := Option.isSome_iff_exists.1 (isSome_ty?.2 (h.interpreted.coherent.operand hopa hindex))
    rw [reading_eq hu] at hj
    have hwrites : s.body.WritesAt (fun x => idle x ∨ x = o) P S inner dest src w index ty e n j' :=
      { leads := ⟨v, hinner, hv'.ty?, hS⟩, position := ⟨u, ha.interpreted.provides hx hact hindex hu, hj⟩, lt := hlt
        dest := hprovides, src := h.provides hres (by simp [hops]) hsrc, vector := hvector' }
    refine Body.bind_operand hopa (v := w) (by rw [hwz]; rfl) ?_
    refine Body.bind_operand hopa (v := index) (by rw [hwz]; rfl) ?_
    refine Body.bind_operand h.active.op? (v := src) (by rw [hops]; rfl) ?_
    refine Runs.bind_body (P := ((e, n) = ·)) ((vectorOf_ends False.elim).mono ?_) ?_
    · rintro ⟨e', n'⟩ hvec'
      rw [hw] at hvec'
      simpa using hvec'
    rintro _ rfl
    rw [List.dropLast_concat]
    refine Runs.bind (Runs.forM (fun done (t' : LowerState) => ∃ H N S', Adds I (fun x => idle x ∨ x = o) s.body P S k A (o :: B)
      (done.flatMap fun i => if i = j' then ty.driving (S dest) (S src) else []) H N S' t'.builder) (List.range n)
      ⟨[], [], S, ha.adds⟩ ?_) ?_
    · rintro done i rest' ⟨s₁, y₁⟩ - ⟨H, N, S₁, h₁⟩
      refine (h₁.opening.guardedWrite_runs ⟨h₁.grows, h₁.senses, ?_⟩ ha.interpreted hwrites strict _ i).mono ?_
      · exact fun x hx => List.mem_append_left _ (List.mem_append_left _ hx)
      · rintro _ t' ⟨H', N', S₂, h₂⟩
        rw [List.flatMap_append, List.flatMap_singleton]
        exact ⟨_, _, _, h₁.trans h₂⟩
    rintro _ ⟨s₁, y₁⟩ ⟨H, N, S₁, h₁⟩
    rw [flatMap_range_single, if_pos hlt, ← heffects] at h₁
    have hi := h₁.interpreted
    refine Runs.bind_change (dropOperands_ends False.elim) fun b₁ hd => ?_
    have hspare : s₁.body.Spare (fun x => idle x ∨ x = o) id o := .inl (.inr rfl)
    have hout := hd.outlives rfl
    have hi₁ := hi.dropped rfl hd hspare fun op' hop' => by
      obtain ⟨op₁, hop₁, hbare, -⟩ := h₁.grows.op? h.active.op?
      rw [Option.some.inj (hop'.symm.trans hop₁), OpKind.blocks_eq_of_bare_eq hbare, h.plain]
    have hq₁ : Silent (fun x => idle x ∨ x = o) s₁.body S₁ b₁ S₁ := .dropped rfl hd hspare fun hne => absurd (.inr rfl) hne
    refine Runs.bind_change (hi₁.eraseUnread_ends fun x hx opx hopx => ?_) ?_
    rotate_left
    · rintro b₂ ⟨hi₂, hq₂, hout₂⟩
      have hsup := h.supplants_of h₁ hi₂ (hq₁.trans hq₂) (hout.trans hout₂)
      exact .pure ⟨_, _, _, hsup⟩
    obtain ⟨op₁, hop₁, hk₁, -⟩ := hout.op?_some' hopx
    obtain ⟨op₀, hop₀, hacc₀⟩ := hl.exists_accessor (List.append_assoc inner _ _ ▸ List.mem_append_left rest hx)
    obtain ⟨op', hop', hbare, -⟩ := h₁.grows.op? hop₀
    rw [hk₁, Option.some.inj (hop₁.symm.trans hop'), OpKind.isAccessor_eq_of_bare_eq hbare, hacc₀]
  next hnone =>
    obtain rfl : path = [] := List.getLast?_eq_none_iff.1 (Option.eq_none_iff_forall_ne_some.2 hnone)
    exact .pure ⟨rfl, hpath⟩

/-- A connection gives way to guarded writes, or to one connection for each part; one of ground values that is reached
without a computed position stays. -/
theorem connect_runs (h : Due I idle P S o op k A B s) (hk : op.kind = .connect strict) :
    Runs False (Lower.connect o strict) ⟨s, y⟩ fun replaced t' => Rendered I idle P S o k A B s replaced t'.builder := by
  refine (h.writePath_runs hk).bind fun written t₁ h₁ => ?_
  cases written with
  | true => exact .pure h₁
  | false =>
    obtain ⟨rfl, hpath⟩ := h₁
    obtain ⟨dest, src, ty, hops, hres, hdest, hsrc, heffects⟩ := h.connects hk
    have ha := h.opening hres
    refine Body.bind_operand h.active.op? (v := dest) (by rw [hops]; rfl) ?_
    refine Body.bind_operand h.active.op? (v := src) (by rw [hops]; rfl) ?_
    refine Runs.bind_body (P := (ty = ·)) (typeOf_ends (fun ty' hty' => Option.some.inj (hdest.symm.trans hty')) nofun) ?_
    rintro _ rfl
    refine Runs.bind_except (Ty.peel_ends (nofun : False → _)) fun ps? hps => ?_
    cases ps? with
    | some parts =>
      have hps : ty.PartsOf parts := hps.1
      have hd := ha.follows.has (h.provides hres (by simp [hops]) hdest)
      have hs := ha.follows.has (h.provides hres (by simp [hops]) hsrc)
      refine Runs.bind (Runs.forM (fun done (t' : LowerState) => ∃ d, d.builder = t'.builder ∧ ha.draft.Next (done.flatMap fun p =>
        if p.flip then p.ty.driving ((S src).part p.index) ((S dest).part p.index)
        else p.ty.driving ((S dest).part p.index) ((S src).part p.index)) d) parts ⟨_, rfl, .refl _⟩ ?_) ?_
      · rintro done p rest ⟨_, y⟩ hl ⟨d, rfl, h₁⟩
        have hp := hps.child_index (hl ▸ List.mem_append_right _ List.mem_cons_self)
        refine Runs.build (((hd.next h₁).connectPart_next (hs.next h₁) strict hp).mono fun _ _ ⟨d', hs', h₂⟩ => ⟨d', hs', ?_⟩)
        rw [List.flatMap_append, List.flatMap_singleton]
        exact h₁.trans h₂
      · rintro _ ⟨_, y⟩ ⟨d, rfl, h₁⟩
        rw [← hps.driving_eq, ← heffects] at h₁
        have hadds := ha.next h₁
        exact .pure ⟨_, _, _, h.supplants_of hadds hadds.interpreted (.refl _ _ _) (.refl _)⟩
    | none =>
      have hground : ty.isGround := hps.resolve_right nofun
      obtain ⟨g, rfl⟩ : ∃ g, ty = .ground g := by cases ty <;> first | exact ⟨_, rfl⟩ | cases hground
      refine .pure ⟨rfl, h.interpreted.retire fun {x op'} hx hact strict' hk' => ?_⟩
      obtain rfl := List.mem_singleton.1 hx
      obtain rfl := Option.some.inj (hact.op?.symm.trans h.active.op?)
      have hprovides : s.body.Provides idle (P ++ [x]) dest (.ground g) :=
        h.interpreted.provides (by simp) h.active (by simp [hops]) hdest
      have hv : op'.operands[0]? = some dest := by rw [hops]; rfl
      exact ⟨dest, src, g, hops, hdest, h.interpreted.straight hprovides (h.expects.dest hk hv)
        (h.interpreted.static_of_writePath h.active.op? hv hprovides hpath)⟩

end Due

end Scalarize
