import Scalarize.Proofs.Body.Unfolds

/-!
# Operations form a forest

* `Coherent.exists_unfolds` : every block can be unfolded;
* `Unfolds.nodup` : what is unfolded is met once;
* `Coherent.mem_of_unfolds_entry` : whatever stands is met from the entry block on.
-/

namespace Scalarize.Body

variable {b : Body} {o x : OpId} {k : BlockId} {os L : List OpId}

/-- An operation guards blocks behind its own only, so that unfolding ends. -/
theorem Coherent.exists_unfolds (h : b.Coherent) (n : Nat) : ∀ {os : List OpId},
    (∀ x ∈ os, ∃ op, b.op? x = some op ∧ b.blocks.size ≤ op.block.index + n) →
    ∃ L, Unfolds b os L := by
  induction n with
  | zero =>
    intro os hos
    cases os with
    | nil => exact ⟨[], .nil⟩
    | cons o os =>
      obtain ⟨op, hop, hle⟩ := hos o List.mem_cons_self
      -- the blocks of the table end before the block of the operation: it guards none
      have hno : ∀ x ∈ o :: os, b.inner x = [] := fun x hx => by
        obtain ⟨opx, hopx, hlex⟩ := hos x hx
        rw [inner_eq_nil hopx (List.eq_nil_iff_forall_not_mem.2 fun k hk => ?_)]
        obtain ⟨hlt, blk, hblk, -⟩ := h.guards hopx hk
        have := lt_of_block? hblk
        omega
      generalize o :: os = l at hno
      induction l with
      | nil => exact ⟨[], .nil⟩
      | cons a l ih =>
        obtain ⟨L, hL⟩ := ih fun x hx => hno x (List.mem_cons_of_mem _ hx)
        have ha : Unfolds b (b.inner a) [] := by
          rw [hno a List.mem_cons_self]
          exact .nil
        exact ⟨_, .cons ha hL⟩
  | succ n ih =>
    intro os hos
    induction os with
    | nil => exact ⟨[], .nil⟩
    | cons o os ihos =>
      obtain ⟨Ls, hLs⟩ := ihos fun x hx => hos x (List.mem_cons_of_mem _ hx)
      obtain ⟨op, hop, hle⟩ := hos o List.mem_cons_self
      obtain ⟨L, hL⟩ := ih fun x (hx : x ∈ b.inner o) => by
        obtain ⟨op', opx, hop', hopx, hmem⟩ := h.op?_of_mem_inner hx
        obtain rfl := Option.some.inj (hop.symm.trans hop')
        have := (h.guards hop hmem).1
        exact ⟨opx, hopx, by omega⟩
      exact ⟨_, .cons hL hLs⟩

theorem Coherent.exists_unfolds_slotsOf (h : b.Coherent) (k : BlockId) :
    ∃ L, Unfolds b (b.slotsOf k) L :=
  h.exists_unfolds b.blocks.size fun _ hx => by
    obtain ⟨op, hop, -⟩ := h.op?_of_mem_slotsOf hx
    exact ⟨op, hop, by omega⟩

/-- What is met is one of the operations, or lies in what another guards. -/
theorem Unfolds.mem_cases (h : Unfolds b os L) (hx : x ∈ L) : x ∈ os ∨ ∃ y ∈ L, x ∈ b.inner y := by
  induction h with
  | nil => cases hx
  | @cons o os L Ls _ _ ih₁ ih₂ =>
    rcases List.mem_cons.1 hx with rfl | hx
    · exact .inl List.mem_cons_self
    rcases List.mem_append.1 hx with hx | hx
    · refine .inr ?_
      rcases ih₁ hx with hi | ⟨y, hy, hi⟩
      · exact ⟨o, List.mem_cons_self, hi⟩
      · exact ⟨y, List.mem_cons_of_mem _ (List.mem_append_left _ hy), hi⟩
    · rcases ih₂ hx with hi | ⟨y, hy, hi⟩
      · exact .inl (List.mem_cons_of_mem _ hi)
      · exact .inr ⟨y, List.mem_cons_of_mem _ (List.mem_append_right _ hy), hi⟩

/-- An operation is guarded by one operation at most. -/
theorem Coherent.inner_unique (h : b.Coherent) {y y' : OpId} (hy : x ∈ b.inner y)
    (hy' : x ∈ b.inner y') : y = y' := by
  obtain ⟨op, opx, hop, hopx, hmem⟩ := h.op?_of_mem_inner hy
  obtain ⟨op', opx', hop', hopx', hmem'⟩ := h.op?_of_mem_inner hy'
  obtain rfl := Option.some.inj (hopx.symm.trans hopx')
  exact h.guard_unique (by rwa [guardedBlocks_eq hop]) (by rwa [guardedBlocks_eq hop'])

/-- The blocks that hold operations, by number. -/
def blockIndex (b : Body) (x : OpId) : Nat := (b.op? x).elim 0 (·.block.index)

theorem Coherent.blockIndex_lt (h : b.Coherent) (hx : x ∈ b.inner o) :
    b.blockIndex o < b.blockIndex x := by
  obtain ⟨op, opx, hop, hopx, hmem⟩ := h.op?_of_mem_inner hx
  simpa [blockIndex, hop, hopx] using (h.guards hop hmem).1

theorem Coherent.nodup_inner (h : b.Coherent) (o : OpId) : (b.inner o).Nodup := by
  cases hop : b.op? o with
  | none => simp [inner, hop]
  | some op =>
    rw [inner_eq hop, List.nodup_flatMap]
    refine ⟨fun k hk => ?_, ?_⟩
    · cases hblk : b.block? k with
      | none => simp [slotsOf, hblk]
      | some blk => exact slotsOf_eq hblk ▸ h.nodup_slots hblk
    · refine (List.nodup_reverse.2 (h.nodup_guards hop)).imp fun {k k'} hne =>
        List.disjoint_left.2 ?_
      intro x hx hx'
      obtain ⟨opx, hopx, rfl⟩ := h.op?_of_mem_slotsOf hx
      obtain ⟨opx', hopx', rfl⟩ := h.op?_of_mem_slotsOf hx'
      rw [hopx] at hopx'
      exact hne (congrArg Operation.block (Option.some.inj hopx'))

/-- What two groups of operations unfold to is apart, if none of them lies in what another guards. -/
theorem Unfolds.disjoint {os' L' : List OpId} (hb : b.Coherent) (h : Unfolds b os L)
    (h' : Unfolds b os' L') (hos : ∀ x ∈ os, x ∉ L') (hos' : ∀ x ∈ os', x ∉ L) :
    ∀ x ∈ L, x ∉ L' := by
  suffices ∀ n x, b.blockIndex x = n → x ∈ L → x ∉ L' from fun x => this _ x rfl
  intro n
  induction n using Nat.strongRecOn with
  | ind n ih =>
    rintro x rfl hx hx'
    rcases h.mem_cases hx with hi | ⟨y, hy, hi⟩
    · exact hos x hi hx'
    rcases h'.mem_cases hx' with hi' | ⟨y', hy', hi'⟩
    · exact hos' x hi' hx
    obtain rfl := hb.inner_unique hi hi'
    exact ih _ (hb.blockIndex_lt hi) y rfl hy hy'

/-- What is unfolded is met once, if none of the operations lies in what another guards. -/
theorem Unfolds.nodup (h : Unfolds b os L) (hb : b.Coherent) (hnd : os.Nodup)
    (hroot : ∀ x ∈ os, ∀ y ∈ L, x ∉ b.inner y) : L.Nodup := by
  induction h with
  | nil => exact List.nodup_nil
  | @cons o os L Ls below rest ih₁ ih₂ =>
    have hbehind : ∀ x ∈ L, b.blockIndex o < b.blockIndex x :=
      below.forall_mem (fun x hx => hb.blockIndex_lt hx)
        fun x y hx hy => Nat.lt_trans hx (hb.blockIndex_lt hy)
    have hoL : o ∉ L := fun ho => Nat.lt_irrefl _ (hbehind o ho)
    have hos : ∀ x ∈ os, x ∉ L := fun x hx hxL => by
      rcases below.mem_cases hxL with hi | ⟨y, hy, hi⟩
      · exact hroot x (List.mem_cons_of_mem _ hx) o List.mem_cons_self hi
      · exact hroot x (List.mem_cons_of_mem _ hx) y
          (List.mem_cons_of_mem _ (List.mem_append_left _ hy)) hi
    have hoLs : o ∉ Ls := fun ho => by
      rcases rest.mem_cases ho with hi | ⟨y, hy, hi⟩
      · exact (List.nodup_cons.1 hnd).1 hi
      · exact hroot o List.mem_cons_self y (List.mem_cons_of_mem _ (List.mem_append_right _ hy)) hi
    refine List.nodup_cons.2 ⟨fun ho => ?_, List.nodup_append.2 ⟨?_, ?_, ?_⟩⟩
    · rcases List.mem_append.1 ho with ho | ho
      · exact hoL ho
      · exact hoLs ho
    · refine ih₁ (hb.nodup_inner o) fun x hx y hy hxy => ?_
      obtain rfl := hb.inner_unique hx hxy
      exact hoL hy
    · exact ih₂ (List.nodup_cons.1 hnd).2 fun x hx y hy =>
        hroot x (List.mem_cons_of_mem _ hx) y (List.mem_cons_of_mem _ (List.mem_append_right _ hy))
    · rintro x hx _ hx' rfl
      refine Unfolds.disjoint hb below rest (fun y hy hyLs => ?_) hos x hx hx'
      rcases rest.mem_cases hyLs with hi | ⟨z, hz, hi⟩
      · exact hroot y (List.mem_cons_of_mem _ hi) o List.mem_cons_self hy
      · obtain rfl := hb.inner_unique hy hi
        exact hoLs hz

theorem Coherent.not_mem_inner_entry (h : b.Coherent) (hx : x ∈ b.slotsOf Body.entry) : x ∉ b.inner o := by
  intro hi
  obtain ⟨op, opx, hop, hopx, hmem⟩ := h.op?_of_mem_inner hi
  obtain ⟨opx', hopx', hblock⟩ := h.op?_of_mem_slotsOf hx
  obtain rfl := Option.some.inj (hopx.symm.trans hopx')
  have := (h.guards hop hmem).1
  rw [hblock] at this
  exact absurd this (Nat.not_lt_zero _)

/-- Each operation is met once from the entry block on. -/
theorem Coherent.nodup_of_unfolds_entry (h : b.Coherent) (hL : Unfolds b (b.slotsOf Body.entry) L) :
    L.Nodup := by
  obtain ⟨blk, hblk, -⟩ := h.entry
  exact hL.nodup h (slotsOf_eq hblk ▸ h.nodup_slots hblk) fun x hx y _ => h.not_mem_inner_entry hx

theorem Coherent.isSome_of_unfolds (h : b.Coherent) (hL : Unfolds b (b.slotsOf k) L) :
    ∀ x ∈ L, (b.op? x).isSome := by
  refine hL.forall_mem (fun x hx => ?_) fun x y _ hy => ?_
  · obtain ⟨op, hop, -⟩ := h.op?_of_mem_slotsOf hx
    simp [hop]
  · obtain ⟨-, op, -, hop, -⟩ := h.op?_of_mem_inner hy
    simp [hop]

/-- Whatever stands is met from the entry block on, if erased operations guard nothing. -/
theorem Coherent.mem_of_unfolds_entry (h : b.Coherent) (hL : Unfolds b (b.slotsOf Body.entry) L)
    (hplain : ∀ {x op}, b.op? x = some op → op.erased → op.kind.blocks = []) {op : Operation}
    (hop : b.op? o = some op) (he : op.erased = false) : o ∈ L := by
  suffices ∀ n o op, op.block.index = n → b.op? o = some op → op.erased = false → o ∈ L from
    this _ o op rfl hop he
  intro n
  induction n using Nat.strongRecOn with
  | ind n ih =>
    rintro o op rfl hop he
    have hslot := h.mem_slotsOf hop he
    by_cases hk : op.block = Body.entry
    · exact hL.subset (hk ▸ hslot)
    obtain ⟨blk, hblk, -⟩ := h.slot hop he
    obtain ⟨g, hg⟩ := Option.isSome_iff_exists.1 (h.guarded hblk hk)
    obtain ⟨opg, hopg, hmem⟩ := h.parent hblk hg
    have heg : opg.erased = false := by
      by_contra hne
      rw [hplain hopg (by simpa using hne)] at hmem
      cases hmem
    refine hL.inner_subset (ih _ (h.guards hopg hmem).1 g opg rfl hopg heg) ?_
    exact mem_inner.2 ⟨opg, hopg, op.block, hmem, hslot⟩

end Scalarize.Body
