import Mathlib.Data.List.Induction
import Scalarize.Lower.Block
import Scalarize.Proofs.Body.Walked

/-!
# Walking backwards

A block is lowered from its last operation to its first, and what an operation gives way to is lowered
in turn. The operations that are still to be reached are `P`, in the order of `Body.Unfolds`; those that
were reached are `D`.

* `Stages` : a property of bodies with `P` and `D` that every single step keeps;
* `Swept` : what is left behind once some operations were reached;
* `Stages.eachSlot_runs`, `Stages.lowerOp_runs`, `Stages.lowerBlock_runs` : the property is kept until
  nothing is pending.
-/

namespace Scalarize

open Body

/-- Properties of a body, its symbols, a bound on the nesting of each operation, the operations that are
pending and those that are done. -/
abbrev Stage := Body → Symbols → (OpId → Nat) → List OpId → List OpId → Prop

/-- What one step leaves behind: operations `H`, which unfold to `N`, stand in front of `o`, and once
`o` is erased, should it be replaced, the new operations are pending and `o` is done. -/
def Stepped (must : Prop) (Inv : Stage) (b : Body) (R : OpId → Nat) (k : BlockId) (A : List OpId)
    (o : OpId) (B P D : List OpId) (replaced : Bool) (t : LowerState) : Prop :=
  ∃ H N R', t.builder.body.slotsOf k = A ++ H ++ o :: B ∧ Unfolds t.builder.body H N ∧
    Local b [k] [] t.builder.body ∧ (∀ x ∈ N, b.op? x = none) ∧
    (∀ x, (b.op? x).isSome → R' x = R x) ∧ (must → ∀ x ∈ N, R' x < R o) ∧
    Ends must (if replaced then t.builder.body.eraseOp o else .ok t.builder.body) fun b' =>
      Outlives t.builder.body b' ∧ Inv b' t.symbols R' (P ++ N) (o :: D)

/-- A property that every step of the walk keeps, while no guard is erased. Where failures are excluded,
`R` bounds how deep the lowering of an operation nests. -/
structure Stages (must : Prop) (cx : Context) (Inv : Stage) : Prop where
  coherent : ∀ {b y R P D}, Inv b y R P D → b.Coherent
  nodup : ∀ {b y R P D}, Inv b y R P D → (P ++ D).Nodup
  known : ∀ {b y R P D}, Inv b y R P D → ∀ x ∈ P ++ D, (b.op? x).isSome
  guards : ∃ E : OpId → Prop, ∀ {b y R P D x op}, Inv b y R P D → b.op? x = some op →
    op.kind.blocks ≠ [] → (op.erased ↔ E x)
  nested : ∀ {b y R P D x x'}, Inv b y R P D → must → x ∈ P → x' ∈ b.inner x → R x' < R x
  skip : ∀ {b y R P D o op L}, Inv b y R (P ++ o :: L) D → b.op? o = some op → op.erased →
    Unfolds b (b.inner o) L → Inv b y R P (o :: (L ++ D))
  pass : ∀ {b y R P D o op L}, Inv b y R (P ++ [o]) (L ++ D) → b.op? o = some op →
    op.kind.blocks ≠ [] → Unfolds b (b.inner o) L → Inv b y R P (o :: (L ++ D))
  step : ∀ {t : LowerState} {R P D o op k A B}, Inv t.builder.body t.symbols R (P ++ [o]) D →
    t.builder.body.op? o = some op → t.builder.body.Walked o → op.kind.blocks = [] →
    t.builder.body.slotsOf k = A ++ o :: B → t.builder.point = ⟨k, A.length⟩ →
    Runs must (Lower.step cx o op.kind) t (Stepped must Inv t.builder.body R k A o B P D)

/-- The operations `X` were reached: in their place between `A` and `B` stand operations that are done. -/
def Swept (Inv : Stage) (b : Body) (R : OpId → Nat) (k : BlockId) (A B X P D : List OpId) (p : Point)
    (t : LowerState) : Prop :=
  ∃ C N R', t.builder.body.slotsOf k = A ++ C ++ B ∧ Unfolds t.builder.body C N ∧
    Inv t.builder.body t.symbols R' P (N ++ D) ∧ Local b [k] X t.builder.body ∧
    (∀ x, (b.op? x).isSome → R' x = R x) ∧ t.builder.point = p

namespace Stages

variable {must : Prop} {cx : Context} {Inv : Stage} {t : LowerState} {R : OpId → Nat} {k : BlockId}
  {A B H L P D : List OpId} {fuel : Nat}

/-- Guards stay where they are. -/
theorem guardsStay (h : Stages must cx Inv) {b b' : Body} {y y' : Symbols} {R R' : OpId → Nat}
    {P P' D D' X : List OpId} {K : List BlockId} (hI : Inv b y R P D) (hI' : Inv b' y' R' P' D')
    (hl : Local b K X b') : b.GuardsStay b' := by
  obtain ⟨E, hE⟩ := h.guards
  refine ⟨fun {x op} hop hk he => ?_⟩
  obtain ⟨op', hop', hbare, hblock⟩ := hl.op? hop
  have hblocks := OpKind.blocks_eq_of_bare_eq hbare
  refine ⟨op', hop', hblocks, hblock, ?_⟩
  have hiff := (hE hI hop hk).trans (hE hI' hop' (hblocks ▸ hk)).symm
  cases he' : op'.erased with
  | false => rfl
  | true => simp [hiff.2 he'] at he

theorem walked (h : Stages must cx Inv) {b b' : Body} {y y' : Symbols} {R R' : OpId → Nat}
    {P P' D D' X : List OpId} {K : List BlockId} {g : OpId} (hI : Inv b y R P D) (hI' : Inv b' y' R' P' D')
    (hl : Local b K X b') (hg : b.Walked g) (hk : b.guardedBlocks g ≠ []) : b'.Walked g :=
  (h.guardsStay hI hI' hl).walked (h.coherent hI) (h.coherent hI') hg hk

theorem exposed (h : Stages must cx Inv) {b b' : Body} {y y' : Symbols} {R R' : OpId → Nat}
    {P P' D D' X : List OpId} {K : List BlockId} (hI : Inv b y R P D) (hI' : Inv b' y' R' P' D')
    (hl : Local b K X b') (hk : b.Exposed k) : b'.Exposed k :=
  (h.guardsStay hI hI' hl).exposed (h.coherent hI) (h.coherent hI') hk

theorem eachSlot_succ (f : BlockId → Nat → Lower Unit) (k : BlockId) (first n : Nat) :
    Lower.eachSlot f k first (n + 1) = (do f k (first + n); Lower.eachSlot f k first n) := by
  unfold Lower.eachSlot
  rw [List.range_succ, List.reverse_append]
  rfl

/-- What a function on slots does if it lowers the operation in a slot to the end. What it makes stands in
front of the operation. -/
def LowersSlot (must : Prop) (Inv : Stage) (fuel : Nat) (f : BlockId → Nat → Lower Unit) : Prop :=
  ∀ {t : LowerState} {R k A B o L P D}, Inv t.builder.body t.symbols R (P ++ o :: L) D →
    t.builder.body.Exposed k → t.builder.body.slotsOf k = A ++ o :: B →
    Unfolds t.builder.body (t.builder.body.inner o) L → (must → ∀ x ∈ o :: L, R x < fuel) →
    Runs must (f k A.length) t fun _ t' =>
      Swept Inv t.builder.body R k A B (o :: L) P D t.builder.point t' ∧
        ∃ C, t'.builder.body.slotsOf k = A ++ C ++ o :: B

/-- The operations in a run of slots do not guard the block in which they lie. -/
theorem not_guarded (hb : t.builder.body.Coherent) (hs : t.builder.body.slotsOf k = A ++ H ++ B)
    (hL : Unfolds t.builder.body H L) : ∀ x ∈ L, ∀ k' ∈ [k], k' ∉ t.builder.body.guardedBlocks x := by
  rintro x hx _ hk' hmem
  obtain rfl := List.mem_singleton.1 hk'
  refine Nat.lt_irrefl _ (hL.lt_of_mem hb (fun x hx => ?_) hx hmem)
  rw [hs]
  exact List.mem_append_left _ (List.mem_append_right _ hx)

/-- What is still pending in front of the operations `X` unfolds as before once these were reached. -/
theorem pending_unfolds (h : Stages must cx Inv) {X : List OpId} {b' : Body}
    (hI : Inv t.builder.body t.symbols R (P ++ L ++ X) D) (hs : t.builder.body.slotsOf k = A ++ H ++ B)
    (hL : Unfolds t.builder.body H L) (hl : Local t.builder.body [k] X b') : Unfolds b' H L := by
  have hnd := h.nodup hI
  rw [List.nodup_append, List.nodup_append, List.nodup_append] at hnd
  refine hl.unfolds (h.coherent hI) hL (fun x hx => h.known hI x (by simp [hx]))
    (not_guarded (h.coherent hI) hs hL) fun x hx hmem => ?_
  exact hnd.1.2.2 x (List.mem_append_right _ hx) x hmem rfl

/-- The same for the blocks of a guard that are reached after its block `k`. -/
theorem pending_blocks (h : Stages must cx Inv) {X : List OpId} {b' : Body} {o : OpId} {bs : List BlockId}
    (hI : Inv t.builder.body t.symbols R (P ++ L ++ X) D) (ho : o ∈ P)
    (hbs : ∀ k' ∈ k :: bs, k' ∈ t.builder.body.guardedBlocks o) (hk : k ∉ bs)
    (hL : Unfolds t.builder.body (bs.reverse.flatMap t.builder.body.slotsOf) L)
    (hl : Local t.builder.body [k] X b') : Unfolds b' (bs.reverse.flatMap b'.slotsOf) L := by
  have hb := h.coherent hI
  have hsome := h.known hI
  have hnd := h.nodup hI
  rw [List.nodup_append, List.nodup_append, List.nodup_append] at hnd
  -- no other operation guards these blocks
  have hout : ∀ k' ∈ k :: bs, ∀ x ∈ L ++ X, k' ∉ t.builder.body.guardedBlocks x := by
    intro k' hk' x hx hmem
    obtain rfl := hb.guard_unique (hbs k' hk') hmem
    rcases List.mem_append.1 hx with hx | hx
    · exact hnd.1.1.2.2 o ho o hx rfl
    · exact hnd.1.2.2 o (List.mem_append_left _ ho) o hx rfl
  have hslots : bs.reverse.flatMap b'.slotsOf = bs.reverse.flatMap t.builder.body.slotsOf := by
    refine List.flatMap_congr fun k' hk' => ?_
    rw [List.mem_reverse] at hk'
    obtain ⟨op, hop⟩ := Option.isSome_iff_exists.1 (hsome o (by simp [ho]))
    obtain ⟨-, blk, hblk, -⟩ :=
      hb.guards hop (guardedBlocks_eq hop ▸ hbs k' (List.mem_cons_of_mem _ hk'))
    refine hl.slotsOf hblk (fun hmem => ?_) fun x hx =>
      hout k' (List.mem_cons_of_mem _ hk') x (List.mem_append_right _ hx)
    rw [List.mem_singleton.1 hmem] at hk'
    exact hk hk'
  rw [hslots]
  refine hl.unfolds hb hL (fun x hx => hsome x (by simp [hx])) (fun x hx k' hk' => ?_)
    fun x hx hmem => ?_
  · rw [List.mem_singleton.1 hk']
    exact hout k List.mem_cons_self x (List.mem_append_left _ hx)
  · exact hnd.1.2.2 x (List.mem_append_right _ hx) x hmem rfl

/-- A guard stays where it is while its blocks are lowered. -/
theorem slotsOf_guard {o : OpId} {op : Operation} {b' : Body} (hb : t.builder.body.Coherent)
    (hop : t.builder.body.op? o = some op) (hs : t.builder.body.slotsOf k = A ++ o :: B)
    (hL : Unfolds t.builder.body (t.builder.body.inner o) L)
    (hl : Local t.builder.body op.kind.blocks L b') : b'.slotsOf k = A ++ o :: B := by
  have hnk : ∀ x ∈ o :: L, ∀ k' ∈ [k], k' ∉ t.builder.body.guardedBlocks x :=
    not_guarded (H := [o]) hb (by simpa using hs) (.single hL)
  obtain ⟨blk, hblk⟩ := exists_block_of_mem_slotsOf (hs ▸ List.mem_append_right A List.mem_cons_self)
  rw [hl.slotsOf hblk (fun hmem => ?_) fun x hx => ?_]
  · exact hs
  · exact hnk o List.mem_cons_self _ (List.mem_singleton_self _) (guardedBlocks_eq hop ▸ hmem)
  · exact hnk x (List.mem_cons_of_mem _ hx) _ (List.mem_singleton_self _)

/-- Slots from the last to the first. -/
theorem eachSlot_runs (h : Stages must cx Inv) {f : BlockId → Nat → Lower Unit}
    (hf : LowersSlot must Inv fuel f) (hI : Inv t.builder.body t.symbols R (P ++ L) D)
    (hopen : t.builder.body.Exposed k) (hs : t.builder.body.slotsOf k = A ++ H ++ B) (hL : Unfolds t.builder.body H L)
    (hfuel : must → ∀ x ∈ L, R x < fuel) :
    Runs must (Lower.eachSlot f k A.length H.length) t fun _ t' =>
      Swept Inv t.builder.body R k A B L P D t.builder.point t' := by
  induction H using List.reverseRecOn generalizing t R L B D with
  | nil =>
    cases hL
    rw [List.append_nil] at hI
    exact .pure ⟨[], [], R, hs, .nil, hI, .refl _ _ _, fun _ _ => rfl, rfl⟩
  | append_singleton H o ih =>
    rw [List.length_append, List.length_singleton, eachSlot_succ, ← List.length_append]
    obtain ⟨L₀, L₁, rfl, hL₀, hL₁⟩ := hL.split
    obtain ⟨Lo, rfl, hLo⟩ := hL₁.of_single
    have hs' : t.builder.body.slotsOf k = (A ++ H) ++ o :: B := by simp [hs]
    rw [← List.append_assoc] at hI
    refine (hf hI hopen hs' hLo fun hm x hx => hfuel hm x (List.mem_append_right _ hx)).bind
      fun _ t₁ ⟨⟨C, N, R₁, hs₁, hC, hI₁, hloc, hR, hp⟩, _⟩ => ?_
    -- what is still pending unfolds as before: its blocks were not touched
    have hL₀' : Unfolds t₁.builder.body H L₀ :=
      h.pending_unfolds (B := o :: B) hI hs' hL₀ hloc
    have hs₁' : t₁.builder.body.slotsOf k = A ++ H ++ (C ++ B) := by simp [hs₁]
    refine (ih hI₁ (h.exposed hI hI₁ hloc hopen) hs₁' hL₀' fun hm x hx => ?_).mono
      fun _ t₂ ⟨C₂, N₂, R₂, hs₂, hC₂, hI₂, hloc₂, hR₂, hp₂⟩ => ?_
    · rw [hR x (h.known hI x (by simp [hx]))]
      exact hfuel hm x (List.mem_append_left _ hx)
    have hng₁ : ∀ x ∈ N, ∀ k' ∈ [k], k' ∉ t₁.builder.body.guardedBlocks x :=
      not_guarded (h.coherent hI₁) hs₁ hC
    have hC' : Unfolds t₂.builder.body C N := by
      refine hloc₂.unfolds (h.coherent hI₁) hC (fun x hx => h.known hI₁ x (by simp [hx])) hng₁
        fun x hx hmem => ?_
      have hnd₁ := h.nodup hI₁
      rw [List.nodup_append] at hnd₁
      exact hnd₁.2.2 x (List.mem_append_right _ hmem) x (List.mem_append_left _ hx) rfl
    refine ⟨C₂ ++ C, N₂ ++ N, R₂, by simp [hs₂], hC₂.append hC', by simpa using hI₂, ?_, ?_, ?_⟩
    · refine (hloc.mono (List.Subset.refl _) (List.subset_append_right _ _)).trans hloc₂
        (h.coherent hI) (h.coherent hI₁) fun x hx => .inl (List.mem_append_left _ hx)
    · intro x hx
      rw [hR₂ x (hloc.isSome hx), hR x hx]
    · rw [hp₂, hp]

/-- The blocks of a guard, the first of them first. -/
theorem blocks_runs (h : Stages must cx Inv) {f : BlockId → Nat → Lower Unit}
    (hf : LowersSlot must Inv fuel f) {o : OpId} {bs : List BlockId}
    (hI : Inv t.builder.body t.symbols R (P ++ L) D) (ho : o ∈ P) (hw : t.builder.body.Walked o)
    (hbs : ∀ k ∈ bs, k ∈ t.builder.body.guardedBlocks o) (hnd : bs.Nodup)
    (hL : Unfolds t.builder.body (bs.reverse.flatMap t.builder.body.slotsOf) L)
    (hfuel : must → ∀ x ∈ L, R x < fuel) :
    Runs must (bs.forM fun k => do Lower.eachSlot f k 0 (← Lower.body (·.slotCount k))) t fun _ t' =>
      ∃ N R', Unfolds t'.builder.body (bs.reverse.flatMap t'.builder.body.slotsOf) N ∧
        Inv t'.builder.body t'.symbols R' P (N ++ D) ∧ Local t.builder.body bs L t'.builder.body ∧
        (∀ x, (t.builder.body.op? x).isSome → R' x = R x) ∧ t'.builder.point = t.builder.point := by
  induction bs generalizing t R L D with
  | nil =>
    cases hL
    rw [List.append_nil] at hI
    exact .pure ⟨[], R, .nil, hI, .refl _ _ _, fun _ _ => rfl, rfl⟩
  | cons k bs ih =>
    have hb := h.coherent hI
    have hsome := h.known hI
    have ho' : (t.builder.body.op? o).isSome := hsome o (by simp [ho])
    have hndP := h.nodup hI
    have hout : ∀ k' ∈ k :: bs, ∀ x ∈ L, k' ∉ t.builder.body.guardedBlocks x := by
      intro k' hk' x hx hmem
      obtain rfl := hb.guard_unique (hbs k' hk') hmem
      rw [List.nodup_append, List.nodup_append] at hndP
      exact hndP.1.2.2 o ho o hx rfl
    rw [List.reverse_cons, List.flatMap_append, List.flatMap_singleton] at hL
    obtain ⟨L₀, L₁, rfl, hL₀, hL₁⟩ := hL.split
    obtain ⟨hk, hbs'⟩ := List.forall_mem_cons.1 hbs
    obtain ⟨hkbs, hnd'⟩ := List.nodup_cons.1 hnd
    rw [← List.append_assoc] at hI
    have hcount : Ends must (t.builder.body.slotCount k) (· = (t.builder.body.slotsOf k).length) := by
      obtain ⟨op, hop⟩ := Option.isSome_iff_exists.1 ho'
      obtain ⟨-, blk, hblk, -⟩ := hb.guards hop (guardedBlocks_eq hop ▸ hk)
      refine slotCount_ends (fun blk hblk => by rw [slotsOf_eq hblk]) fun _ => by rw [hblk]; rfl
    change Runs must ((Lower.body _ >>= _) >>= fun _ => bs.forM _) t _
    rw [bind_assoc]
    refine Runs.bind_body hcount ?_
    rintro _ rfl
    refine (eachSlot_runs (A := []) (B := []) h hf hI (.inr ⟨o, hw, hk⟩) (by simp) hL₁ fun hm x hx =>
      hfuel hm x (by simp [hx])).bind
      fun _ t₁ ⟨C, N, R₁, hs₁, hC, hI₁, hloc, hR, hp⟩ => ?_
    rw [List.nil_append, List.append_nil] at hs₁
    have hb₁ := h.coherent hI₁
    have ho₁ : t₁.builder.body.guardedBlocks o = t.builder.body.guardedBlocks o :=
      hloc.guardedBlocks ho'
    have hL₀' := h.pending_blocks hI ho hbs hkbs hL₀ hloc
    have hw₁ := h.walked hI hI₁ hloc hw (List.ne_nil_of_mem hk)
    refine (ih hI₁ hw₁ (fun k' hk' => ho₁ ▸ hbs' k' hk') hnd' hL₀' fun hm x hx => ?_).mono
      fun _ t₂ ⟨N₂, R₂, hN₂, hI₂, hloc₂, hR₂, hp₂⟩ => ?_
    · rw [hR x (hsome x (by simp [hx]))]
      exact hfuel hm x (by simp [hx])
    have hnd₁ := h.nodup hI₁
    have hout₁ : ∀ k' ∈ k :: bs, ∀ x ∈ L₀ ++ N, k' ∉ t₁.builder.body.guardedBlocks x := by
      intro k' hk' x hx hmem
      obtain rfl := hb₁.guard_unique (ho₁ ▸ hbs k' hk') hmem
      rw [List.nodup_append, List.nodup_append] at hnd₁
      rcases List.mem_append.1 hx with hx | hx
      · exact hnd₁.1.2.2 o ho o hx rfl
      · exact hnd₁.2.2 o (List.mem_append_left _ ho) o (List.mem_append_left _ hx) rfl
    have hC₂ : Unfolds t₂.builder.body (t₂.builder.body.slotsOf k) N := by
      obtain ⟨op, hop⟩ := Option.isSome_iff_exists.1 (hloc.isSome ho')
      obtain ⟨-, blk, hblk, -⟩ := hb₁.guards hop (guardedBlocks_eq hop ▸ ho₁ ▸ hk)
      rw [hloc₂.slotsOf hblk hkbs fun x hx => hout₁ k List.mem_cons_self x (by simp [hx]), hs₁]
      refine hloc₂.unfolds hb₁ hC (fun x hx => h.known hI₁ x (by simp [hx]))
        (fun x hx k' hk' => hout₁ k' (List.mem_cons_of_mem _ hk') x (by simp [hx])) fun x hx hmem => ?_
      rw [List.nodup_append] at hnd₁
      exact hnd₁.2.2 x (List.mem_append_right _ hmem) x (List.mem_append_left _ hx) rfl
    refine ⟨N₂ ++ N, R₂, ?_, by simpa using hI₂, ?_, fun x hx => ?_, by rw [hp₂, hp]⟩
    · rw [List.reverse_cons, List.flatMap_append, List.flatMap_singleton]
      exact hN₂.append hC₂
    · refine (hloc.mono (by simp) (List.subset_append_right _ _)).trans
        (hloc₂.mono (List.subset_cons_self _ _) (List.Subset.refl _)) hb hb₁ fun x hx =>
          .inl (List.mem_append_left _ hx)
    · rw [hR₂ x (hloc.isSome hx), hR x hx]

theorem slot_ends {o : OpId} (hs : t.builder.body.slotsOf k = A ++ o :: B) :
    Ends must (do orOutOfRange (← t.builder.body.block k).slots[A.length]?) (o = ·) := by
  unfold slotsOf at hs
  cases hk : t.builder.body.block? k with
  | none => simp [hk] at hs
  | some blk =>
    rw [hk, Option.elim_some] at hs
    rw [block_eq, hk]
    change Ends must (orOutOfRange blk.slots[A.length]?) _
    rw [hs]
    exact .orOutOfRange (fun x hx => by simpa using hx) fun _ => by simp

theorem slotCount_runs (hs : t.builder.body.slotsOf k = L) (hL : L ≠ []) :
    Ends must (t.builder.body.slotCount k) (L.length = ·) := by
  unfold slotsOf at hs
  cases hk : t.builder.body.block? k with
  | none => exact absurd hs (by simpa [hk] using hL.symm)
  | some blk =>
    rw [hk, Option.elim_some] at hs
    refine slotCount_ends (fun blk' hblk' => ?_) fun _ => by rw [hk]; rfl
    rw [hk] at hblk'
    rw [← Option.some.inj hblk', hs]

/-- One operation, with what it guards and what it gives way to. -/
theorem lowerOp_runs (h : Stages must cx Inv) (fuel : Nat) :
    LowersSlot must Inv fuel (Lower.lowerOp cx fuel) := by
  induction fuel with
  | zero =>
    intro t R k A B o L P D _ _ _ _ hfuel
    exact .throw fun hm => absurd (hfuel hm o List.mem_cons_self) (Nat.not_lt_zero _)
  | succ fuel ih =>
    intro t R k A B o L P D hI hopen hs hL hfuel
    have hb := h.coherent hI
    obtain ⟨op, hop⟩ := Option.isSome_iff_exists.1 (h.known hI o (by simp))
    rw [Lower.lowerOp]
    refine Runs.bind_body (slot_ends hs) ?_
    rintro _ rfl
    refine Runs.bind_body (op_ends (Q := (op = ·)) (fun op' hop' => ?_) fun _ => by rw [hop]; rfl) ?_
    · rw [hop] at hop'
      exact Option.some.inj hop'
    rintro _ rfl
    split
    next he =>
      exact .pure ⟨⟨[o], o :: L, R, by simpa using hs, .single hL,
        h.skip hI hop he hL, .refl _ _ _, fun _ _ => rfl, rfl⟩, [], by simpa using hs⟩
    next he =>
      rw [Bool.not_eq_true] at he
      have hw : t.builder.body.Walked o := hopen.walked (by rw [hs]; simp) (by simp [stands_eq, hop, he])
      refine Runs.bind_point (Runs.bind_body (slotCount_runs hs (by simp)) ?_)
      rintro _ rfl
      refine Runs.bind_moveTo (Runs.bind_body (kindOf_ends (Q := (op.kind = ·)) (fun op' hop' => ?_)
        fun _ => ?_) ?_)
      · change t.builder.body.op? o = some op' at hop'
        rw [hop] at hop'
        rw [Option.some.inj hop']
      · change (t.builder.body.op? o).isSome
        rw [hop]
        rfl
      rintro _ rfl
      by_cases hk : op.kind.blocks = []
      · -- the operation is lowered by one layer, then what it gives way to
        have hL' : L = [] := by
          rw [inner_eq_nil hop hk] at hL
          cases hL
          rfl
        subst hL'
        have hstep := h.step (t := ⟨⟨t.builder.body, ⟨k, A.length⟩⟩, t.symbols⟩) hI hop hw hk hs rfl
        split
        next hkind =>
          rw [hkind] at hk
          cases hk
        refine hstep.bind fun replaced t₁ ⟨H, N, R₁, hs₁, hH, hloc, hnew, hR, hlt, hend⟩ => ?_
        refine Runs.bind_moveTo (Runs.bind_body (slotCount_runs hs₁ (by simp)) ?_)
        rintro _ rfl
        have hcnt : (A ++ H ++ o :: B).length - (A ++ o :: B).length = H.length := by simp; omega
        rw [hcnt]
        -- once the operation is erased, only the new ones are left to be reached
        suffices hrest : ∀ b', Outlives t₁.builder.body b' ∧ Inv b' t₁.symbols R₁ (P ++ N) (o :: D) →
            Runs must (Lower.eachSlot (Lower.lowerOp cx fuel) k A.length H.length)
              ⟨⟨b', t.builder.point⟩, t₁.symbols⟩ fun _ t' =>
                Swept Inv t.builder.body R k A B [o] P D t.builder.point t' ∧
                  ∃ C, t'.builder.body.slotsOf k = A ++ C ++ o :: B by
          cases replaced with
          | false => exact hrest _ hend
          | true => exact Runs.bind_change hend hrest
        rintro b' ⟨hout, hI'⟩
        have hs' : b'.slotsOf k = A ++ H ++ o :: B := by rw [hout.slotsOf, hs₁]
        have hloc' := hloc.outlives hout
        have hopen' : b'.Exposed k := h.exposed hI hI' hloc' hopen
        refine (eachSlot_runs (t := ⟨⟨b', t.builder.point⟩, t₁.symbols⟩) h ih hI' hopen' hs'
          (hout.unfolds hH) fun hm x hx => ?_).mono fun _ t₂ ⟨C, N₂, R₂, hs₂, hC, hI₂, hloc₂, hR₂, hp⟩ => ?_
        · have := hlt hm x hx
          have := hfuel hm o List.mem_cons_self
          omega
        refine ⟨⟨C ++ [o], N₂ ++ [o], R₂, by simp [hs₂], hC.append ?_, by simpa using hI₂, ?_,
          fun x hx => ?_, hp⟩, C, hs₂⟩
        · refine .single ?_
          obtain ⟨op₁, hop₁, hb₁, -⟩ := hloc'.op? hop
          obtain ⟨op₂, hop₂, hb₂, -⟩ := hloc₂.op? hop₁
          rw [inner_eq_nil hop₂ (by rw [OpKind.blocks_eq_of_bare_eq (hb₂.trans hb₁), hk])]
          exact .nil
        · refine (hloc'.mono (List.Subset.refl _) (List.nil_subset [o])).trans hloc₂ hb (h.coherent hI')
            fun x hx => .inr (hnew x hx)
        · rw [hR₂ x (hloc'.isSome hx), hR x hx]
      · -- the blocks of a guard are lowered, the guard itself stays
        split
        next thenBlock elseBlock hkind =>
          rw [← List.singleton_append, ← List.append_assoc] at hI
          have hL' := hL
          rw [inner_eq hop] at hL'
          have ho : o ∈ P ++ [o] := by simp
          have hguard : ∀ k' ∈ op.kind.blocks, k' ∈ t.builder.body.guardedBlocks o := by
            rw [guardedBlocks_eq hop]
            exact fun k' hk' => hk'
          have hnk : ∀ x ∈ o :: L, ∀ k' ∈ [k], k' ∉ t.builder.body.guardedBlocks x :=
            not_guarded (H := [o]) hb (by simpa using hs) (.single hL)
          have hlt : must → ∀ x ∈ L, R x < R o := fun hm x hx =>
            (hL.forall_mem (Q := fun x => x ∈ L ∧ R x < R o)
              (fun x hx => ⟨hL.subset hx, h.nested hI hm (List.mem_append_left _ ho) hx⟩)
              fun x x' ⟨hx, hlt⟩ hx' => ⟨hL.inner_subset hx hx',
                Nat.lt_trans (h.nested hI hm (List.mem_append_right _ hx) hx') hlt⟩) x hx |>.2
          have hblocks := blocks_runs (t := ⟨⟨t.builder.body, ⟨k, A.length⟩⟩, t.symbols⟩) h ih hI ho hw
            hguard (hb.nodup_guards hop) hL' fun hm x hx => by
              have := hlt hm x hx
              have := hfuel hm o List.mem_cons_self
              omega
          refine hblocks.bind fun _ t₁ ⟨N, R₁, hN, hI₁, hloc, hR, _⟩ => ?_
          have hs₁ := slotsOf_guard hb hop hs hL hloc
          refine Runs.bind (.pure (Q := fun r t' => false = r ∧ t₁ = t') ⟨rfl, rfl⟩) ?_
          rintro _ _ ⟨rfl, rfl⟩
          refine Runs.bind_moveTo (Runs.bind_body (slotCount_runs hs₁ (by simp)) ?_)
          rintro _ rfl
          rw [Nat.sub_self]
          obtain ⟨op₁, hop₁, hb₁, -⟩ := hloc.op? hop
          have hN' : Unfolds t₁.builder.body (t₁.builder.body.inner o) N := by
            rw [inner_eq hop₁, OpKind.blocks_eq_of_bare_eq hb₁]
            exact hN
          refine .pure ⟨⟨[o], o :: N, R₁, by simpa using hs₁, .single hN', ?_,
            { hloc with block? := ?_ }, hR, rfl⟩, [], by simpa using hs₁⟩
          · refine h.pass hI₁ hop₁ ?_ hN'
            rw [OpKind.blocks_eq_of_bare_eq hb₁]
            exact hk
          · intro k' blk hblk _ hout
            refine hloc.block? hblk (fun hmem => ?_) fun x hx => hout x (List.mem_cons_of_mem _ hx)
            exact hout o List.mem_cons_self (hguard k' hmem)
        next hne =>
          refine absurd ?_ hk
          cases hkind : op.kind <;> first | rfl | exact absurd hkind (hne _ _)

/-- All operations of a block are reached. -/
theorem lowerBlock_runs (h : Stages must cx Inv) (hI : Inv t.builder.body t.symbols R (P ++ L) D)
    (hk : (t.builder.body.block? k).isSome) (hopen : t.builder.body.Exposed k)
    (hL : Unfolds t.builder.body (t.builder.body.slotsOf k) L)
    (hfuel : must → ∀ x ∈ L, R x < fuel) :
    Runs must (Lower.lowerBlock cx fuel k) t fun _ t' =>
      Swept Inv t.builder.body R k [] [] L P D t.builder.point t' := by
  refine Runs.bind_body (P := fun n => (t.builder.body.slotsOf k).length = n)
    (slotCount_ends (fun blk hblk => by rw [slotsOf_eq hblk]) fun _ => hk) ?_
  rintro _ rfl
  exact eachSlot_runs (A := []) (B := []) h (h.lowerOp_runs fuel) hI hopen (by simp) hL hfuel

end Stages

end Scalarize
