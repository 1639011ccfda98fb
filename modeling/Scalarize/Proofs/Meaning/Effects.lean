import Scalarize.Proofs.Meaning.Interpreted

/-!
# What a body holds and drives

* `Effect` : a variable that is held, or a leaf that is driven;
* `Body.effectsIn`, `Body.effects` : the effects of a block and all below, and of a body, in order;
* `Body.effects_drives`, `Body.effects_holds` : the connections and the variables among them;
* `Body.Silent` : edits after which every operation has the effects that it had, or is gone and had none;
* `Silent.effectsIn_eq` : an operation gives way to others that have its effects.
-/

namespace Scalarize

open Body

/-- A variable that is held, with its place and its bits, or a leaf that is driven. -/
inductive Effect where
  | hold (role : Role) (ground : Ground) (place : Option Place) (bits : List Bool)
  | drive (place : Place) (bits : List Bool)

namespace Effect

def isHold : Effect → Bool
  | hold .. => true
  | drive .. => false

def drive? : Effect → Option (Place × List Bool)
  | drive place bits => some (place, bits)
  | hold .. => none

def hold? : Effect → Option (Role × Ground × Option Place × List Bool)
  | hold role ground place bits => some (role, ground, place, bits)
  | drive .. => none

/-- Effects of a block: where its guard does not let it run, it holds its variables all the same. -/
def sieve (runs : Bool) (es : List Effect) : List Effect := bif runs then es else es.filter isHold

@[simp] theorem sieve_true (es : List Effect) : sieve true es = es := rfl

@[simp] theorem sieve_nil (runs : Bool) : sieve runs [] = [] := by cases runs <;> rfl

theorem filterMap_drive_sieve (runs : Bool) (es : List Effect) :
    (sieve runs es).filterMap drive? = bif runs then es.filterMap drive? else [] := by
  cases runs with
  | true => rfl
  | false =>
    refine List.filterMap_eq_nil_iff.2 fun e he => ?_
    cases e with
    | hold => rfl
    | drive => cases (List.mem_filter.1 he).2

theorem filterMap_hold_sieve (runs : Bool) (es : List Effect) :
    (sieve runs es).filterMap hold? = es.filterMap hold? := by
  cases runs with
  | true => rfl
  | false =>
    change (es.filter isHold).filterMap hold? = _
    rw [List.filterMap_filter]
    refine List.filterMap_congr fun e _ => ?_
    cases e <;> rfl

end Effect

open Effect

/-! ## Values -/

namespace Ty

variable {t : Ty} {ps : List Part} {s : Sense}

/-- The variables that a value of the type holds. -/
def holding (t : Ty) (role : Role) (s : Sense) : List Effect :=
  (t.leaves.filter fun l => ¬(role = .invalid ∧ l.ground.width = some 0)).map fun l =>
    .hold role l.ground (s.place.map fun p => (p.1, p.2 ++ l.path)) (s.bits l.path)

/-- What a connection of two values of the type drives. -/
def driving (t : Ty) (dest src : Sense) : List Effect := (t.drives dest src).map fun e => .drive e.1 e.2

/-- An aggregate holds what its parts hold. -/
theorem PartsOf.holding_eq (h : PartsOf t ps) (role : Role) (s : Sense) :
    t.holding role s = ps.flatMap fun p => p.ty.holding role (s.part p.index) := by
  unfold holding
  rw [h.leaves_eq, List.filter_flatMap, List.map_flatMap]
  refine List.flatMap_congr fun p _ => ?_
  rw [List.filter_map, List.map_map]
  refine List.map_congr_left fun l _ => ?_
  simp [Leaf.below, Sense.part, Function.comp_def]

/-- A connection of aggregates drives what connections of their parts drive, a flipped part the other way. -/
theorem PartsOf.driving_eq (h : PartsOf t ps) (dest src : Sense) : t.driving dest src = ps.flatMap fun p =>
    if p.flip then p.ty.driving (src.part p.index) (dest.part p.index)
    else p.ty.driving (dest.part p.index) (src.part p.index) := by
  unfold driving drives
  rw [h.leaves_eq, List.filterMap_flatMap, List.map_flatMap]
  refine List.flatMap_congr fun p _ => ?_
  rw [List.filterMap_map]
  cases p.flip
  all_goals
    simp only [Bool.false_eq_true, if_false, if_true]
    congr 1
    refine List.filterMap_congr fun l _ => ?_
    cases hl : l.flip <;> simp [Leaf.below, Sense.part, Function.comp_def, hl]

/-- An invalid value without bits holds nothing. -/
theorem holding_invalid (h : t.width = some 0) (s : Sense) : t.holding .invalid s = [] := by
  unfold holding
  rw [List.filter_eq_nil_iff.2 fun l hl => ?_, List.map_nil]
  obtain ⟨u, hu, hle⟩ := offset_add_le h (mem_leaves.1 hl).1
  change l.ground.width = some u at hu
  obtain rfl : u = 0 := by omega
  simp [hu]

end Ty

/-! ## Outlines -/

namespace Outline

variable (own : OpId → List Effect) (runs : OpId → Bool)

mutual

/-- The effects of the operations of an outline, in order. -/
def effects : Outline → List Effect
  | node o t e => own o ++ (sieve (runs o) (effectsOf t) ++ sieve (!runs o) (effectsOf e))

/-- The effects of a list of outlines, in order. -/
def effectsOf : List Outline → List Effect
  | [] => []
  | t :: ts => t.effects ++ effectsOf ts

end

theorem effectsOf_eq (ts : List Outline) : effectsOf own runs ts = ts.flatMap (effects own runs) := by
  induction ts with
  | nil => rfl
  | cons t ts ih => rw [effectsOf, ih, List.flatMap_cons]

mutual

theorem filterMap_drive_effects (t : Outline) :
    (t.effects own runs).filterMap drive? = t.drives (fun o => (own o).filterMap drive?) runs := by
  cases t with
  | node o t e =>
    rw [effects, drives, List.filterMap_append, List.filterMap_append, filterMap_drive_sieve, filterMap_drive_sieve,
      filterMap_drive_effectsOf t, filterMap_drive_effectsOf e]
    cases runs o <;> simp

theorem filterMap_drive_effectsOf (ts : List Outline) :
    (effectsOf own runs ts).filterMap drive? = drivesOf (fun o => (own o).filterMap drive?) runs ts := by
  cases ts with
  | nil => rfl
  | cons t ts =>
    rw [effectsOf, drivesOf, List.filterMap_append, filterMap_drive_effects t, filterMap_drive_effectsOf ts]

end

mutual

theorem filterMap_hold_effects (t : Outline) :
    (t.effects own runs).filterMap hold? = t.ops.flatMap fun o => (own o).filterMap hold? := by
  cases t with
  | node o t e =>
    rw [effects, ops, List.filterMap_append, List.filterMap_append, filterMap_hold_sieve, filterMap_hold_sieve,
      filterMap_hold_effectsOf t, filterMap_hold_effectsOf e, List.flatMap_cons, List.flatMap_append]

theorem filterMap_hold_effectsOf (ts : List Outline) :
    (effectsOf own runs ts).filterMap hold? = (opsOf ts).flatMap fun o => (own o).filterMap hold? := by
  cases ts with
  | nil => rfl
  | cons t ts =>
    rw [effectsOf, opsOf, List.filterMap_append, List.flatMap_append, filterMap_hold_effects t,
      filterMap_hold_effectsOf ts]

end

end Outline

namespace Body

/-! ## Bodies -/

/-- The variables that a value holds. -/
def holding (b : Body) (S : ValueId → Sense) (role : Role) (v : ValueId) : List Effect := (b.tyOf v).holding role (S v)

/-- The effects of an operation, given by its parts. -/
def effectsWith (b : Body) (S : ValueId → Sense) (kind : OpKind) (operands results : List ValueId) : List Effect :=
  match kind, operands with
  | .connect _, [dest, src] => (b.tyOf dest).driving (S dest) (S src)
  | kind, _ => kind.role?.elim [] fun role => results.flatMap (b.holding S role)

/-- The effects of an operation. -/
def effectsBy (b : Body) (S : ValueId → Sense) (x : OpId) : List Effect :=
  match b.op? x with
  | some op => b.effectsWith S op.kind op.operands op.results
  | none => []

/-- The effects of the operations in a block and below. -/
def effectsIn (b : Body) (S : ValueId → Sense) (k : BlockId) : List Effect :=
  Outline.effectsOf (b.effectsBy S) (b.holds S) (b.outline k)

/-- The effects of the blocks that an operation guards. -/
def effectsBelow (b : Body) (S : ValueId → Sense) (x : OpId) : List Effect :=
  match b.kind? x with
  | some (.when t e) => sieve (b.holds S x) (b.effectsIn S t) ++ sieve (!b.holds S x) (e.elim [] (b.effectsIn S))
  | _ => []

/-- The effects of a body: its ports are held, and then its operations come in order. -/
def effects (b : Body) (S : ValueId → Sense) : List Effect :=
  b.args.flatMap (b.holding S .port) ++ b.effectsIn S entry

variable {idle : OpId → Prop} {b b' b'' : Body} {S S' S'' : ValueId → Sense} {o x : OpId} {op : Operation}
  {k : BlockId} {v : ValueId}

theorem effectsBy_eq (h : b.op? x = some op) : b.effectsBy S x = b.effectsWith S op.kind op.operands op.results := by
  unfold effectsBy
  rw [h]

theorem effectsBelow_eq_nil (h : b.op? x = some op) (hk : op.kind.blocks = []) : b.effectsBelow S x = [] := by
  unfold effectsBelow
  rw [kind?_eq, h, Option.map_some]
  cases hkind : op.kind with
  | when t e => rw [hkind] at hk; cases hk
  | _ => rfl

theorem Coherent.effectsIn_eq (h : b.Coherent) (S : ValueId → Sense) (k : BlockId) :
    b.effectsIn S k = (b.live k).flatMap fun x => b.effectsBy S x ++ b.effectsBelow S x := by
  obtain ⟨blk, hblk, -⟩ := h.entry
  obtain ⟨s, hs⟩ := Nat.exists_eq_add_of_lt (lt_of_block? hblk)
  have hsize : b.blocks.size = s + 1 := by rw [hs]; simp [Body.entry]
  unfold effectsIn outline
  rw [hsize, outlineWith, Outline.effectsOf_eq, List.flatMap_map]
  refine List.flatMap_congr fun o ho => ?_
  have hinner : ∀ k' ∈ b.guardedBlocks o, Outline.effectsOf (b.effectsBy S) (b.holds S) (b.outlineWith s k') =
      b.effectsIn S k' := fun k' hk' => by
    have := h.lt_of_live ho hk'
    unfold effectsIn outline
    rw [hsize, h.outlineWith_eq s (by omega) (Nat.le_succ s)]
  obtain ⟨op, hop, -⟩ := h.op?_of_mem_slotsOf (mem_live.1 ho).1
  rw [guardedBlocks_eq hop] at hinner
  unfold effectsBelow
  rw [kind?_eq, hop, Option.map_some]
  cases hk : op.kind with
  | when t e =>
    rw [hk] at hinner
    cases e with
    | some e => simp [Outline.effects, hinner t (by simp [OpKind.blocks]), hinner e (by simp [OpKind.blocks])]
    | none => simp [Outline.effects, Outline.effectsOf, hinner t (by simp [OpKind.blocks])]
  | _ => simp [Outline.effects, Outline.effectsOf]

/-! ## Connections and variables -/

theorem filterMap_drive_holding (b : Body) (S : ValueId → Sense) (role : Role) (v : ValueId) :
    (b.holding S role v).filterMap drive? = [] := by
  unfold holding Ty.holding
  rw [List.filterMap_map]
  exact List.filterMap_eq_nil_iff.2 fun _ _ => rfl

theorem filterMap_drive_effectsBy (b : Body) (S : ValueId → Sense) (x : OpId) :
    (b.effectsBy S x).filterMap drive? = b.drivesBy S x := by
  unfold effectsBy drivesBy
  cases hop : b.op? x with
  | none => rfl
  | some op =>
    have hheld : (op.kind.role?.elim [] fun role => op.results.flatMap (b.holding S role)).filterMap drive? = [] := by
      cases op.kind.role? with
      | none => rfl
      | some role =>
        rw [Option.elim_some, List.filterMap_flatMap]
        simp [filterMap_drive_holding]
    obtain ⟨kind, operands, results, block, erased⟩ := op
    unfold effectsWith
    dsimp only
    split
    next => simp [Ty.driving, List.filterMap_map, Function.comp_def, drive?]
    next hne =>
      rw [hheld]
      split
      next he =>
        simp only [Option.some.injEq, Operation.mk.injEq] at he
        exact absurd he.2.1 (hne _ _ _ he.1)
      next => rfl

/-- The connections of a body are among its effects. -/
theorem effects_drives (b : Body) (S : ValueId → Sense) : (b.effects S).filterMap drive? = b.drives S := by
  unfold effects effectsIn drives
  rw [List.filterMap_append, List.filterMap_flatMap, Outline.filterMap_drive_effectsOf]
  simp [filterMap_drive_holding, filterMap_drive_effectsBy]

/-- A variable with its place and its bits. -/
def Variable.seen (S : ValueId → Sense) (x : Variable) : Role × Scalarize.Ground × Option Place × List Bool :=
  (x.role, x.ground, (S x.value).place.map fun p => (p.1, p.2 ++ x.path), (S x.value).bits x.path)

theorem filterMap_hold_holding (b : Body) (S : ValueId → Sense) (role : Role) (v : ValueId) :
    (b.holding S role v).filterMap hold? = (b.leavesOf role v).map (Variable.seen S) := by
  unfold holding Ty.holding leavesOf
  rw [List.filterMap_map, List.filter_map, List.map_map, ← List.filterMap_eq_map]
  have hvoid : (fun l : Leaf => decide ¬(role = .invalid ∧ l.ground.width = some 0)) =
      (fun x : Variable => !x.void) ∘ fun l : Leaf => ⟨v, l.path, role, l.ground⟩ := by
    funext l
    simp [Variable.void]
  rw [hvoid]
  rfl

theorem filterMap_hold_effectsBy (b : Body) (S : ValueId → Sense) (x : OpId) :
    (b.effectsBy S x).filterMap hold? = (b.held x).map (Variable.seen S) := by
  unfold effectsBy held
  cases hop : b.op? x with
  | none => rfl
  | some op =>
    obtain ⟨kind, operands, results, block, erased⟩ := op
    unfold effectsWith
    dsimp only
    split
    next strict dest src =>
      change List.filterMap hold? (List.map _ _) = []
      rw [List.filterMap_map]
      exact List.filterMap_eq_nil_iff.2 fun _ _ => rfl
    next =>
      cases kind.role? with
      | none => rfl
      | some role => simp [List.filterMap_flatMap, filterMap_hold_holding, List.map_flatMap]

/-- The variables of a body are among its effects. -/
theorem effects_holds (b : Body) (S : ValueId → Sense) :
    (b.effects S).filterMap hold? = b.vars.map (Variable.seen S) := by
  unfold effects effectsIn vars
  rw [List.filterMap_append, List.filterMap_flatMap, Outline.filterMap_hold_effectsOf, List.map_append,
    List.map_flatMap, List.map_flatMap, Outline.opsOf_eq]
  simp only [filterMap_hold_holding, filterMap_hold_effectsBy]
  rfl

/-! ## Edits without effects -/

/-- Active operations have the effects that they had, or are gone and had none. -/
structure Silent (idle : OpId → Prop) (b : Body) (S : ValueId → Sense) (b' : Body) (S' : ValueId → Sense) : Prop where
  stay : ∀ {x op}, b.Active idle x op → ∃ op', b'.op? x = some op' ∧
    ((op'.erased = false ∧ op'.kind.bare = op.kind.bare ∧ b'.effectsBy S' x = b.effectsBy S x ∧
        b'.holds S' x = b.holds S x) ∨
      (op'.erased = true ∧ op.kind.blocks = [] ∧ b.effectsBy S x = []))
  gone : ∀ {x op}, b.op? x = some op → op.erased = true → ∃ op', b'.op? x = some op' ∧ op'.erased = true

namespace Silent

theorem refl (idle : OpId → Prop) (b : Body) (S : ValueId → Sense) : Silent idle b S b S :=
  ⟨fun h => ⟨_, h.op?, .inl ⟨h.erased, rfl, rfl, rfl⟩⟩, fun h he => ⟨_, h, he⟩⟩

theorem trans (h : Silent idle b S b' S') (h' : Silent idle b' S' b'' S'') : Silent idle b S b'' S'' where
  stay {x op} hx := by
    obtain ⟨op', hop', ⟨he, hk, hown, hruns⟩ | ⟨he, hk, hown⟩⟩ := h.stay hx
    · obtain ⟨op'', hop'', ⟨he', hk', hown', hruns'⟩ | ⟨he', hk', hown'⟩⟩ := h'.stay ⟨hop', he, hx.busy⟩
      · exact ⟨op'', hop'', .inl ⟨he', hk'.trans hk, hown'.trans hown, hruns'.trans hruns⟩⟩
      · exact ⟨op'', hop'', .inr ⟨he', (OpKind.blocks_eq_of_bare_eq hk).symm.trans hk', hown.symm.trans hown'⟩⟩
    · obtain ⟨op'', hop'', he'⟩ := h'.gone hop' he
      exact ⟨op'', hop'', .inr ⟨he', hk, hown⟩⟩
  gone hop he := by
    obtain ⟨op', hop', he'⟩ := h.gone hop he
    exact h'.gone hop' he'

theorem mono (h : Silent idle b S b' S') {idle' : OpId → Prop} (hidle : ∀ x, idle x → idle' x) :
    Silent idle' b S b' S' where
  stay hx := h.stay ⟨hx.op?, hx.erased, fun hi => hx.busy (hidle _ hi)⟩
  gone := h.gone

end Silent

/-- What a slot contributes. -/
def effectsAt (b : Body) (S : ValueId → Sense) (x : OpId) : List Effect :=
  bif b.stands x then b.effectsBy S x ++ b.effectsBelow S x else []

theorem Coherent.effectsIn_slots (h : b.Coherent) (S : ValueId → Sense) (k : BlockId) :
    b.effectsIn S k = (b.slotsOf k).flatMap (b.effectsAt S) := by
  rw [h.effectsIn_eq, live_eq]
  induction b.slotsOf k with
  | nil => rfl
  | cons x xs ih =>
    rw [List.filter_cons, List.flatMap_cons, ← ih]
    unfold effectsAt
    cases b.stands x <;> simp

/-- An operation that guards nothing is erased, and others with its effects stand in front of it. All blocks that
are run have the effects that they had. -/
theorem Silent.effectsIn_eq {k₀ : BlockId} {A B H : List OpId} (hq : Silent (fun x => idle x ∨ x = o) b S b' S')
    (hb : b.Coherent) (hb' : b'.Coherent) (hact : ∀ x, b.Walked x → ¬idle x) (hop : b.op? o = some op)
    (hk : op.kind.blocks = []) (he : op.erased = false) (hs : b.slotsOf k₀ = A ++ o :: B)
    (hs' : b'.slotsOf k₀ = A ++ H ++ o :: B)
    (hslots : ∀ {k}, k ≠ k₀ → (b.block? k).isSome → b'.slotsOf k = b.slotsOf k) (ho : b'.stands o = false)
    (hH : H.flatMap (b'.effectsAt S') = b.effectsBy S o) (hexposed : b.Exposed k) (hsome : (b.block? k).isSome) :
    b'.effectsIn S' k = b.effectsIn S k := by
  suffices ∀ n k, b.blocks.size ≤ k.index + n → b.Exposed k → (b.block? k).isSome →
      b'.effectsIn S' k = b.effectsIn S k from this b.blocks.size k (by omega) hexposed hsome
  intro n
  induction n with
  | zero =>
    intro k hn _ hsome
    obtain ⟨blk, hblk⟩ := Option.isSome_iff_exists.1 hsome
    have := lt_of_block? hblk
    omega
  | succ n ih =>
    intro k hn hexposed hsome
    have hstep : ∀ x ∈ b.slotsOf k, x ≠ o → b'.effectsAt S' x = b.effectsAt S x := by
      intro x hx hne
      obtain ⟨opx, hopx, rfl⟩ := hb.op?_of_mem_slotsOf hx
      unfold effectsAt
      cases hex : opx.erased with
      | true =>
        obtain ⟨op', hop', he'⟩ := hq.gone hopx hex
        simp [stands_eq, hopx, hop', hex, he']
      | false =>
        have hst : b.stands x := by simp [stands_eq, hopx, hex]
        have hwalked := hexposed.walked hx hst
        obtain ⟨op', hop', ⟨he', hbare, hown, hruns⟩ | ⟨he', hblocks, hown⟩⟩ :=
          hq.stay ⟨hopx, hex, fun hi => hi.elim (hact x hwalked) hne⟩
        · have hst' : b'.stands x := by simp [stands_eq, hop', he']
          -- the blocks that the operation guards come later
          have hbelow : ∀ k' ∈ opx.kind.blocks, b'.effectsIn S' k' = b.effectsIn S k' := fun k' hk' => by
            obtain ⟨hlt, blk', hblk', -⟩ := hb.guards hopx hk'
            exact ih k' (by omega) (.inr ⟨x, hwalked, by rwa [guardedBlocks_eq hopx]⟩) (by rw [hblk']; rfl)
          have : b'.effectsBelow S' x = b.effectsBelow S x := by
            cases hkind : opx.kind with
            | when t e =>
              rw [hkind] at hbelow
              unfold effectsBelow
              rw [kind?_eq, kind?_eq, hopx, hop', Option.map_some, Option.map_some,
                (OpKind.eq_iff_of_bare_eq hbare rfl).2 hkind, hkind, hruns]
              dsimp only
              rw [hbelow t (by simp [OpKind.blocks])]
              cases e with
              | none => rfl
              | some e => rw [Option.elim_some, Option.elim_some, hbelow e (by simp [OpKind.blocks])]
            | _ =>
              have hnil : opx.kind.blocks = [] := by rw [hkind]; rfl
              rw [effectsBelow_eq_nil hopx hnil,
                effectsBelow_eq_nil hop' ((OpKind.blocks_eq_of_bare_eq hbare).trans hnil)]
          rw [hst, hst', hown, this]
        · rw [effectsBelow_eq_nil hopx hblocks, hown]
          simp [stands_eq, hop', he']
    rw [hb.effectsIn_slots, hb'.effectsIn_slots]
    by_cases hk₀ : k = k₀
    · subst hk₀
      have hnd := hb.nodup_slotsOf k
      rw [hs, List.nodup_append, List.nodup_cons] at hnd
      have hA : ∀ x ∈ A, b'.effectsAt S' x = b.effectsAt S x := fun x hx =>
        hstep x (by simp [hs, hx]) fun he => hnd.2.2 x hx o List.mem_cons_self he
      have hB : ∀ x ∈ B, b'.effectsAt S' x = b.effectsAt S x := fun x hx =>
        hstep x (by simp [hs, hx]) fun he => hnd.2.1.1 (he ▸ hx)
      have ho' : b'.effectsAt S' o = [] := by simp [effectsAt, ho]
      have hold : b.effectsAt S o = b.effectsBy S o := by
        simp [effectsAt, stands_eq, hop, he, effectsBelow_eq_nil hop hk]
      rw [hs, hs']
      simp only [List.flatMap_append, List.flatMap_cons]
      rw [List.flatMap_congr hA, List.flatMap_congr hB, hH, ho', hold, List.nil_append, List.append_assoc]
    · rw [hslots hk₀ hsome]
      refine List.flatMap_congr fun x hx => hstep x hx ?_
      rintro rfl
      exact hk₀ (hb.slotsOf_unique hx (by simp [hs]))

end Body

end Scalarize
