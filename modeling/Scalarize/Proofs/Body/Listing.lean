import Scalarize.Circuit.Text
import Scalarize.Proofs.Body.Erasure
import Scalarize.Proofs.Body.Order

/-!
# Walks are complete

* `Body.Visits`, `Coherent.visits_iff` : operations are visited until none is left; this ends, with what a walk lists;
* `Writer.outlinesText_compact`, `Module.text_compact` : a module is written as before once its body is compacted;
* `Body.Listed`, `Body.Unseen`, `Reachable.listed` : what a walk lists, and that erased operations are not seen.
-/

namespace Scalarize

open Body

namespace Body

variable {b : Body} {os L L' : List OpId}

/-! ## Visits -/

/-- The first operation is visited, next what stands in the blocks that it guards, and then the others, until none is
left. -/
inductive Visits (b : Body) : List OpId → List OpId → Prop
  | nil : Visits b [] []
  | visit {o : OpId} {os L : List OpId} (h : Visits b ((b.guardedBlocks o).flatMap b.live ++ os) L) :
      Visits b (o :: os) (o :: L)

theorem Visits.unique (h : b.Visits os L) (h' : b.Visits os L') : L = L' := by
  induction h generalizing L' with
  | nil =>
    cases h'
    rfl
  | visit _ ih =>
    cases h' with
    | visit h' => rw [ih h']

/-- Blocks are visited one after the other, if each of them can be. -/
theorem Visits.blocks {ks : List BlockId}
    (hks : ∀ k ∈ ks, ∀ {os L}, b.Visits os L → b.Visits (b.live k ++ os) (b.below k ++ L)) (h : b.Visits os L) :
    b.Visits (ks.flatMap b.live ++ os) (ks.flatMap b.below ++ L) := by
  induction ks with
  | nil => exact h
  | cons k ks ih =>
    rw [List.flatMap_cons, List.flatMap_cons, List.append_assoc, List.append_assoc]
    exact hks k List.mem_cons_self (ih fun k' hk' => hks k' (List.mem_cons_of_mem k hk'))

theorem Coherent.visits_below (h : b.Coherent) (k : BlockId) :
    ∀ {os L}, b.Visits os L → b.Visits (b.live k ++ os) (b.below k ++ L) := by
  induction k using h.wellFounded_blocks.induction with
  | h k ih =>
    intro os L hrest
    have hinner : ∀ o ∈ b.live k, ∀ k' ∈ b.guardedBlocks o, ∀ {os L}, b.Visits os L →
        b.Visits (b.live k' ++ os) (b.below k' ++ L) :=
      fun o ho k' hk' => ih k' ⟨o, h.liesIn (mem_live.1 ho).1, hk'⟩
    rw [h.below_eq k]
    generalize b.live k = l at hinner
    induction l with
    | nil => exact hrest
    | cons o l ihl =>
      rw [List.flatMap_cons, List.cons_append, List.cons_append, List.cons_append, List.append_assoc]
      exact .visit (.blocks (hinner o List.mem_cons_self) (ihl fun o' ho' => hinner o' (List.mem_cons_of_mem o ho')))

/-- Visiting what stands in the entry block comes to an end, and a walk lists what was visited. -/
theorem Coherent.visits_iff (h : b.Coherent) : b.Visits (b.live Body.entry) L ↔ L = b.walk := by
  have hwalk : b.Visits (b.live Body.entry) b.walk := by simpa [walk_eq] using h.visits_below Body.entry .nil
  exact ⟨fun hL => hL.unique hwalk, fun hL => hL ▸ hwalk⟩

/-! ## Texts -/

theorem opText_compact (b : Body) (op : Operation) (name : ValueId → String) :
    b.compact.opText op name = b.opText op name := rfl

end Body

namespace Writer

mutual

theorem outlineText_compact (b : Body) (level : Nat) (w : Writer) :
    (t : Outline) → outlineText b.compact level w t = outlineText b level w t
  | .node o inThen inElse => by
    have hop : b.compact.op o = b.op o := rfl
    simp only [outlineText, hop, opText_compact, outlinesText_compact b _ _ inThen, outlinesText_compact b _ _ inElse]

theorem outlinesText_compact (b : Body) (level : Nat) (w : Writer) :
    (ts : List Outline) → outlinesText b.compact level w ts = outlinesText b level w ts
  | [] => rfl
  | t :: ts => by
    simp only [outlinesText, outlineText_compact b _ _ t, outlinesText_compact b _ _ ts]

end

end Writer

/-- A module is written as before once its body is compacted. -/
theorem Module.text_compact {m : Module} {b : Body} (hb : m.body = some b) (level : Nat) :
    ({ m with body := some b.compact } : Module).text level = m.text level := by
  have hsize : b.compact.blocks.size = b.blocks.size := by simp [compact]
  have houtline : b.compact.outline Body.entry = b.outline Body.entry := by
    rw [outline, outline, hsize, outlineWith_compact]
  have hargs : b.compact.args = b.args := rfl
  simp only [Module.text, Module.isExternal, hb, houtline, hargs, Writer.outlinesText_compact]
  rfl

namespace Body

variable {b : Body}

/-! ## Reachable bodies -/

/-- Blocks are nested like a tree. -/
structure BlockTree (b : Body) : Prop where
  /-- Guarded blocks are made after the block of their guard. -/
  later : ∀ {g k k'}, b.LiesIn g k → k' ∈ b.guardedBlocks g → k.index < k'.index ∧ k'.index < b.blocks.size
  owner : ∀ {g g' k}, k ∈ b.guardedBlocks g → k ∈ b.guardedBlocks g' → g = g'
  distinct : ∀ g, (b.guardedBlocks g).Nodup
  wellFounded : WellFounded fun k' k => ∃ g, b.LiesIn g k ∧ k' ∈ b.guardedBlocks g

/-- A walk ends, and lists what stands with all that encloses it, each operation once, in order. -/
structure Listed (b : Body) : Prop extends BlockTree b where
  visits : ∀ {L}, b.Visits (b.live Body.entry) L ↔ L = b.walk
  mem : ∀ {x}, x ∈ b.walk ↔ b.stands x ∧ ∀ g, b.Encloses g x → b.stands g
  once : b.walk.Nodup
  order : ∀ {x y}, [x, y].Sublist b.walk ↔ x ∈ b.walk ∧ y ∈ b.walk ∧ b.ComesBefore x y

/-- Without the slots of erased operations, nothing is different. -/
structure Unseen (b : Body) : Prop where
  walk : b.compact.walk = b.walk
  live : ∀ k, b.compact.live k = b.live k
  slots : ∀ k, b.compact.slotsOf k = b.live k
  tables : b.compact.ops = b.ops ∧ b.compact.values = b.values ∧ b.compact.args = b.args
  text : ∀ {m : Module} level, m.body = some b → ({ m with body := some b.compact } : Module).text level = m.text level
  again : b.compact.compact = b.compact

theorem compact_compact (b : Body) : b.compact.compact = b.compact := by
  have hstands : b.compact.stands = b.stands := rfl
  rw [compact, hstands]
  simp [compact, Function.comp_def, List.filter_filter]

theorem unseen (b : Body) : b.Unseen where
  walk := b.walk_compact
  live := b.live_compact
  slots k := (b.slotsOf_compact k).trans (b.live_eq k).symm
  tables := ⟨rfl, rfl, rfl⟩
  text level hb := Module.text_compact hb level
  again := b.compact_compact

theorem Coherent.blockTree (h : b.Coherent) : b.BlockTree where
  later := h.lt_of_liesIn
  owner := h.guard_unique
  distinct g := by
    unfold guardedBlocks
    cases hop : b.op? g with
    | none => exact .nil
    | some op => exact h.nodup_guards hop
  wellFounded := h.wellFounded_blocks

/-- Walks of bodies that edits lead to are complete, and erased operations are not seen. -/
theorem Reachable.listed (hb : b.Reachable) : b.Listed ∧ b.Unseen :=
  have h := hb.coherent
  ⟨{ h.blockTree with
      visits := h.visits_iff
      mem := h.mem_walk_iff.trans h.walked_iff
      once := h.nodup_walk
      order := h.sublist_walk_iff }, b.unseen⟩

/-- A wire and a node below a guard. -/
theorem listed_readerBody : (readerBody ⟨1⟩).Reachable ∧ (readerBody ⟨1⟩).walk = [⟨0⟩, ⟨1⟩, ⟨2⟩] ∧
    (readerBody ⟨1⟩).Listed ∧ (readerBody ⟨1⟩).Unseen :=
  ⟨readerBody_reachable.2, by decide +kernel, Reachable.listed readerBody_reachable.2⟩

end Body

end Scalarize
