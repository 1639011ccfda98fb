import Mathlib.Data.Finset.Card
import Mathlib.Data.Finset.Range
import Mathlib.Logic.Relation
import Scalarize.Proofs.Gauge
import Scalarize.Proofs.Modules

/-!
# The first gauge

* `Body.Acyclic` : no operation is needed to compute its own operands;
* `Acyclic.exists_height` : so operations have heights, which grow from an operation to its readers;
* `Body.limits` : the limits of a body; `Gauge.start` : the gauge that heights give;
* `Acyclic.gauged` : every acyclic body is within that gauge, and ranks stay below `Body.loweringDepth`.
-/

namespace Scalarize

open Body

/-! ## Heights -/

/-- The operation `x` reads a result of the operation `d`. -/
def Body.Feeds (b : Body) (d x : OpId) : Prop := ∃ v i, b.Reads x v ∧ b.origin? v = some (.result d i)

/-- No operation is needed to compute its own operands. -/
def Body.Acyclic (b : Body) : Prop := ∀ x, ¬Relation.TransGen b.Feeds x x

namespace Body.Acyclic

variable {b : Body}

open Classical in
/-- An operation is higher than all that it is computed from, and lower than there are operations. -/
theorem exists_height (h : b.Acyclic) :
    ∃ height : OpId → Nat, (∀ x, (b.op? x).isSome → height x < b.ops.size) ∧
      ∀ d x, (b.op? d).isSome → b.Feeds d x → height d < height x := by
  -- the height of an operation is the number of operations that it is computed from
  let below (x : OpId) : Finset Nat := (Finset.range b.ops.size).filter fun i => Relation.TransGen b.Feeds ⟨i⟩ x
  have hself (x : OpId) : x.index ∉ below x := fun hx => h x (Finset.mem_filter.1 hx).2
  refine ⟨fun x => (below x).card, fun x hx => ?_, fun d x hd hdx => ?_⟩
  · have hx' : x.index ∈ Finset.range b.ops.size := Finset.mem_range.2 (isSome_op?.1 hx)
    have hlt : (below x).card < (Finset.range b.ops.size).card :=
      Finset.card_lt_card ((Finset.ssubset_iff_of_subset (Finset.filter_subset _ _)).2 ⟨x.index, hx', hself x⟩)
    rwa [Finset.card_range] at hlt
  · refine Finset.card_lt_card ((Finset.ssubset_iff_of_subset fun i hi => ?_).2 ⟨d.index, ?_, hself d⟩)
    · obtain ⟨hi, hid⟩ := Finset.mem_filter.1 hi
      exact Finset.mem_filter.2 ⟨hi, hid.tail hdx⟩
    · exact Finset.mem_filter.2 ⟨Finset.mem_range.2 (isSome_op?.1 hd), .single hdx⟩

end Body.Acyclic

/-! ## Limits -/

/-- Ports of a memory, and parts of aggregates that it holds, at most. -/
def OpKind.breadth : OpKind → Nat
  | .mem m => max m.ports.length m.dataType.breadth
  | _ => 0

/-- Parts of aggregates and operands of operations, at most; memories may have ports of seven fields. -/
def Body.breadth (b : Body) : Nat :=
  max 7 (max (b.values.foldl (fun n v => max n v.ty.breadth) 0)
    (b.ops.foldl (fun n op => max n (max op.operands.length op.kind.breadth)) 0))

/-- The limits that a body starts from. -/
def Body.limits (b : Body) : Limits where
  accesses := b.ops.size
  depth := b.typeDepth
  breadth := b.breadth

namespace Body

variable {b : Body} {v : ValueId} {x : OpId} {op : Operation} {t : Ty} {m : Memory}

theorem breadth_le_breadth (h : b.ty? v = some t) : t.breadth ≤ b.breadth := by
  obtain ⟨y, hy, rfl⟩ := ty?_eq_some_iff.1 h
  unfold breadth
  simp only [← Array.foldl_toList]
  have := le_foldl_max (f := fun v : Value => v.ty.breadth) (Array.mem_toList_iff.2 (Array.mem_of_getElem? hy)) 0
  omega

theorem max_le_breadth (h : b.op? x = some op) : max op.operands.length op.kind.breadth ≤ b.breadth := by
  unfold breadth
  simp only [← Array.foldl_toList]
  have := le_foldl_max (f := fun op : Operation => max op.operands.length op.kind.breadth)
    (Array.mem_toList_iff.2 (Array.mem_of_getElem? h)) 0
  omega

theorem within_limits (h : b.op? x = some op) (hk : op.kind = .mem m) : m.Within b.limits := by
  have hbreadth := max_le_breadth h
  rw [hk] at hbreadth
  have hm : max op.operands.length (max m.ports.length m.dataType.breadth) ≤ b.breadth := hbreadth
  refine ⟨?_, Nat.le_max_left _ _, depth_lt_typeDepth h hk, ?_⟩
  · show m.ports.length ≤ b.breadth
    omega
  · show m.dataType.breadth ≤ b.breadth
    omega

end Body

/-! ## The gauge -/

namespace Gauge

variable {b : Body} {height : OpId → Nat} {x d : OpId} {op : Operation} {v : ValueId} {t : Ty}

/-- What stands behind a result of an operation of this height: as many accesses, and accessors for each. -/
def resultExtent (depth height : Nat) : Extent := ⟨height, depth, height * 2 ^ depth⟩

/-- How deep operations other than guards nest. -/
def plainRank (b : Body) : Nat := 2 * b.ops.size * (b.typeDepth + 2) + 2 * b.typeDepth + 2

/-- Values are gauged by the heights of the operations that make them; guards rank above all else, and the
further in front their blocks, the higher. -/
def start (b : Body) (height : OpId → Nat) : Gauge where
  extent v := match b.origin? v with
    | some (.result d _) => resultExtent b.typeDepth (height d + 1)
    | _ => resultExtent b.typeDepth 0
  rank x := match b.op? x with
    | some op => if op.kind.blocks = [] then plainRank b else plainRank b + 1 + (b.blocks.size - op.block.index)
    | none => 0

theorem holds_resultExtent (ht : b.ty? v = some t) {n : Nat} (hn : n ≤ b.ops.size) :
    b.limits.Holds t (resultExtent b.typeDepth n) where
  type := depth_le_typeDepth ht
  breadth := breadth_le_breadth ht
  accesses := hn
  depth := Nat.le_refl _
  chain := by
    show n * 2 ^ b.typeDepth + 2 ^ b.typeDepth ≤ (b.ops.size + 1) * 2 ^ b.typeDepth
    rw [← Nat.add_one_mul]
    exact Nat.mul_le_mul_right _ (Nat.succ_le_succ hn)

/-- An accessor reads what was made before it. -/
theorem resultExtent_reads {depth m n : Nat} (h : m < n) : (resultExtent depth m).Reads (resultExtent depth n) where
  accesses := Nat.le_of_lt h
  depth := Nat.le_succ _
  chain := by
    have := Nat.mul_lt_mul_of_pos_right h (Nat.two_pow_pos depth)
    exact this

theorem resultExtent_casts {depth m n : Nat} (h : m < n) : (resultExtent depth m).Casts (resultExtent depth n) where
  accesses := Nat.le_of_lt h
  depth := Nat.le_refl _
  chain := by
    show m * 2 ^ depth + 2 ^ depth ≤ n * 2 ^ depth + 1
    have := Nat.mul_le_mul_right (2 ^ depth) (Nat.succ_le_of_lt h)
    rw [Nat.succ_mul] at this
    omega

theorem extent_result (hb : b.Coherent) (hop : b.op? x = some op) (hv : v ∈ op.results) :
    (start b height).extent v = resultExtent b.typeDepth (height x + 1) := by
  obtain ⟨i, hi⟩ := List.mem_iff_getElem?.1 hv
  simp only [start, hb.result hop hi]

theorem exists_extent (b : Body) (height : OpId → Nat) (v : ValueId) :
    ∃ n, (start b height).extent v = resultExtent b.typeDepth n ∧
      (n = 0 ∨ ∃ d i, b.origin? v = some (.result d i) ∧ n = height d + 1) := by
  simp only [start]
  split
  next d i hv => exact ⟨_, rfl, .inr ⟨d, i, hv, rfl⟩⟩
  next => exact ⟨0, rfl, .inl rfl⟩

theorem extent_operand (hfeeds : ∀ d x, b.Feeds d x → height d < height x) (hop : b.op? x = some op)
    (hv : v ∈ op.operands) : ∃ n, n < height x + 1 ∧ (start b height).extent v = resultExtent b.typeDepth n := by
  obtain ⟨n, hn, rfl | ⟨d, i, hd, rfl⟩⟩ := exists_extent b height v
  · exact ⟨0, Nat.succ_pos _, hn⟩
  · have := hfeeds d x ⟨v, i, ⟨op, hop, hv⟩, hd⟩
    exact ⟨_, by omega, hn⟩

theorem rank_plain (hop : b.op? x = some op) (hk : op.kind.blocks = []) : (start b height).rank x = plainRank b := by
  simp only [start, hop, if_pos hk]

theorem rank_guard (hop : b.op? x = some op) (hk : op.kind.blocks ≠ []) :
    (start b height).rank x = plainRank b + 1 + (b.blocks.size - op.block.index) := by
  simp only [start, hop, if_neg hk]

theorem plainRank_le (x : OpId) {n : Nat} (hn : n ≤ plainRank b) (hop : b.op? x = some op) :
    n ≤ (start b height).rank x := by
  by_cases hk : op.kind.blocks = []
  · rwa [rank_plain hop hk]
  · rw [rank_guard hop hk]
    omega

theorem rank_lt_loweringDepth (x : OpId) : (start b height).rank x < b.loweringDepth := by
  have hle : (start b height).rank x ≤ plainRank b + 1 + b.blocks.size := by
    simp only [start]
    split
    next => split <;> omega
    next => exact Nat.zero_le _
  have hmul : 2 * b.ops.size * (b.typeDepth + 2) ≤ 8 * b.ops.size * ((b.typeDepth + 2) * (b.typeDepth + 2)) := by
    rw [← Nat.mul_assoc]
    exact Nat.mul_le_mul_right _ (Nat.le_mul_of_pos_right _ (Nat.succ_pos _) |>.trans' (by omega))
  have hpos : b.typeDepth + 2 ≤ (b.typeDepth + 2) * (b.typeDepth + 2) := Nat.le_mul_of_pos_left _ (Nat.succ_pos _)
  unfold plainRank at hle
  unfold loweringDepth
  rw [Nat.mul_add 8, Nat.add_mul]
  omega

/-- Operations fit where operands are made by lower ones. -/
theorem fits_start (cx : Context) (hb : b.Coherent) (hsize : ∀ x, (b.op? x).isSome → height x < b.ops.size)
    (hfeeds : ∀ d x, b.Feeds d x → height d < height x) (hop : b.op? x = some op) :
    op.InGauge cx b.limits (start b height).extent b.ty? ((start b height).rank x) := by
  have hx := hsize x (by rw [hop]; rfl)
  have hoperand : ∀ w ∈ op.operands.map (start b height).extent,
      ∃ n, n < height x + 1 ∧ w = resultExtent b.typeDepth n := by
    intro w hw
    obtain ⟨v, hv, rfl⟩ := List.mem_map.1 hw
    exact extent_operand hfeeds hop hv
  have hresult : ∀ r ∈ op.results.map fun r => ((start b height).extent r, b.ty? r),
      r.1 = resultExtent b.typeDepth (height x + 1) ∧ ∀ t, r.2 = some t → t.depth ≤ b.typeDepth := by
    intro r hr
    obtain ⟨v, hv, rfl⟩ := List.mem_map.1 hr
    exact ⟨extent_result hb hop hv, fun t => depth_le_typeDepth⟩
  have hlength : (op.operands.map (start b height).extent).length ≤ b.breadth := by
    have := max_le_breadth hop
    rw [List.length_map]
    omega
  have hshallow : ∀ {n}, n ≤ 2 * b.typeDepth + 2 → n ≤ (start b height).rank x := fun {n} hn =>
    plainRank_le x (Nat.le_trans hn (by unfold plainRank; omega)) hop
  unfold Operation.InGauge
  generalize op.operands.map (start b height).extent = ws at hoperand hlength
  generalize (op.results.map fun r => ((start b height).extent r, b.ty? r)) = rs at hresult
  -- a producer is split at most as often as its type has layers
  have hproducer : ∀ r ∈ rs, r.1.depth + 1 ≤ (start b height).rank x ∧ ∀ w ∈ ws, w.depth ≤ r.1.depth := by
    intro r hr
    rw [(hresult r hr).1]
    refine ⟨hshallow (by show b.typeDepth + 1 ≤ _; omega), fun w hw => ?_⟩
    obtain ⟨n, -, rfl⟩ := hoperand w hw
    exact Nat.le_refl _
  cases hk : op.kind with
  | subfield | subindex =>
    intro w hw r hr
    obtain ⟨n, hn, rfl⟩ := hoperand w hw
    exact (hresult r hr).1 ▸ resultExtent_reads hn
  | subaccess =>
    intro w hw
    obtain ⟨n, hn, rfl⟩ := hoperand w (List.mem_of_getElem? hw)
    refine ⟨hshallow (by show b.typeDepth + 1 ≤ _; omega), fun r hr => ?_⟩
    rw [(hresult r hr).1]
    exact ⟨resultExtent_reads hn, hn⟩
  | bitcast =>
    intro w hw r hr
    obtain ⟨n, hn, rfl⟩ := hoperand w (List.mem_of_getElem? hw)
    rw [(hresult r hr).1]
    exact ⟨resultExtent_casts hn, hshallow (by show b.typeDepth + b.typeDepth + 1 ≤ _; omega)⟩
  | node => exact fun r hr => ⟨(hproducer r hr).1, fun w hw => (hproducer r hr).2 w (List.mem_of_getElem? hw)⟩
  | mux => exact fun r hr => ⟨(hproducer r hr).1, fun w hw => (hproducer r hr).2 w (List.mem_of_mem_tail hw)⟩
  | multiMux =>
    exact ⟨Nat.le_succ_of_le hlength, fun r hr =>
      ⟨(hproducer r hr).1, fun w hw => (hproducer r hr).2 w (List.mem_of_mem_tail hw)⟩⟩
  | wire | reg | regReset | invalid | unrealizedCast => exact fun r hr => (hproducer r hr).1
  | mem m =>
    have hlt := depth_lt_typeDepth hop hk
    refine ⟨within_limits hop hk, hshallow (by omega), fun r hr => ?_⟩
    rw [(hresult r hr).1]
    exact hlt
  | inst i => exact fun _ _ r hr t ht _ => hshallow (Nat.le_trans ((hresult r hr).2 t ht) (by omega))
  | connect strict =>
    intro w w' hw hw'
    obtain ⟨n, hn, rfl⟩ := hoperand w (List.mem_of_getElem? hw)
    obtain ⟨n', hn', rfl⟩ := hoperand w' (List.mem_of_getElem? hw')
    refine plainRank_le x ?_ hop
    have hmul := Nat.mul_le_mul_right (b.typeDepth + 2) (show n + n' ≤ 2 * b.ops.size by omega)
    show (n + n') * (b.typeDepth + 2) + max b.typeDepth b.typeDepth + 1 ≤ plainRank b
    unfold plainRank
    omega
  | constant | prim | «when» => trivial

end Gauge

/-- Every acyclic body is within a gauge. -/
theorem Body.Acyclic.exists_gauged (cx : Context) {b : Body} (h : b.Acyclic) (hb : b.Coherent) :
    ∃ G : Gauge, b.Gauged cx b.limits G ∧ ∀ x, G.rank x < b.loweringDepth := by
  obtain ⟨height, hsize, hheight⟩ := h.exists_height
  have hfeeds : ∀ d x, b.Feeds d x → height d < height x := fun d x hdx => by
    obtain ⟨v, i, -, hv⟩ := id hdx
    obtain ⟨op, hop, -⟩ := hb.origin hv
    exact hheight d x (by rw [hop]; rfl) hdx
  refine ⟨Gauge.start b height, ⟨hb, fun {v t} ht => ?_, fun hop => Gauge.fits_start cx hb hsize hfeeds hop,
    fun {k blk x g opg} hblk hx hg hk => ?_⟩, Gauge.rank_lt_loweringDepth⟩
  · obtain ⟨n, he, hn⟩ := Gauge.exists_extent b height v
    rw [he]
    refine Gauge.holds_resultExtent ht ?_
    rcases hn with rfl | ⟨d, i, hd, rfl⟩
    · exact Nat.zero_le _
    · obtain ⟨op, hop, -⟩ := hb.origin hd
      exact hsize d (by rw [hop]; rfl)
  · -- the block of a guard is in front of the blocks that it guards
    obtain ⟨op, hop, rfl⟩ := hb.slots hblk hx
    have hlt := (hb.guards hg hk).1
    have hle := lt_of_block? hblk
    rw [Gauge.rank_guard hg (List.ne_nil_of_mem hk)]
    by_cases hguard : op.kind.blocks = []
    · rw [Gauge.rank_plain hop hguard]
      omega
    · rw [Gauge.rank_guard hop hguard]
      omega

end Scalarize
