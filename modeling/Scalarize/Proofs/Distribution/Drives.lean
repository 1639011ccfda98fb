import Mathlib.Logic.Relation
import Scalarize.Proofs.Distribution.Layers

/-!
# How the shares of a memory are connected

* `Memory.Drives` : a connection among the shares of a memory;
* `Memory.portNode` : the node of a port that belongs to a field of the memory of a leaf;
* `Memory.inward_of_sub` : connections lead from that node to this field, through the wires of all layers between;
* `Memory.drives_inner`, `Memory.inner_drives` : so the node drives the field, or the other way round;
* `Memory.key_eq_of_driven` : no node is driven twice.
-/

namespace Scalarize

/-- A type that is made from another one part by part. -/
theorem Ty.sub?_map {g : Ty → Ty} (hg : ∀ t i, (g t).child? i = (t.child? i).map g) (t : Ty) (q : List Nat) :
    (g t).sub? q = (t.sub? q).map g := by
  induction q generalizing t with
  | nil => rfl
  | cons i q ih =>
    rw [sub?, sub?, hg]
    cases t.child? i with
    | none => rfl
    | some c => exact ih c

namespace Memory

variable {m : Memory} {ℓ q : List Nat} {σ : String} {turned : Bool} {c d : Ty} {i pos depth : Nat} {port : MemPort}
  {f f' : Field} {kind : PortKind} {s s' : Share} {n n' n₁ n₂ : Face × List Nat} {g : Ground}

/-- From where and to where a connection among the shares leads. -/
def Share.ends? : Share → Option ((Face × List Nat) × (Face × List Nat))
  | link inner p outer q flip => some (if flip then ((inner, p), (outer, q)) else ((outer, q), (inner, p)))
  | _ => none

/-- A connection among the shares drives node `n'` with node `n`. -/
def Drives (m : Memory) (n n' : Face × List Nat) : Prop := ∃ s ∈ m.shares [] "" false m.dataType, s.ends? = some (n, n')

/-- Path of the node that belongs to the field at position `pos`, of a port for the entries of a type, of the memory that
holds what is at the end of `q`. -/
def portNode (f : Field) (pos : Nat) (q : List Nat) : List Nat := if followsData f.name then pos :: q else [pos]

/-! ## Through all layers -/

/-- A field of the memory of a part, and its node one layer further out. -/
theorem link_mem {j : Nat} {e : Ty} (h : m.dataType.sub? ℓ = some d) (hj : d.child? j = some e)
    (hq : e.sub? q = some (.ground g)) (hp : m.ports[i]? = some port)
    (hf : (portFields m.depth d port.kind)[pos]? = some f) :
    ∃ t, (portFields m.depth e port.kind)[pos]? = some { f with ty := t } ∧
      .link ⟨ℓ ++ [j], i⟩ (portNode f pos q) ⟨ℓ, i⟩ (portNode f pos (j :: q)) (followsData f.name && f.flip) ∈
        m.shares [] "" false m.dataType := by
  obtain ⟨t, ht, hf'⟩ := exists_linkTy? hf hj
  refine ⟨t, hf', ?_⟩
  -- the leaf of the field that holds the end of the path
  have hleaf : ∃ l ∈ t.leaves, l.path = if followsData f.name then q else [] := by
    have hcases := portField_cases hf'
    dsimp only at hcases
    split at hcases
    next hfollows =>
      obtain ⟨g', hchild, hdepth, rfl, -⟩ := hcases
      have hsub := Ty.sub?_map hchild e q
      rw [hq, Option.map_some] at hsub
      have hground : (g' (.ground g)).isGround := by
        cases hg : (g' (.ground g)).isGround with
        | true => rfl
        | false => exact absurd (Ty.depth_pos hg) (by rw [hdepth]; exact Nat.lt_irrefl 0)
      obtain ⟨g₁, hg₁⟩ : ∃ g₁, g' (.ground g) = .ground g₁ := by
        cases hgt : g' (.ground g) with
        | ground g₁ => exact ⟨g₁, rfl⟩
        | _ => rw [hgt] at hground; cases hground
      rw [hg₁] at hsub
      exact ⟨⟨q, (g' e).turned q, g₁⟩, Ty.mem_leaves.2 ⟨hsub, rfl⟩, by rw [if_pos hfollows]⟩
    next hfollows =>
      obtain ⟨g₁, rfl⟩ : ∃ g₁, t = .ground g₁ := by
        cases t with
        | ground g₁ => exact ⟨g₁, rfl⟩
        | _ => cases hcases.1
      exact ⟨⟨[], (Ty.ground g₁).turned [], g₁⟩, Ty.mem_leaves.2 ⟨rfl, rfl⟩, by rw [if_neg hfollows]⟩
  obtain ⟨l, hl, hpath⟩ := hleaf
  have hmem : link ([] ++ ℓ) i f pos j l.path ∈ m.shares [] "" false m.dataType := link_mem_shares h hj hp hf ht hl
  unfold link at hmem
  unfold portNode
  rw [hpath] at hmem
  split at hmem <;> simpa [*] using hmem

/-- A connection among the shares leads from node `n` to node `n'`, which lies one layer further in, or back where `flip` is
set. -/
def Inward (m : Memory) (flip : Bool) (n n' : Face × List Nat) : Prop :=
  .link n'.1 n'.2 n.1 n.2 flip ∈ m.shares [] "" false m.dataType

/-- Connections lead from the node that belongs to a field of the memory of a leaf to this field. -/
theorem inward_of_sub (h : m.dataType.sub? ℓ = some d) (hq : d.sub? q = some (.ground g)) (hp : m.ports[i]? = some port)
    (hf : (portFields m.depth d port.kind)[pos]? = some f) :
    Relation.ReflTransGen (m.Inward (followsData f.name && f.flip)) (⟨ℓ, i⟩, portNode f pos q) (⟨ℓ ++ q, i⟩, [pos]) := by
  induction q generalizing ℓ d f with
  | nil =>
    rw [List.append_nil]
    unfold portNode
    split <;> exact .refl
  | cons j q ih =>
    obtain ⟨e, hj, hq⟩ := Option.bind_eq_some_iff.1 hq
    obtain ⟨t, hf', hmem⟩ := link_mem h hj hq hp hf
    have hrest := ih (Ty.sub?_concat h hj) hq hf'
    rw [List.append_assoc] at hrest
    have hstep : m.Inward (followsData f.name && f.flip) (⟨ℓ, i⟩, portNode f pos (j :: q))
        (⟨ℓ ++ [j], i⟩, portNode f pos q) := hmem
    exact .head hstep hrest

theorem inward_trans (h : m.dataType.sub? ℓ = some d) (hq : d.sub? q = some (.ground g)) (hne : q ≠ [])
    (hp : m.ports[i]? = some port) (hf : (portFields m.depth d port.kind)[pos]? = some f) :
    Relation.TransGen (m.Inward (followsData f.name && f.flip)) (⟨ℓ, i⟩, portNode f pos q) (⟨ℓ ++ q, i⟩, [pos]) := by
  refine (Relation.reflTransGen_iff_eq_or_transGen.1 (inward_of_sub h hq hp hf)).resolve_left fun he => ?_
  simp [hne] at he

/-- A field of the memory of a leaf is driven by the node that belongs to it. -/
theorem drives_inner (h : m.dataType.sub? ℓ = some d) (hq : d.sub? q = some (.ground g)) (hne : q ≠ [])
    (hp : m.ports[i]? = some port) (hf : (portFields m.depth d port.kind)[pos]? = some f)
    (hflip : (followsData f.name && f.flip) = false) :
    Relation.TransGen m.Drives (⟨ℓ, i⟩, portNode f pos q) (⟨ℓ ++ q, i⟩, [pos]) := by
  have := inward_trans h hq hne hp hf
  rw [hflip] at this
  exact Relation.TransGen.mono (fun n n' hn => ⟨_, hn, rfl⟩) _ _ this

/-- Data that is read is driven by the memory of the leaf. -/
theorem inner_drives (h : m.dataType.sub? ℓ = some d) (hq : d.sub? q = some (.ground g)) (hne : q ≠ [])
    (hp : m.ports[i]? = some port) (hf : (portFields m.depth d port.kind)[pos]? = some f)
    (hflip : (followsData f.name && f.flip) = true) :
    Relation.TransGen m.Drives (⟨ℓ ++ q, i⟩, [pos]) (⟨ℓ, i⟩, portNode f pos q) := by
  have := inward_trans h hq hne hp hf
  rw [hflip] at this
  exact Relation.transGen_swap.1 (Relation.TransGen.mono (fun n n' hn => ⟨_, hn, rfl⟩) _ _ this)

/-! ## Drivers -/

/-- Where a connection among the shares comes from. -/
theorem exists_link {inner outer : Face} {p p' : List Nat} {flip : Bool}
    (h : .link inner p outer p' flip ∈ m.shares ℓ σ turned c) (hc : m.dataType.sub? ℓ = some c) :
    ∃ ℓ' d i port f pos j q, m.dataType.sub? ℓ' = some d ∧ m.ports[i]? = some port ∧
      (portFields m.depth d port.kind)[pos]? = some f ∧ Share.link inner p outer p' flip = link ℓ' i f pos j q := by
  induction hn : c.depth using Nat.strongRecOn generalizing ℓ σ turned c with
  | ind n ih =>
    cases hg : c.isGround with
    | true =>
      cases c with
      | ground g => simp [shares] at h
      | _ => cases hg
    | false =>
      rw [shares_eq_layer hg] at h
      rcases List.mem_append.1 h with h | h
      · rcases List.mem_append.1 h with h | h
        · obtain ⟨i, q, he⟩ := mem_wires h
          cases he
        · obtain ⟨t, ht, h⟩ := List.mem_flatMap.1 h
          obtain ⟨j, hj, hchild⟩ := Ty.mem_layer ht
          rw [hj] at h
          exact ih _ (hn ▸ Ty.depth_lt_of_child? hchild) h (Ty.sub?_concat hc hchild) rfl
      · obtain ⟨⟨port, i⟩, hport, h⟩ := List.mem_flatMap.1 h
        obtain ⟨⟨f, pos⟩, hf, h⟩ := List.mem_flatMap.1 h
        obtain ⟨j, -, h⟩ := List.mem_flatMap.1 h
        obtain ⟨t, -, h⟩ := List.mem_flatMap.1 h
        obtain ⟨l, -, he⟩ := List.mem_map.1 h
        exact ⟨ℓ, c, i, port, f, pos, j, l.path, hc, List.mk_mem_zipIdx_iff_getElem?.1 hport,
          List.mk_mem_zipIdx_iff_getElem?.1 hf, he.symm⟩

/-- Fields of ports of one kind have the same names and directions, whatever the entries. -/
theorem portField_congr {data data' : Ty} (hf : (portFields depth data kind)[pos]? = some f)
    (hf' : (portFields depth data' kind)[pos]? = some f') : f'.name = f.name ∧ f'.flip = f.flip := by
  have hcases := portField_cases hf
  split at hcases
  next =>
    obtain ⟨g, -, -, -, hall⟩ := hcases
    obtain rfl := Option.some.inj (hf'.symm.trans (hall data'))
    exact ⟨rfl, rfl⟩
  next =>
    obtain rfl := Option.some.inj (hf'.symm.trans (hcases.2 data'))
    exact ⟨rfl, rfl⟩

theorem driven_of_link {j : Nat} (h : (link ℓ i f pos j q).ends? = some (n', n)) :
    n = if followsData f.name && f.flip then (⟨ℓ, i⟩, pos :: j :: q) else (⟨ℓ ++ [j], i⟩, pos :: q) := by
  simp only [link, Share.ends?, Option.some.injEq] at h
  cases hflip : followsData f.name && f.flip with
  | false =>
    rw [hflip] at h
    exact (Prod.mk.inj h).2.symm
  | true =>
    rw [hflip, (Bool.and_eq_true_iff.1 hflip).1] at h
    exact (Prod.mk.inj h).2.symm

/-- No node is driven twice. -/
theorem key_eq_of_driven (hs : s ∈ m.shares [] "" false m.dataType) (hs' : s' ∈ m.shares [] "" false m.dataType)
    (h : s.ends? = some (n₁, n)) (h' : s'.ends? = some (n₂, n)) : s.key = s'.key := by
  cases s with
  | link inner p outer r flip =>
    cases s' with
    | link inner' p' outer' r' flip' =>
      obtain ⟨ℓ, d, i, port, f, pos, j, q, -, hp, hf, he⟩ := exists_link hs rfl
      obtain ⟨ℓ', d', i', port', f', pos', j', q', -, hp', hf', he'⟩ := exists_link hs' rfl
      rw [he] at h ⊢
      rw [he'] at h' ⊢
      have hn := driven_of_link h
      have hn' := driven_of_link h'
      -- both drive the same field of the same port, so both lead into the same direction
      have hi : n.1.port = i ∧ n.2.head? = some pos := by
        rw [hn]
        split <;> exact ⟨rfl, rfl⟩
      have hi' : n.1.port = i' ∧ n.2.head? = some pos' := by
        rw [hn']
        split <;> exact ⟨rfl, rfl⟩
      obtain rfl : i = i' := hi.1.symm.trans hi'.1
      obtain rfl : pos = pos' := Option.some.inj (hi.2.symm.trans hi'.2)
      obtain rfl := Option.some.inj (hp.symm.trans hp')
      obtain ⟨hname, hflip⟩ := portField_congr hf hf'
      rw [hname, hflip, hn] at hn'
      have hplace : ℓ ++ [j] = ℓ' ++ [j'] ∧ q = q' := by
        split at hn'
        · obtain ⟨rfl, rfl, rfl⟩ : ℓ = ℓ' ∧ j = j' ∧ q = q' := by simpa using hn'
          exact ⟨rfl, rfl⟩
        · simpa using hn'
      simp [link, Share.key, hplace.1, hplace.2]
    | _ => cases h'
  | _ => cases h

end Memory

end Scalarize
