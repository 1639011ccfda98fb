import Scalarize.Proofs.Flattening
import Scalarize.Proofs.Leaves
import Scalarize.Proofs.Step.Memory

/-!
# What a memory is shared out into

A memory of aggregates gives way to memories of the parts of its entries, these to memories of their parts, and so on;
on every layer, each port becomes a wire.

* `Face` : a port of the memory that holds one node of every entry; `Memory.nodeTy?` : the types of its nodes;
* `Memory.Share`, `Memory.shares` : the memories, wires and connections that are left in the end, in the order in which
  they are made;
* `Memory.shares_of_peel` : those of a memory are those of the memories of its parts, with the wires for its ports in
  front of them and the connections behind them;
* `Memory.stops_shares` : there is one memory for each leaf of the entries;
* `Memory.nodup_keys` : everything is listed once;
* `Memory.wire_mem_shares`, `Memory.link_mem_shares` : wires and connections of every layer are listed.
-/

namespace Scalarize

/-- A port of the memory that holds one node of every entry. -/
structure Face where
  /-- Way to the node in the type of an entry. -/
  entry : List Nat
  /-- Position of the port. -/
  port : Nat
  deriving DecidableEq

namespace Memory

variable {m : Memory} {ℓ : List Nat} {σ : String} {turned : Bool} {c data : Ty} {ps : List Part}

/-- Type of a node of a port. -/
def nodeTy? (m : Memory) (f : Face) (p : List Nat) : Option Ty :=
  (m.dataType.sub? f.entry).bind fun data =>
    m.ports[f.port]?.bind fun port => (portType m.depth data port.kind).sub? p

/-! ## Shares -/

/-- One thing that is left of a memory of aggregates in the end. -/
inductive Share where
  /-- The memory of a leaf of the entries. -/
  | store (s : Stop)
  /-- The wire for a leaf of a port. -/
  | wire (f : Face) (p : List Nat)
  /-- A connection between a leaf of a port and a leaf of the same port one layer further out; the inner one is driven,
  or the outer one where `flip` is set. -/
  | link (inner : Face) (p : List Nat) (outer : Face) (q : List Nat) (flip : Bool)

namespace Share

/-- The leaf of the entries, if the share is a memory. -/
def stop? : Share → Option Stop
  | store s => some s
  | _ => none

/-- What tells a share from all others: its sort, and where it lies. -/
def key : Share → Nat × Face × List Nat
  | store s => (0, ⟨s.path, 0⟩, [])
  | wire f p => (1, f, p)
  | link inner p _ _ _ => (2, inner, p)

end Share

/-- Type in which a field of a port meets the same field of the memory of part `j`. -/
def linkTy? (f : Field) (j : Nat) : Option Ty := if followsData f.name then f.ty.child? j else some f.ty

/-- The connection of a leaf of field `f`, at position `pos` of port `i`, with the memory of part `j`. -/
def link (ℓ : List Nat) (i : Nat) (f : Field) (pos j : Nat) (p : List Nat) : Share :=
  .link ⟨ℓ ++ [j], i⟩ (pos :: p) ⟨ℓ, i⟩ (if followsData f.name then pos :: j :: p else pos :: p)
    (followsData f.name && f.flip)

/-- The wires for the ports of the memory of one node. -/
def wires (m : Memory) (ℓ : List Nat) (data : Ty) : List Share :=
  m.ports.zipIdx.flatMap fun (p, i) => (portType m.depth data p.kind).leaves.map fun l => .wire ⟨ℓ, i⟩ l.path

/-- The connections of field `f` with the memories of the parts at the given positions. -/
def fieldLinks (ℓ : List Nat) (i : Nat) (f : Field) (pos : Nat) (js : List Nat) : List Share :=
  js.flatMap fun j => (linkTy? f j).toList.flatMap fun t => t.leaves.map fun l => link ℓ i f pos j l.path

/-- The connections of the ports of the memory of one node with those of the memories of its parts. -/
def links (m : Memory) (ℓ : List Nat) (data : Ty) : List Share :=
  m.ports.zipIdx.flatMap fun (p, i) => (portFields m.depth data p.kind).zipIdx.flatMap fun (f, pos) =>
    fieldLinks ℓ i f pos (List.range data.children.length)

mutual

/-- What the memory of one node is shared out into: `ℓ` leads to the node, `σ` is what names gain on the way, and
`turned` says whether this crosses an odd number of flipped fields. -/
def shares (m : Memory) (ℓ : List Nat) (σ : String) (turned : Bool) : Ty → List Share
  | .ground g => [.store ⟨ℓ, σ, turned, .ground g⟩]
  | .bundle fs => m.wires ℓ (.bundle fs) ++ m.sharesFields ℓ σ turned fs 0 ++ m.links ℓ (.bundle fs)
  | .vector e n => m.wires ℓ (.vector e n) ++
    ((List.range n).flatMap fun i => m.shares (ℓ ++ [i]) (σ ++ ("_" ++ toString i)) turned e) ++ m.links ℓ (.vector e n)

/-- The same for the parts of a field list, whose head is at position `i`. -/
def sharesFields (m : Memory) (ℓ : List Nat) (σ : String) (turned : Bool) : List Field → Nat → List Share
  | [], _ => []
  | ⟨name, flip, t⟩ :: fs, i =>
    m.shares (ℓ ++ [i]) (σ ++ ("_" ++ name)) (turned ^^ flip) t ++ m.sharesFields ℓ σ turned fs (i + 1)

end

theorem sharesFields_eq (m : Memory) (ℓ : List Nat) (σ : String) (turned : Bool) (fs : List Field) (i : Nat) :
    m.sharesFields ℓ σ turned fs i = (fs.zipIdx i).flatMap fun (f, j) =>
      m.shares (ℓ ++ [j]) (σ ++ ("_" ++ f.name)) (turned ^^ f.flip) f.ty := by
  induction fs generalizing i with
  | nil => rfl
  | cons f fs ih =>
    cases f
    rw [sharesFields, ih, List.zipIdx_cons, List.flatMap_cons]

/-- The shares of a memory of aggregates, layer by layer. -/
theorem shares_eq_layer (h : c.isGround = false) :
    m.shares ℓ σ turned c = m.wires ℓ c ++
      (c.layer.flatMap fun s => m.shares (ℓ ++ s.path) (σ ++ s.suffix) (turned ^^ s.flip) s.ty) ++ m.links ℓ c := by
  cases c with
  | ground g => cases h
  | bundle fs => rw [shares, sharesFields_eq, Ty.layer, List.flatMap_map]
  | vector e n =>
    rw [shares, Ty.layer, List.flatMap_map]
    simp

theorem shares_of_peel (h : c.peel false = .ok (some ps)) :
    m.shares ℓ σ turned c = m.wires ℓ c ++
      (ps.flatMap fun p => m.shares (ℓ ++ [p.index]) (σ ++ p.suffix) (turned ^^ p.flip) p.ty) ++ m.links ℓ c := by
  have hg : c.isGround = false := by
    cases c with
    | ground g => cases h
    | _ => rfl
  rw [shares_eq_layer hg, ← Ty.map_stop_of_peel h, List.flatMap_map]
  rfl

theorem mem_wires {s : Share} (h : s ∈ m.wires ℓ data) : ∃ i p, s = .wire ⟨ℓ, i⟩ p := by
  obtain ⟨⟨port, i⟩, -, hs⟩ := List.mem_flatMap.1 h
  obtain ⟨l, -, rfl⟩ := List.mem_map.1 hs
  exact ⟨i, l.path, rfl⟩

theorem mem_links {s : Share} (h : s ∈ m.links ℓ data) : ∃ i f pos j p, s = link ℓ i f pos j p := by
  obtain ⟨⟨port, i⟩, -, hs⟩ := List.mem_flatMap.1 h
  obtain ⟨⟨f, pos⟩, -, hs⟩ := List.mem_flatMap.1 hs
  obtain ⟨j, -, hs⟩ := List.mem_flatMap.1 hs
  obtain ⟨t, -, hs⟩ := List.mem_flatMap.1 hs
  obtain ⟨l, -, rfl⟩ := List.mem_map.1 hs
  exact ⟨i, f, pos, j, l.path, rfl⟩

/-! ## Memories -/

/-- There is one memory for each leaf of the entries, in order. -/
theorem stops_shares (m : Memory) (ℓ : List Nat) (σ : String) (turned : Bool) (c : Ty) :
    (m.shares ℓ σ turned c).filterMap Share.stop? = (c.stops false).map (Stop.below ℓ σ turned) := by
  induction hn : c.depth using Nat.strongRecOn generalizing ℓ σ turned c with
  | ind n ih =>
    cases hg : c.isGround with
    | true =>
      cases c with
      | ground g => simp [shares, Ty.stops, Stop.below, Stop.whole, Share.stop?]
      | _ => cases hg
    | false =>
      have hwires : (m.wires ℓ c).filterMap Share.stop? = [] := List.filterMap_eq_nil_iff.2 fun s hs => by
        obtain ⟨i, p, rfl⟩ := mem_wires hs
        rfl
      have hlinks : (m.links ℓ c).filterMap Share.stop? = [] := List.filterMap_eq_nil_iff.2 fun s hs => by
        obtain ⟨i, f, pos, j, p, rfl⟩ := mem_links hs
        rfl
      rw [shares_eq_layer hg, Ty.stops_eq_layer (by simp [hg]), List.filterMap_append, List.filterMap_append, hwires,
        hlinks, List.nil_append, List.append_nil, List.filterMap_flatMap, List.map_flatMap]
      refine List.flatMap_congr fun s hs => ?_
      obtain ⟨i, -, hc⟩ := Ty.mem_layer hs
      rw [ih _ (hn ▸ Ty.depth_lt_of_child? hc) _ _ _ _ rfl, List.map_map]
      exact List.map_congr_left fun l _ => by simp [Stop.below, String.append_assoc]

/-! ## Places -/

/-- A share lies at or below the node of its memory, and a connection leads further in. -/
theorem entry_of_mem_shares {s : Share} (h : s ∈ m.shares ℓ σ turned c) :
    ∃ q, s.key.2.1.entry = ℓ ++ q ∧ (s.key.1 = 2 → q ≠ []) := by
  induction hn : c.depth using Nat.strongRecOn generalizing ℓ σ turned c with
  | ind n ih =>
    cases hg : c.isGround with
    | true =>
      cases c with
      | ground g =>
        obtain rfl : s = _ := by simpa [shares] using h
        exact ⟨[], by simp [Share.key], by simp [Share.key]⟩
      | _ => cases hg
    | false =>
      rw [shares_eq_layer hg] at h
      rcases List.mem_append.1 h with h | h
      · rcases List.mem_append.1 h with h | h
        · obtain ⟨i, p, rfl⟩ := mem_wires h
          exact ⟨[], by simp [Share.key], by simp [Share.key]⟩
        · obtain ⟨t, ht, hs⟩ := List.mem_flatMap.1 h
          obtain ⟨i, hi, hc⟩ := Ty.mem_layer ht
          obtain ⟨q, hq, -⟩ := ih _ (hn ▸ Ty.depth_lt_of_child? hc) hs rfl
          exact ⟨t.path ++ q, by rw [hq, List.append_assoc], fun _ => by simp [hi]⟩
      · obtain ⟨i, f, pos, j, p, rfl⟩ := mem_links h
        exact ⟨[j], rfl, fun _ => by simp⟩

/-- Lists that are told apart by an index, put in a row. -/
theorem nodup_flatMap {α β κ : Type} {l : List α} {f : α → List β} {i : α → κ} {j : β → κ} (hl : (l.map i).Nodup)
    (hf : ∀ a ∈ l, (f a).Nodup) (hj : ∀ a ∈ l, ∀ y ∈ f a, j y = i a) : (l.flatMap f).Nodup := by
  refine List.nodup_flatMap.2 ⟨hf, (List.pairwise_map.1 hl).imp_of_mem fun {a a'} ha ha' hne => ?_⟩
  exact fun y hy hy' => hne ((hj a ha y hy).symm.trans (hj a' ha' y hy'))

theorem nodup_positions {α : Type} (l : List α) : (l.zipIdx.map (·.2)).Nodup := by
  rw [List.zipIdx_map_snd]
  exact List.nodup_range'

theorem nodup_leaves {κ : Type} (t : Ty) (g : List Nat → κ) (hg : ∀ p q, g p = g q → p = q) :
    (t.leaves.map fun l => g l.path).Nodup := by
  have hpaths : (t.leaves.map (·.path)).Nodup := List.Pairwise.imp (fun hlt => by
    rintro rfl
    exact List.lt_irrefl _ hlt) (Ty.pairwise_leaves t)
  have := hpaths.map hg
  rwa [List.map_map] at this

theorem nodup_wires (m : Memory) (ℓ : List Nat) (data : Ty) : ((m.wires ℓ data).map Share.key).Nodup := by
  rw [wires, List.map_flatMap]
  refine nodup_flatMap (nodup_positions m.ports) (j := fun y => y.2.1.port) (fun x _ => ?_) fun x _ y hy => ?_
  · rw [List.map_map]
    exact nodup_leaves _ (fun p => (1, (⟨ℓ, x.2⟩ : Face), p)) fun p q h => by simpa using h
  · obtain ⟨s, hs, rfl⟩ := List.mem_map.1 hy
    obtain ⟨l, -, rfl⟩ := List.mem_map.1 hs
    rfl

theorem nodup_links (m : Memory) (ℓ : List Nat) (data : Ty) : ((m.links ℓ data).map Share.key).Nodup := by
  rw [links, List.map_flatMap]
  refine nodup_flatMap (nodup_positions m.ports) (j := fun y => y.2.1.port) (fun x _ => ?_) fun x _ y hy => ?_
  · rw [List.map_flatMap]
    refine nodup_flatMap (nodup_positions _) (j := fun y => y.2.2.headD 0) (fun z _ => ?_) fun z _ y hy => ?_
    · change ((fieldLinks ℓ x.2 z.1 z.2 (List.range data.children.length)).map Share.key).Nodup
      rw [fieldLinks, List.map_flatMap]
      refine nodup_flatMap (i := fun j => ℓ ++ [j]) (j := fun y => y.2.1.entry)
        (List.nodup_range.map fun i j h => by simpa using h) (fun j _ => ?_) fun j _ y hy => ?_
      · cases linkTy? z.1 j with
        | none => exact .nil
        | some t =>
          rw [Option.toList_some, List.flatMap_singleton, List.map_map]
          exact nodup_leaves _ (fun p => (2, (⟨ℓ ++ [j], x.2⟩ : Face), z.2 :: p)) fun p q h => by simpa using h
      · obtain ⟨s, hs, rfl⟩ := List.mem_map.1 hy
        obtain ⟨t, -, hs⟩ := List.mem_flatMap.1 hs
        obtain ⟨l, -, rfl⟩ := List.mem_map.1 hs
        rfl
    · obtain ⟨s, hs, rfl⟩ := List.mem_map.1 hy
      obtain ⟨j, -, hs⟩ := List.mem_flatMap.1 hs
      obtain ⟨t, -, hs⟩ := List.mem_flatMap.1 hs
      obtain ⟨l, -, rfl⟩ := List.mem_map.1 hs
      rfl
  · obtain ⟨s, hs, rfl⟩ := List.mem_map.1 hy
    obtain ⟨z, -, hs⟩ := List.mem_flatMap.1 hs
    obtain ⟨j, -, hs⟩ := List.mem_flatMap.1 hs
    obtain ⟨t, -, hs⟩ := List.mem_flatMap.1 hs
    obtain ⟨l, -, rfl⟩ := List.mem_map.1 hs
    rfl

/-- No two shares have the same place. -/
theorem nodup_keys (m : Memory) (ℓ : List Nat) (σ : String) (turned : Bool) (c : Ty) :
    ((m.shares ℓ σ turned c).map Share.key).Nodup := by
  induction hn : c.depth using Nat.strongRecOn generalizing ℓ σ turned c with
  | ind n ih =>
    cases hg : c.isGround with
    | true =>
      cases c with
      | ground g => simp [shares]
      | _ => cases hg
    | false =>
      -- what the parts are shared out into lies further in than what this layer adds
      have hinner : ∀ t ∈ c.layer, ∀ y ∈ (m.shares (ℓ ++ t.path) (σ ++ t.suffix) (turned ^^ t.flip) t.ty).map Share.key,
          ∃ k q, t.path = [k] ∧ y.2.1.entry = ℓ ++ k :: q ∧ (y.1 = 2 → q ≠ []) := fun t ht y hy => by
        obtain ⟨s, hs, rfl⟩ := List.mem_map.1 hy
        obtain ⟨k, hk, -⟩ := Ty.mem_layer ht
        obtain ⟨q, hq, hne⟩ := entry_of_mem_shares hs
        exact ⟨k, q, hk, by rw [hq, hk]; simp, hne⟩
      have hparts : ((c.layer.flatMap fun s => m.shares (ℓ ++ s.path) (σ ++ s.suffix) (turned ^^ s.flip) s.ty).map
          Share.key).Nodup := by
        rw [List.map_flatMap]
        refine nodup_flatMap (i := fun s : Stop => s.path) (j := fun y => (y.2.1.entry.drop ℓ.length).take 1) ?_
          (fun s hs => ?_) fun s hs y hy => ?_
        · rw [Ty.map_path_layer]
          exact List.nodup_range.map fun i j h => by simpa using h
        · obtain ⟨k, -, hc⟩ := Ty.mem_layer hs
          exact ih _ (hn ▸ Ty.depth_lt_of_child? hc) _ _ _ _ rfl
        · obtain ⟨k, q, hk, he, -⟩ := hinner s hs y hy
          simp [he, hk]
      rw [shares_eq_layer hg, List.map_append, List.map_append, List.nodup_append, List.nodup_append]
      refine ⟨⟨nodup_wires m ℓ c, hparts, fun y hy y' hy' he => ?_⟩, nodup_links m ℓ c, fun y hy y' hy' he => ?_⟩
      · obtain ⟨s, hs, rfl⟩ := List.mem_map.1 hy
        obtain ⟨i, p, rfl⟩ := mem_wires hs
        rw [List.map_flatMap] at hy'
        obtain ⟨t, ht, hy'⟩ := List.mem_flatMap.1 hy'
        obtain ⟨k, q, -, hq, -⟩ := hinner t ht y' hy'
        rw [← he] at hq
        simp [Share.key] at hq
      · obtain ⟨s', hs', rfl⟩ := List.mem_map.1 hy'
        obtain ⟨i, f, pos, j, p, rfl⟩ := mem_links hs'
        subst he
        rcases List.mem_append.1 hy with hy | hy
        · obtain ⟨s, hs, he⟩ := List.mem_map.1 hy
          obtain ⟨i', p', rfl⟩ := mem_wires hs
          cases he
        · rw [List.map_flatMap] at hy
          obtain ⟨t, ht, hy⟩ := List.mem_flatMap.1 hy
          obtain ⟨k, q, -, hq, hne⟩ := hinner t ht _ hy
          obtain rfl : q = [] := by simpa [Share.key, link] using (congrArg List.length hq)
          exact hne rfl rfl

/-! ## Which shares there are -/

/-- What the memory of a node inside is shared out into is listed. -/
theorem shares_sub {q : List Nat} {d : Ty} (h : c.sub? q = some d) (ℓ : List Nat) (σ : String) (turned : Bool) :
    ∃ σ' turned', ∀ s ∈ m.shares (ℓ ++ q) σ' turned' d, s ∈ m.shares ℓ σ turned c := by
  induction q generalizing c ℓ σ turned with
  | nil =>
    obtain rfl := Option.some.inj h
    exact ⟨σ, turned, by simp⟩
  | cons k q ih =>
    obtain ⟨e, hk, h⟩ := Option.bind_eq_some_iff.1 h
    obtain ⟨t, ht, hpath, rfl⟩ := Ty.exists_mem_layer hk
    obtain ⟨σ', turned', hsub⟩ := ih h (ℓ ++ [k]) (σ ++ t.suffix) (turned ^^ t.flip)
    refine ⟨σ', turned', fun s hs => ?_⟩
    have hg : c.isGround = false := by
      cases c with
      | ground g => cases hk
      | _ => rfl
    rw [shares_eq_layer hg]
    refine List.mem_append_left _ (List.mem_append_right _ (List.mem_flatMap.2 ⟨t, ht, ?_⟩))
    rw [hpath]
    exact hsub s (by simpa using hs)

/-- The wires of every layer are listed. -/
theorem wire_mem_shares {q : List Nat} {d : Ty} {i : Nat} {port : MemPort} {l : Leaf} (h : c.sub? q = some d)
    (hg : d.isGround = false) (hp : m.ports[i]? = some port) (hl : l ∈ (portType m.depth d port.kind).leaves) :
    .wire ⟨ℓ ++ q, i⟩ l.path ∈ m.shares ℓ σ turned c := by
  obtain ⟨σ', turned', hsub⟩ := shares_sub (m := m) h ℓ σ turned
  refine hsub _ ?_
  rw [shares_eq_layer hg]
  refine List.mem_append_left _ (List.mem_append_left _ (List.mem_flatMap.2 ⟨(port, i), ?_, List.mem_map.2 ⟨l, hl, rfl⟩⟩))
  exact List.mk_mem_zipIdx_iff_getElem?.2 hp

/-- The connections of every layer are listed. -/
theorem link_mem_shares {q : List Nat} {d e t : Ty} {i pos j : Nat} {port : MemPort} {f : Field} {l : Leaf}
    (h : c.sub? q = some d) (hj : d.child? j = some e) (hp : m.ports[i]? = some port)
    (hf : (portFields m.depth d port.kind)[pos]? = some f) (ht : linkTy? f j = some t) (hl : l ∈ t.leaves) :
    link (ℓ ++ q) i f pos j l.path ∈ m.shares ℓ σ turned c := by
  obtain ⟨σ', turned', hsub⟩ := shares_sub (m := m) h ℓ σ turned
  refine hsub _ ?_
  have hg : d.isGround = false := by
    cases d with
    | ground g => cases hj
    | _ => rfl
  have hlt : j < d.children.length := by
    rw [← Ty.getElem?_children] at hj
    exact (List.getElem?_eq_some_iff.1 hj).1
  rw [shares_eq_layer hg]
  refine List.mem_append_right _ (List.mem_flatMap.2 ⟨(port, i), List.mk_mem_zipIdx_iff_getElem?.2 hp, ?_⟩)
  refine List.mem_flatMap.2 ⟨(f, pos), List.mk_mem_zipIdx_iff_getElem?.2 hf, ?_⟩
  refine List.mem_flatMap.2 ⟨j, List.mem_range.2 hlt, List.mem_flatMap.2 ⟨t, ?_, List.mem_map.2 ⟨l, hl, rfl⟩⟩⟩
  rw [ht]
  exact List.mem_singleton_self t

end Memory

end Scalarize
