import Scalarize.Proofs.Distribution.Drives
import Scalarize.Proofs.Distribution.Retired

/-!
# Where a memory has gone

* `Body.Shared`, `Body.Pairs` : the operations that are left, each with the share that it stands for;
* `Shared.value_unique`, `Shared.denotes` : the values of nodes; `Shared.memories` : the memories of the leaves;
* `Body.Drives`, `Shared.drives`, `Shared.driven_once` : what drives what;
* `Body.SharedOut`, `Retired.sharedOut` : all this together, for the body with its slots compacted.
-/

namespace Scalarize

open Body Lower

/-- The memory, if it is one. -/
def OpKind.memory? : OpKind → Option Memory
  | mem m => some m
  | _ => none

section Forall₂

variable {α β γ : Type} {R : α → β → Prop} {S : α → γ → Prop} {p : α → Bool} {g : β → Option γ} {l : List α} {l' : List β}

/-- Some pairs of two lists are left out. -/
theorem forall₂_filter_filterMap (h : List.Forall₂ R l l')
    (hR : ∀ a c, R a c → (p a = true ∧ ∃ d, g c = some d ∧ S a d) ∨ (p a = false ∧ g c = none)) :
    List.Forall₂ S (l.filter p) (l'.filterMap g) := by
  induction h with
  | nil => exact .nil
  | cons ha _ ih =>
    obtain ⟨hp, d, hd, hs⟩ | ⟨hp, hd⟩ := hR _ _ ha
    · rw [List.filter_cons_of_pos hp, List.filterMap_cons_some hd]
      exact .cons hs ih
    · rw [List.filter_cons_of_neg (by simp [hp]), List.filterMap_cons_none hd]
      exact ih

end Forall₂

namespace Body

variable {m : Memory} {R : ValueId → Face → List Nat → Prop} {b : Body} {x y : OpId} {k : BlockId} {C : List OpId}
  {P : OpId → Prop} {s s' : Memory.Share} {u v w : ValueId} {f f' : Face} {p q : List Nat} {op : Operation}
  {n n' : Face × List Nat}

/-- The memory that the operation is. -/
def memory? (b : Body) (x : OpId) : Option Memory := (b.op? x).bind (·.kind.memory?)

/-! ## Single operations -/

/-- The operation is the memory of a leaf of the entries, and its results are the ports. -/
def Stores (m : Memory) (R : ValueId → Face → List Nat → Prop) (b : Body) (x : OpId) (s : Stop) : Prop :=
  ∃ op m', b.op? x = some op ∧ op.kind = .mem m' ∧ m.NarrowedTo s m' ∧ ∀ i v, op.results[i]? = some v ↔ R v ⟨s.path, i⟩ []

/-- The connection drives the value for node `n'` with the one for node `n`, both of the same ground type. -/
def Conducts (b : Body) (R : ValueId → Face → List Nat → Prop) (x : OpId) (n n' : Face × List Nat) : Prop :=
  ∃ op src dest g, b.op? x = some op ∧ op.kind = .connect true ∧
    b.Slot x 1 src ∧ b.Denotes R src n.1 n.2 ∧ b.ty? src = some (.ground g) ∧
    b.Slot x 0 dest ∧ b.Denotes R dest n'.1 n'.2 ∧ b.ty? dest = some (.ground g)

/-- One of the operations `C` drives node `n'` with node `n`. -/
def Drives (b : Body) (R : ValueId → Face → List Nat → Prop) (C : List OpId) (n n' : Face × List Nat) : Prop :=
  ∃ x ∈ C, b.Conducts R x n n'

namespace Embodies

/-- What stands for a connection connects the nodes at its ends. -/
theorem conducts (h : Embodies m R b x s) (hr : Roots m b R P) (hs : s.ends? = some (n, n')) : b.Conducts R x n n' := by
  cases h with
  | @link op inner outer p q flip t a d hop hk ht ht' hg ha hia hd hod =>
    obtain ⟨g, rfl⟩ : ∃ g, t = .ground g := by
      cases t with
      | ground g => exact ⟨g, rfl⟩
      | _ => cases hg
    have hty : b.ty? a = some (.ground g) ∧ b.ty? d = some (.ground g) := by
      obtain ⟨t, hnode, hty⟩ := hr.denotes_ty? hia
      obtain ⟨t', hnode', hty'⟩ := hr.denotes_ty? hod
      rw [hty, hty', ← hnode, ← hnode', ht, ht']
      exact ⟨rfl, rfl⟩
    rw [Memory.Share.ends?, Option.some.injEq] at hs
    split at hs
    next hflip =>
      obtain ⟨rfl, rfl⟩ := Prod.mk.inj hs
      rw [if_pos hflip] at ha hd
      exact ⟨op, a, d, g, hop, hk, ha, hia, hty.1, hd, hod, hty.2⟩
    next hflip =>
      obtain ⟨rfl, rfl⟩ := Prod.mk.inj hs
      rw [if_neg hflip] at ha hd
      exact ⟨op, d, a, g, hop, hk, hd, hod, hty.2, ha, hia, hty.1⟩
  | store | wire => cases hs

/-- A connection stands for one. -/
theorem exists_ends {strict : Bool} (h : Embodies m R b x s) (hop : b.op? x = some op) (hk : op.kind = .connect strict) :
    ∃ n n', s.ends? = some (n, n') := by
  cases h with
  | link => exact ⟨_, _, rfl⟩
  | store hop' hk' | wire hop' hk' =>
    rw [Option.some.inj (hop.symm.trans hop'), hk'] at hk
    cases hk

end Embodies

/-! ## All operations together -/

/-- Operations `C`, which stand, are what is left of a memory: all but fixed accessors stand for one share each. -/
structure Shared (m : Memory) (R : ValueId → Face → List Nat → Prop) (C : List OpId) (b : Body) : Prop where
  coherent : b.Coherent
  aggregate : m.dataType.isGround = false
  roots : Roots m b R (· ∈ C)
  embodied : List.Forall₂ (Embodies m R b) (C.filter b.isProper) (m.shares [] "" false m.dataType)
  nodup : C.Nodup

/-- The operation stands for the share. -/
def Pairs (m : Memory) (C : List OpId) (b : Body) (x : OpId) (s : Memory.Share) : Prop :=
  (x, s) ∈ (C.filter b.isProper).zip (m.shares [] "" false m.dataType)

namespace Shared

theorem pairs (h : Shared m R C b) : List.Forall₂ (Pairs m C b) (C.filter b.isProper) (m.shares [] "" false m.dataType) :=
  List.forall₂_iff_zip.2 ⟨h.embodied.length_eq, id⟩

theorem embodies (h : Shared m R C b) (hx : Pairs m C b x s) : Embodies m R b x s := List.forall₂_zip h.embodied hx

theorem exists_share (h : Shared m R C b) (hx : x ∈ C) (hp : b.isProper x = true) : ∃ s, Pairs m C b x s := by
  obtain ⟨i, hi⟩ := List.mem_iff_getElem?.1 (List.mem_filter.2 ⟨hx, hp⟩)
  have hlt : i < (m.shares [] "" false m.dataType).length := h.embodied.length_eq ▸ (List.getElem?_eq_some_iff.1 hi).1
  exact ⟨_, List.mem_iff_getElem?.2 ⟨i, List.getElem?_zip_eq_some.2 ⟨hi, List.getElem?_eq_getElem hlt⟩⟩⟩

theorem exists_op (h : Shared m R C b) (hs : s ∈ m.shares [] "" false m.dataType) : ∃ x ∈ C, Pairs m C b x s := by
  obtain ⟨i, hi⟩ := List.mem_iff_getElem?.1 hs
  have hlt : i < (C.filter b.isProper).length := h.embodied.length_eq ▸ (List.getElem?_eq_some_iff.1 hi).1
  exact ⟨_, (List.mem_filter.1 (List.getElem_mem hlt)).1,
    List.mem_iff_getElem?.2 ⟨i, List.getElem?_zip_eq_some.2 ⟨List.getElem?_eq_getElem hlt, hi⟩⟩⟩

/-- One operation stands for a share. -/
theorem pairs_unique (hx : Pairs m C b x s) (hy : Pairs m C b y s') (hk : s.key = s'.key) : x = y := by
  obtain ⟨i, hi⟩ := List.mem_iff_getElem?.1 hx
  obtain ⟨j, hj⟩ := List.mem_iff_getElem?.1 hy
  obtain ⟨hxi, hsi⟩ := List.getElem?_zip_eq_some.1 hi
  obtain ⟨hyj, hsj⟩ := List.getElem?_zip_eq_some.1 hj
  have hnd := m.nodup_keys [] "" false m.dataType
  have hki : ((m.shares [] "" false m.dataType).map Memory.Share.key)[i]? = some s'.key := by
    rw [List.getElem?_map, hsi, Option.map_some, hk]
  have hkj : ((m.shares [] "" false m.dataType).map Memory.Share.key)[j]? = some s'.key := by
    rw [List.getElem?_map, hsj, Option.map_some]
  obtain ⟨hlt, -⟩ := List.getElem?_eq_some_iff.1 hki
  obtain rfl := (List.getElem?_inj hlt hnd).1 (hki.trans hkj.symm)
  exact Option.some.inj (hxi.symm.trans hyj)

/-! ### Values -/

/-- The value of a node is a port of the memory of a leaf, or a wire for a leaf of a port. -/
theorem maker (h : Shared m R C b) (hv : R v f p) :
    ∃ y s j op, Pairs m C b y s ∧ b.op? y = some op ∧ op.results[j]? = some v ∧
      ((∃ c, s = .store c ∧ c.ty.isGround ∧ m.dataType.sub? c.path = some c.ty ∧ f = ⟨c.path, j⟩ ∧ p = []) ∨
        (∃ c t, s = .wire f p ∧ op.results = [v] ∧ m.dataType.sub? f.entry = some c ∧ c.isGround = false ∧
          m.nodeTy? f p = some t ∧ t.isGround)) := by
  obtain ⟨y, j, op, hy, ho, hop, -, hk, -⟩ := h.roots.made hv
  obtain ⟨op', hop', hj⟩ := h.coherent.origin ho
  obtain rfl := Option.some.inj (hop.symm.trans hop')
  have hp : b.isProper y = true := by simp [isProper, hop, OpKind.fixedIndex?_of_isSource hk]
  obtain ⟨s, hs⟩ := h.exists_share hy hp
  refine ⟨y, s, j, op, hs, hop, hj, ?_⟩
  cases h.embodies hs with
  | store hop' _ _ hc hg hR =>
    obtain rfl := Option.some.inj (hop.symm.trans hop')
    obtain ⟨rfl, rfl⟩ := h.roots.unique hv (hR j v hj)
    exact .inl ⟨_, rfl, hg, hc, rfl, rfl⟩
  | @wire _ _ _ _ _ _ u hop' _ hres hR hc hg ht hleaf =>
    obtain rfl := Option.some.inj (hop.symm.trans hop')
    obtain rfl : u = v := by
      rw [hres] at hj
      exact (List.mem_singleton.1 (List.mem_of_getElem? hj)).symm
    obtain ⟨rfl, rfl⟩ := h.roots.unique hv hR
    exact .inr ⟨_, _, rfl, hres, hc, hg, ht, hleaf⟩
  | link hop' hkind =>
    rw [Option.some.inj (hop.symm.trans hop'), hkind] at hk
    cases hk

/-- There is one value for a node. -/
theorem value_unique (h : Shared m R C b) (hv : R v f p) (hw : R w f p) : v = w := by
  obtain ⟨y, s, i, op, hy, hop, hi, hs⟩ := h.maker hv
  obtain ⟨z, s', j, op', hz, hop', hj, hs'⟩ := h.maker hw
  rcases hs with ⟨c, rfl, hg, hc, rfl, rfl⟩ | ⟨c, t, rfl, hres, hc, hg, -, -⟩
  · rcases hs' with ⟨c', rfl, -, -, he, -⟩ | ⟨c', t', rfl, -, hc', hg', -⟩
    · obtain ⟨hpath, rfl⟩ := Face.mk.inj he
      obtain rfl := pairs_unique hy hz (by simp [Memory.Share.key, hpath])
      obtain rfl := Option.some.inj (hop.symm.trans hop')
      exact Option.some.inj (hi.symm.trans hj)
    · rw [Option.some.inj (hc'.symm.trans hc), hg] at hg'
      cases hg'
  · rcases hs' with ⟨c', rfl, hg', hc', rfl, -⟩ | ⟨c', t', rfl, hres', -⟩
    · rw [Option.some.inj (hc.symm.trans hc'), hg'] at hg
      cases hg
    · obtain rfl := pairs_unique hy hz rfl
      obtain rfl := Option.some.inj (hop.symm.trans hop')
      rw [hres] at hres'
      exact (List.cons.inj hres').1

/-- What is read of a port of the memory is read from the wires for its leaves. -/
theorem denotes (h : Shared m R C b) {i : Nat} (hu : b.Denotes R u ⟨[], i⟩ q) : R u ⟨[], i⟩ q := by
  obtain ⟨a, p₀, p, ha, hat, rfl⟩ := hu
  obtain ⟨y, s, j, op, -, -, -, hs⟩ := h.maker ha
  rcases hs with ⟨c, -, hg, hc, he, -⟩ | ⟨c, t, -, -, -, -, ht, hg⟩
  · -- the memory of a leaf holds no whole entries
    rw [← (Face.mk.inj he).1] at hc
    rw [← Option.some.inj hc, h.aggregate] at hg
    cases hg
  · obtain ⟨t', ht', hty⟩ := h.roots.typed ha
    obtain rfl := Option.some.inj (ht.symm.trans ht')
    cases hat with
    | self => rwa [List.append_nil]
    | part hat hw =>
      -- a leaf has no parts
      obtain ⟨c, hc, hcty⟩ := hat.ty? hty
      obtain ⟨-, c', d', hc', hd', -⟩ := hw
      obtain rfl := Option.some.inj (hcty.symm.trans hc')
      have hgc : c.isGround = false := by
        cases c with
        | ground g => cases hd'
        | _ => rfl
      rw [Ty.isGround_of_sub? hc hgc] at hg
      cases hg

/-! ### Memories -/

theorem stores (h : Shared m R C b) {c : Stop} (hx : Pairs m C b x (.store c)) : Stores m R b x c := by
  cases h.embodies hx with
  | @store op _ m' hop hk hn hc hg hR =>
    refine ⟨op, m', hop, hk, hn, fun i v => ⟨hR i v, fun hv => ?_⟩⟩
    obtain ⟨y, s, j, op', hy, hop', hj, hs⟩ := h.maker hv
    rcases hs with ⟨c', rfl, -, -, he, -⟩ | ⟨c', t, rfl, -, hc', hg', -⟩
    · obtain ⟨hpath, rfl⟩ := Face.mk.inj he
      obtain rfl := pairs_unique hx hy (by simp [Memory.Share.key, hpath])
      rw [Option.some.inj (hop.symm.trans hop'), hj]
    · rw [Option.some.inj (hc'.symm.trans hc), hg] at hg'
      cases hg'

/-- One memory is left for each leaf of the entries, in order. -/
theorem memories (h : Shared m R C b) :
    List.Forall₂ (Stores m R b) (C.filter fun x => (b.memory? x).isSome) (m.dataType.stops false) := by
  have hstops : (m.shares [] "" false m.dataType).filterMap Memory.Share.stop? = m.dataType.stops false := by
    rw [Memory.stops_shares]
    exact (List.map_congr_left fun s _ => by simp [Stop.below]).trans (List.map_id _)
  have hfilter : C.filter (fun x => (b.memory? x).isSome) = (C.filter b.isProper).filter fun x => (b.memory? x).isSome := by
    rw [List.filter_filter]
    refine List.filter_congr fun x _ => ?_
    cases hop : b.op? x with
    | none => simp [memory?, hop]
    | some op => cases hk : op.kind <;> simp [memory?, isProper, hop, hk, OpKind.memory?, OpKind.fixedIndex?]
  rw [hfilter, ← hstops]
  refine forall₂_filter_filterMap h.pairs fun x s hx => ?_
  cases h.embodies hx with
  | store hop hk => exact .inl ⟨by simp [memory?, hop, hk, OpKind.memory?], _, rfl, h.stores hx⟩
  | wire hop hk | link hop hk => exact .inr ⟨by simp [memory?, hop, hk, OpKind.memory?], rfl⟩

/-! ### Connections -/

/-- The shares are connected as they have to be. -/
theorem drives (h : Shared m R C b) (hd : Relation.TransGen m.Drives n n') : Relation.TransGen (b.Drives R C) n n' := by
  refine Relation.TransGen.mono (fun n n' hn => ?_) _ _ hd
  obtain ⟨s, hs, hends⟩ := hn
  obtain ⟨x, hx, hpair⟩ := h.exists_op hs
  exact ⟨x, hx, (h.embodies hpair).conducts h.roots hends⟩

/-- Memories, wires, connections and fixed accessors are all there is. -/
theorem kinds (h : Shared m R C b) (hx : x ∈ C) (hop : b.op? x = some op) :
    op.kind.isSource ∨ op.kind.isConnect ∨ op.kind.fixedIndex?.isSome := by
  cases hp : b.isProper x with
  | false => exact .inr (.inr (by simpa [isProper, hop] using hp))
  | true =>
    obtain ⟨s, hs⟩ := h.exists_share hx hp
    cases h.embodies hs with
    | store hop' hk | wire hop' hk => exact .inl (by rw [Option.some.inj (hop.symm.trans hop'), hk]; rfl)
    | link hop' hk => exact .inr (.inl (by rw [Option.some.inj (hop.symm.trans hop'), hk]; rfl))

/-- Every connection drives a node of a port. -/
theorem connects {strict : Bool} (h : Shared m R C b) (hx : x ∈ C) (hop : b.op? x = some op)
    (hk : op.kind = .connect strict) : ∃ n n', b.Conducts R x n n' := by
  obtain ⟨s, hs⟩ := h.exists_share hx (by simp [isProper, hop, hk, OpKind.fixedIndex?])
  obtain ⟨n, n', hends⟩ := (h.embodies hs).exists_ends hop hk
  exact ⟨n, n', (h.embodies hs).conducts h.roots hends⟩

/-- A connection stands for one that drives the same node. -/
theorem exists_driven (h : Shared m R C b) (hx : x ∈ C) (hf : b.Conducts R x n n') :
    ∃ s n₀, Pairs m C b x s ∧ s.ends? = some (n₀, n') := by
  obtain ⟨op, -, dest, -, hop, hk, -, -, -, hdest, hd, -⟩ := hf
  obtain ⟨s, hs⟩ := h.exists_share hx (by simp [isProper, hop, hk, OpKind.fixedIndex?])
  obtain ⟨n₀, n₁, hends⟩ := (h.embodies hs).exists_ends hop hk
  obtain ⟨-, -, dest', -, -, -, -, -, -, hdest', hd', -⟩ := (h.embodies hs).conducts h.roots hends
  obtain rfl : dest = dest' := by
    obtain ⟨op₁, hop₁, hu⟩ := hdest
    obtain ⟨op₂, hop₂, hu'⟩ := hdest'
    rw [Option.some.inj (hop₁.symm.trans hop₂)] at hu
    exact Option.some.inj (hu.symm.trans hu')
  have he := h.roots.denotes_unique h.coherent hd' hd
  exact ⟨s, n₀, hs, by rw [hends, Prod.ext he.1 he.2]⟩

/-- No two connections drive the same node. -/
theorem driven_once {n₁ n₂ : Face × List Nat} (h : Shared m R C b) (hx : x ∈ C) (hy : y ∈ C) (hf : b.Conducts R x n₁ n)
    (hf' : b.Conducts R y n₂ n) : x = y := by
  obtain ⟨s, n₃, hs, hends⟩ := h.exists_driven hx hf
  obtain ⟨s', n₄, hs', hends'⟩ := h.exists_driven hy hf'
  exact pairs_unique hs hs' (Memory.key_eq_of_driven (List.of_mem_zip hs).2 (List.of_mem_zip hs').2 hends hends')

end Shared

/-! ## The whole outcome -/

/-- Operations `C` of block `k` are what the memory `m` is split into. `R` says which values stand for the nodes of its
ports, and of those of the memories of its parts.

There is one memory for each leaf of the entries, and a wire for each leaf of each port. Fields of ports that do not
depend on the entries are driven by the field of the wire; data, and masks, by the leaf of the field that lies at the
memory's own path; and data that is read drives this leaf. -/
structure SharedOut (m : Memory) (R : ValueId → Face → List Nat → Prop) (k : BlockId) (C : List OpId) (b : Body) : Prop where
  live : ∃ A B, b.live k = A ++ C ++ B
  walked : ∀ x ∈ C, b.Walked x
  roots : Roots m b R (· ∈ C)
  value_unique : ∀ {v w f p}, R v f p → R w f p → v = w
  memories : List.Forall₂ (Stores m R b) (C.filter fun x => (b.memory? x).isSome) (m.dataType.stops false)
  wires : ∀ {i port l}, m.ports[i]? = some port → l ∈ (Memory.portType m.depth m.dataType port.kind).leaves →
    ∃ x ∈ C, ∃ op d w, b.op? x = some op ∧ op.kind = .wire d ∧ op.results = [w] ∧ R w ⟨[], i⟩ l.path
  driven : ∀ {i port pos f s}, m.ports[i]? = some port → (Memory.portFields m.depth m.dataType port.kind)[pos]? = some f →
    s ∈ m.dataType.stops false → (Memory.followsData f.name && f.flip) = false →
    Relation.TransGen (b.Drives R C) (⟨[], i⟩, Memory.portNode f pos s.path) (⟨s.path, i⟩, [pos])
  drives : ∀ {i port pos f s}, m.ports[i]? = some port → (Memory.portFields m.depth m.dataType port.kind)[pos]? = some f →
    s ∈ m.dataType.stops false → (Memory.followsData f.name && f.flip) = true →
    Relation.TransGen (b.Drives R C) (⟨s.path, i⟩, [pos]) (⟨[], i⟩, Memory.portNode f pos s.path)
  kinds : ∀ {x op}, x ∈ C → b.op? x = some op → op.kind.isSource ∨ op.kind.isConnect ∨ op.kind.fixedIndex?.isSome
  connects : ∀ {x op strict}, x ∈ C → b.op? x = some op → op.kind = .connect strict → ∃ n n', b.Conducts R x n n'
  driven_once : ∀ {x y n n' n''}, x ∈ C → y ∈ C → b.Conducts R x n n'' → b.Conducts R y n' n'' → x = y

/-- What is left of a memory is what it is split into. -/
theorem Shared.sharedOut (h : Shared m R C b) (hlive : ∃ A B, b.live k = A ++ C ++ B) (hw : ∀ x ∈ C, b.Walked x) :
    SharedOut m R k C b where
  live := hlive
  walked := hw
  roots := h.roots
  value_unique := h.value_unique
  memories := h.memories
  wires {i port l} hp hl := by
    have hwire : .wire ⟨[] ++ [], i⟩ l.path ∈ m.shares [] "" false m.dataType :=
      Memory.wire_mem_shares rfl h.aggregate hp hl
    obtain ⟨x, hx, hpair⟩ := h.exists_op hwire
    cases h.embodies hpair with
    | wire hop hk hres hR => exact ⟨x, hx, _, _, _, hop, hk, hres, hR⟩
  driven {i port pos f s} hp hf hs hflip := by
    obtain ⟨⟨g, hg⟩, hne⟩ := Ty.ground_of_mem_stops h.aggregate hs
    exact h.drives (Memory.drives_inner (ℓ := []) rfl hg hne hp hf hflip)
  drives {i port pos f s} hp hf hs hflip := by
    obtain ⟨⟨g, hg⟩, hne⟩ := Ty.ground_of_mem_stops h.aggregate hs
    exact h.drives (Memory.inner_drives (ℓ := []) rfl hg hne hp hf hflip)
  kinds := h.kinds
  connects := h.connects
  driven_once := h.driven_once

/-- Compacting leaves everything as it is. -/
theorem Maintains.compact (hb : b.Coherent) : Maintains R b R b.compact fun _ => False where
  edited := ⟨hb.compact, fun hop => ⟨_, hop, rfl, rfl, rfl, id⟩, fun hv => hv⟩
  spares _ hop hop' _ := by rw [Option.some.inj (hop.symm.trans hop')]
  bare _ hop _ _ hops hop' := by rw [← Option.some.inj (hop.symm.trans hop'), hops]
  hands := .grown ⟨fun hop => ⟨_, hop, rfl, rfl, rfl, rfl, rfl⟩, fun _ => rfl, fun _ => rfl, Nat.le_refl _⟩ fun _ _ ha => ha
  keeps hv _ _ := hv

namespace Retired

variable {R₀ : ValueId → Face → List Nat → Prop} {o : OpId} {t : Moment}

theorem shared (h : Retired m R₀ o k t R C b) (hg : m.dataType.isGround = false) :
    Shared m R (C.filter b.stands) b.compact where
  coherent := h.coherent.compact
  aggregate := hg
  roots := by
    have hroots := h.roots.carried h.coherent (.compact h.coherent) fun hv => ⟨hv, fun _ _ _ => id⟩
    refine ⟨hroots.typed, fun hv => ?_, hroots.unique⟩
    obtain ⟨y, i, op, hy, ho, hop, he, hrest⟩ := hroots.made hv
    have hs : b.stands y := by
      rw [← stands_compact, stands_eq, hop]
      simp [he]
    exact ⟨y, i, op, List.mem_filter.2 ⟨hy, hs⟩, ho, hop, he, hrest⟩
  embodied := by
    rw [List.filter_filter]
    refine h.pieces.filter fun x _ ss hx => ?_
    have hx' := hx.carried h.coherent (.compact h.coherent) id id
    by_cases hs : b.stands x
    · simpa [hs] using hx'.embodies hs
    · obtain ⟨op, hop, -⟩ := hx.exists_op
      have he : op.erased = true := by
        rw [stands_eq, hop] at hs
        simpa using hs
      exact .inr ⟨by simp [hs], hx.eq_nil hop he⟩
  nodup := by
    obtain ⟨A, B, hslots⟩ := h.slots
    have hnd := h.coherent.nodup_slotsOf k
    rw [hslots, List.nodup_append, List.nodup_append] at hnd
    exact hnd.1.2.1.filter _

/-- Once nothing is pending, the memory is split. -/
theorem sharedOut (h : Retired m R₀ o k t R C b) (hg : m.dataType.isGround = false) :
    SharedOut m R k (C.filter b.stands) b.compact := by
  obtain ⟨A, B, hslots⟩ := h.slots
  refine (h.shared hg).sharedOut ⟨A.filter b.stands, (o :: B).filter b.stands, ?_⟩ fun x hx => ?_
  · rw [live_compact, live_eq, hslots, List.filter_append, List.filter_append]
  · obtain ⟨hmem, hs⟩ := List.mem_filter.1 hx
    have hw : b.Walked x := h.exposed.walked (by simp [hslots, hmem]) hs
    rwa [← h.coherent.compact.mem_walk_iff, walk_compact, h.coherent.mem_walk_iff]

end Retired

end Body

end Scalarize
