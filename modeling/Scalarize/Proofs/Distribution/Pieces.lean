import Scalarize.Proofs.Distribution.Shares
import Scalarize.Proofs.Region.Connect
import Scalarize.Proofs.Region.Parts
import Scalarize.Proofs.Steady

/-!
# What operations stand for while a memory is split

* `Memory.NarrowedTo` : the memory of one node of the entries;
* `Body.Piece` : the shares of a memory for which an operation stands; `R` says which values stand for which nodes of
  ports;
* `Body.Roots` : those values are wires and ports of memories; `Roots.ports` : at first, the ports of the memory itself;
* `Body.Maintains` : what an edit leaves; `Piece.carried`, `Roots.carried`, `Maintains.replaced`, `Maintains.rewired`,
  `Maintains.erased` and the like.
-/

namespace Scalarize

/-- `m'` is the memory of one node of the entries of `m`. -/
structure Memory.NarrowedTo (m : Memory) (s : Stop) (m' : Memory) : Prop where
  name : m'.decl.name = m.decl.name.map (· ++ s.suffix)
  dataType : m'.dataType = s.ty
  depth : m'.depth = m.depth
  readLatency : m'.readLatency = m.readLatency
  writeLatency : m'.writeLatency = m.writeLatency
  ruw : m'.ruw = m.ruw
  ports : m'.ports.map (fun p => (p.name, p.kind)) = m.ports.map fun p => (p.name, p.kind)

namespace Memory

variable {m m' m'' : Memory} {s : Stop} {ℓ p q : List Nat} {σ : String} {turned : Bool} {c t : Ty} {part : Part} {f : Face}

theorem NarrowedTo.refl (m : Memory) : m.NarrowedTo (.whole m.dataType) m := by
  constructor <;> simp [Stop.whole]

/-- The memory of a part. -/
theorem NarrowedTo.narrow (h : m.NarrowedTo ⟨ℓ, σ, turned, c⟩ m') :
    Ends False (m'.narrow part) fun m'' =>
      m.NarrowedTo ⟨ℓ ++ [part.index], σ ++ part.suffix, turned ^^ part.flip, part.ty⟩ m'' := by
  unfold Memory.narrow
  refine Ends.bind (Ends.mapM (fun (p p' : MemPort) => p'.name = p.name ∧ p'.kind = p.kind) m'.ports fun p _ => ?_) ?_
  · exact Ends.bind (P := fun _ => True) (.intro (fun _ _ => trivial) nofun) fun _ _ => .pure ⟨rfl, rfl⟩
  intro ports hports
  refine .pure ⟨?_, rfl, h.depth, h.readLatency, h.writeLatency, h.ruw, ?_⟩
  · simp [Decl.extendName, h.name, Function.comp_def, String.append_assoc]
  · rw [← h.ports, ← List.forall₂_eq_eq_eq, List.forall₂_map_left_iff, List.forall₂_map_right_iff]
    exact hports.flip.imp fun _ _ hp => by rw [hp.1, hp.2]

theorem NarrowedTo.getElem? (h : m.NarrowedTo s m') {i : Nat} {port' : MemPort} (hp : m'.ports[i]? = some port') :
    ∃ port, m.ports[i]? = some port ∧ port.kind = port'.kind := by
  have := congrArg (·[i]?) h.ports
  simp only [List.getElem?_map, hp, Option.map_some] at this
  obtain ⟨port, hport, he⟩ := Option.map_eq_some_iff.1 this.symm
  exact ⟨port, hport, (Prod.mk.inj he).2⟩

theorem nodeTy?_append (m : Memory) (f : Face) (p q : List Nat) :
    m.nodeTy? f (p ++ q) = (m.nodeTy? f p).bind (·.sub? q) := by
  unfold nodeTy?
  cases m.dataType.sub? f.entry with
  | none => rfl
  | some data =>
    cases m.ports[f.port]? with
    | none => rfl
    | some port => exact Ty.sub?_append _ p q

/-- The port of the memory of one node. -/
theorem NarrowedTo.nodeTy?_port (h : m.NarrowedTo ⟨ℓ, σ, turned, c⟩ m') (hc : m.dataType.sub? ℓ = some c) {i : Nat}
    {port : MemPort} (hp : m'.ports[i]? = some port) : m.nodeTy? ⟨ℓ, i⟩ [] = some (portType m'.depth m'.dataType port.kind) := by
  obtain ⟨port₀, hp₀, hk⟩ := h.getElem? hp
  simp [nodeTy?, hc, hp₀, hk, h.depth, h.dataType, Ty.sub?]

end Memory

open Body Lower

/-- Wires and memories. -/
def OpKind.isSource : OpKind → Bool
  | wire _ | mem _ => true
  | _ => false

theorem OpKind.isAccessor_of_isSource {kind : OpKind} (h : kind.isSource = true) : kind.isAccessor = false := by
  cases kind <;> first | rfl | cases h

theorem OpKind.fixedIndex?_of_isSource {kind : OpKind} (h : kind.isSource = true) : kind.fixedIndex? = none := by
  cases kind <;> first | rfl | cases h

/-- The results of the operation stand for the ports of the memory of the node at the end of `ℓ`. -/
def Operation.Ports (op : Operation) (ℓ : List Nat) (v : ValueId) (f : Face) (p : List Nat) : Prop :=
  ∃ i, op.results[i]? = some v ∧ f = ⟨ℓ, i⟩ ∧ p = []

namespace Body

variable {m : Memory} {R R' R'' Q : ValueId → Face → List Nat → Prop} {b b' b'' : Body} {x y : OpId} {v u w : ValueId}
  {f : Face} {p q : List Nat} {P P' E : OpId → Prop} {ss : List Memory.Share} {t : Ty} {done done' : Prop}

/-! ## Pieces -/

/-- The shares of `m` for which an operation stands. Fixed accessors and what is erased stand for nothing, and what is
done stands for one share at most. -/
inductive Piece (m : Memory) (R : ValueId → Face → List Nat → Prop) (b : Body) (done : Prop) (x : OpId) :
    List Memory.Share → Prop
  | store {op : Operation} {ℓ : List Nat} {σ : String} {turned : Bool} {c : Ty} {m' : Memory} (hop : b.op? x = some op)
      (he : op.erased = false) (hk : op.kind = .mem m') (hn : m.NarrowedTo ⟨ℓ, σ, turned, c⟩ m')
      (hc : m.dataType.sub? ℓ = some c) (hR : ∀ i v, op.results[i]? = some v → R v ⟨ℓ, i⟩ [])
      (hdone : done → c.isGround) : Piece m R b done x (m.shares ℓ σ turned c)
  | wire {op : Operation} {d : Decl} {f : Face} {p : List Nat} {c t : Ty} {u : ValueId} (hop : b.op? x = some op)
      (he : op.erased = false) (hk : op.kind = .wire d) (hres : op.results = [u]) (hR : R u f p)
      (hc : m.dataType.sub? f.entry = some c) (hg : c.isGround = false) (ht : m.nodeTy? f p = some t)
      (hdone : done → t.isGround) : Piece m R b done x (t.leaves.map fun l => .wire f (p ++ l.path))
  | link {op : Operation} {inner outer : Face} {p q : List Nat} {flip : Bool} {t : Ty} {a d : ValueId}
      (hop : b.op? x = some op) (he : op.erased = false) (hk : op.kind = .connect true)
      (ht : m.nodeTy? inner p = some t) (ht' : m.nodeTy? outer q = some t) (hpassive : t.passive)
      (ha : b.Slot x (if flip then 1 else 0) a) (hia : b.Denotes R a inner p)
      (hd : b.Slot x (if flip then 0 else 1) d) (hod : b.Denotes R d outer q) (hdone : done → t.isGround) :
      Piece m R b done x (t.leaves.map fun l => .link inner (p ++ l.path) outer (q ++ l.path) flip)
  | none {op : Operation} (hop : b.op? x = some op) (hk : op.kind.blocks = [])
      (h : op.erased = true ∨ op.kind.fixedIndex?.isSome) : Piece m R b done x []

/-- What stands for shares is known, and guards nothing. -/
theorem Piece.exists_op (h : Piece m R b done x ss) : ∃ op, b.op? x = some op ∧ op.kind.blocks = [] := by
  cases h with
  | store hop _ hk => exact ⟨_, hop, by rw [hk]; rfl⟩
  | wire hop _ hk => exact ⟨_, hop, by rw [hk]; rfl⟩
  | link hop _ hk => exact ⟨_, hop, by rw [hk]; rfl⟩
  | none hop hk => exact ⟨_, hop, hk⟩

/-- What is erased stands for nothing. -/
theorem Piece.eq_nil {op : Operation} (h : Piece m R b done x ss) (hop : b.op? x = some op) (he : op.erased = true) :
    ss = [] := by
  cases h with
  | store hop' he' | wire hop' he' | link hop' he' =>
    rw [Option.some.inj (hop.symm.trans hop'), he'] at he
    cases he
  | none => rfl

/-- A memory that stands and is done holds leaves. -/
theorem Piece.isGround_of_mem {op : Operation} {m' : Memory} (h : Piece m R b True x ss) (hop : b.op? x = some op)
    (he : op.erased = false) (hk : op.kind = .mem m') : m'.dataType.isGround := by
  cases h with
  | store hop' _ hk' hn _ _ hdone =>
    rw [Option.some.inj (hop.symm.trans hop'), hk', OpKind.mem.injEq] at hk
    rw [← hk, hn.dataType]
    exact hdone trivial
  | wire hop' _ hk' | link hop' _ hk' =>
    rw [Option.some.inj (hop.symm.trans hop'), hk'] at hk
    cases hk
  | none hop' _ h =>
    obtain rfl := Option.some.inj (hop.symm.trans hop')
    rw [he, hk] at h
    rcases h with h | h <;> cases h

/-! ## Roots -/

/-- The values that stand for nodes of ports of `m` are made by wires and memories among `P`, which stand. -/
structure Roots (m : Memory) (b : Body) (R : ValueId → Face → List Nat → Prop) (P : OpId → Prop) : Prop where
  typed : ∀ {v f p}, R v f p → ∃ t, m.nodeTy? f p = some t ∧ b.ty? v = some t
  made : ∀ {v f p}, R v f p → ∃ y i op, P y ∧ b.origin? v = some (.result y i) ∧ b.op? y = some op ∧
    op.erased = false ∧ op.kind.isSource = true ∧ op.operands = []
  unique : ∀ {v f p f' p'}, R v f p → R v f' p' → f = f' ∧ p = p'

namespace Roots

theorem mono (h : Roots m b R P) (hP : ∀ y, P y → P' y) : Roots m b R P' where
  typed := h.typed
  made hv := by
    obtain ⟨y, i, op, hy, hrest⟩ := h.made hv
    exact ⟨y, i, op, hP y hy, hrest⟩
  unique := h.unique

theorem primary (h : Roots m b R P) (hv : R v f p) : b.Primary v := fun z i op ho hop => by
  obtain ⟨y, j, op', -, ho', hop', -, hk, -⟩ := h.made hv
  obtain ⟨rfl, -⟩ := Origin.result.inj (Option.some.inj (ho.symm.trans ho'))
  rw [Option.some.inj (hop.symm.trans hop'), OpKind.fixedIndex?_of_isSource hk]

theorem isSome (h : Roots m b R P) (hv : R v f p) : (b.value? v).isSome := by
  obtain ⟨y, i, op, -, ho, -⟩ := h.made hv
  exact isSome_of_origin? ho

/-- A value that stands for a node has its type. -/
theorem denotes_ty? (h : Roots m b R P) (hu : b.Denotes R u f q) : ∃ t, m.nodeTy? f q = some t ∧ b.ty? u = some t := by
  obtain ⟨a, p₀, p, ha, hat, rfl⟩ := hu
  obtain ⟨s, hs, hty⟩ := h.typed ha
  obtain ⟨t, ht, hut⟩ := hat.ty? hty
  exact ⟨t, by rw [m.nodeTy?_append, hs, Option.bind_some, ht], hut⟩

/-- It is reached without computed accesses. -/
theorem denotes_static (h : Roots m b R P) (hb : b.Coherent) (hu : b.Denotes R u f q) : b.Static u := by
  obtain ⟨a, p₀, p, ha, hat, -⟩ := hu
  obtain ⟨y, i, op, -, ho, hop, -, hk, -⟩ := h.made ha
  exact (Static.result ho hop (OpKind.isAccessor_of_isSource hk)).at hb hat

/-- It stands for one node. -/
theorem denotes_unique (h : Roots m b R P) (hb : b.Coherent) {f' : Face} (hu : b.Denotes R u f p) (hu' : b.Denotes R u f' q) :
    f = f' ∧ p = q := by
  obtain ⟨a, p₀, p₁, ha, hat, rfl⟩ := hu
  obtain ⟨a', q₀, q₁, ha', hat', rfl⟩ := hu'
  obtain ⟨rfl, rfl⟩ := hat.unique_of_primary hat' hb (h.primary ha) (h.primary ha')
  obtain ⟨rfl, rfl⟩ := h.unique ha ha'
  exact ⟨rfl, rfl⟩

/-- The ports of a memory stand for themselves. -/
theorem ports {op : Operation} {m' : Memory} {ℓ : List Nat} {σ : String} {turned : Bool} {c : Ty} (hb : b.Coherent)
    (hop : b.op? y = some op) (he : op.erased = false) (hk : op.kind = .mem m') (hops : op.operands = [])
    (htypes : b.Types op.results m'.portTypes) (hn : m.NarrowedTo ⟨ℓ, σ, turned, c⟩ m') (hc : m.dataType.sub? ℓ = some c) :
    Roots m b (op.Ports ℓ) (· = y) where
  typed := by
    rintro v f p ⟨i, hv, rfl, rfl⟩
    obtain ⟨t, ht, hty⟩ := htypes.getElem? hv
    rw [Memory.portTypes, List.getElem?_map] at ht
    obtain ⟨port, hp, rfl⟩ := Option.map_eq_some_iff.1 ht
    exact ⟨_, hn.nodeTy?_port hc hp, hty⟩
  made := by
    rintro v f p ⟨i, hv, rfl, rfl⟩
    exact ⟨y, i, op, rfl, hb.result hop hv, hop, he, by rw [hk]; rfl, hops⟩
  unique := by
    rintro v f p f' p' ⟨i, hv, rfl, rfl⟩ ⟨j, hv', rfl, rfl⟩
    obtain ⟨-, rfl⟩ := Origin.result.inj (Option.some.inj ((hb.result hop hv).symm.trans (hb.result hop hv')))
    exact ⟨rfl, rfl⟩

/-- More values may stand for nodes. -/
theorem extended (h : Roots m b R P) (hQ : Roots m b Q P) (hne : ∀ {v f p f' p'}, R v f p → ¬Q v f' p') :
    Roots m b (fun v f p => R v f p ∨ Q v f p) P where
  typed hv := hv.elim h.typed hQ.typed
  made hv := hv.elim h.made hQ.made
  unique := by
    rintro v f p f' p' (hv | hv) (hv' | hv')
    · exact h.unique hv hv'
    · exact absurd hv' (hne hv)
    · exact absurd hv (hne hv')
    · exact hQ.unique hv hv'

end Roots

/-! ## Edits -/

/-- Operations keep what they are, of those that are no accessors only such in `E` are erased or begin to read, and
readers are handed over. Values whose makers are not in `E` go on standing for nodes. -/
structure Maintains (R : ValueId → Face → List Nat → Prop) (b : Body) (R' : ValueId → Face → List Nat → Prop) (b' : Body)
    (E : OpId → Prop) : Prop where
  edited : b.Edited b'
  spares : ∀ {y op op'}, ¬E y → b.op? y = some op → b'.op? y = some op' → op.kind.isAccessor = false →
    op'.erased = op.erased
  bare : ∀ {y op op'}, ¬E y → b.op? y = some op → op.kind.isAccessor = false → op.erased = false → op.operands = [] →
    b'.op? y = some op' → op'.operands = []
  hands : Hands R b R' b'
  keeps : ∀ {v f p y i}, R v f p → b.origin? v = some (.result y i) → ¬E y → R' v f p

namespace Maintains

theorem refl (hb : b.Coherent) (R : ValueId → Face → List Nat → Prop) (E : OpId → Prop) : Maintains R b R b E where
  edited := .refl hb
  spares _ hop hop' _ := by rw [Option.some.inj (hop.symm.trans hop')]
  bare _ hop _ _ hops hop' := by rw [← Option.some.inj (hop.symm.trans hop'), hops]
  hands := .refl R b
  keeps hv _ _ := hv

theorem trans {E' E'' : OpId → Prop} (h : Maintains R b R' b' E) (h' : Maintains R' b' R'' b'' E') (hb : b.Coherent)
    (hE : ∀ {y}, E y → E'' y) (hE' : ∀ {y}, E' y → E'' y) : Maintains R b R'' b'' E'' where
  edited := h.edited.trans h'.edited
  spares {y op op''} hy hop hop'' hacc := by
    obtain ⟨op', hop', hk, -⟩ := h.edited.op? hop
    rw [h'.spares (hy ∘ hE') hop' hop'' (hk ▸ hacc), h.spares (hy ∘ hE) hop hop' hacc]
  bare hy hop hacc he hops hop'' := by
    obtain ⟨op', hop', hk, -⟩ := h.edited.op? hop
    exact h'.bare (hy ∘ hE') hop' (hk ▸ hacc) ((h.spares (hy ∘ hE) hop hop' hacc).trans he)
      (h.bare (hy ∘ hE) hop hacc he hops hop') hop''
  hands := h.hands.trans h'.hands fun hx => by
    obtain ⟨op, hop⟩ := Option.isSome_iff_exists.1 hx
    obtain ⟨op', hop', -⟩ := h.edited.op? hop
    rw [hop']
    rfl
  keeps hv ho hy := h'.keeps (h.keeps hv ho (hy ∘ hE)) (h.edited.origin?_result hb ho) (hy ∘ hE')

theorem mono {E' : OpId → Prop} (h : Maintains R b R' b' E) (hE : ∀ {y}, E y → E' y) : Maintains R b R' b' E' where
  edited := h.edited
  spares hy := h.spares (hy ∘ hE)
  bare hy := h.bare (hy ∘ hE)
  hands := h.hands
  keeps hv ho hy := h.keeps hv ho (hy ∘ hE)

/-- New operations are made, and their declarations may change. -/
theorem added {V : ValueId → Prop} {b₀ : Body} {o : OpId} {k : BlockId} {A B M N : List OpId} {s : Builder}
    (h : Added V b₀ o k A B M b N s) (hR : ∀ {v f p}, R v f p → R' v f p) : Maintains R b R' s.body E where
  edited :=
    { coherent := h.placed.coherent
      op? := fun hop => ⟨_, h.kept hop, rfl, rfl, rfl, id⟩
      ty? := h.ext.ty?_some }
  spares _ hop hop' _ := by rw [Option.some.inj ((h.kept hop).symm.trans hop')]
  bare _ hop _ _ hops hop' := by rw [← Option.some.inj ((h.kept hop).symm.trans hop'), hops]
  hands := .grown h.ext fun _ _ => hR
  keeps hv _ _ := hR hv

/-- A value gives way to one that stands for the same nodes. -/
theorem replaced (hb : b.Coherent) (hb' : b'.Coherent) (hr : Replaced b v w b') (hv : b.Primary v)
    (hty : b.ty? w = b.ty? v) (hR : ∀ {f p}, R v f p → R w f p) : Maintains R b R b' E where
  edited := .outlives (.refl hb) hb' hr.outlives
  spares _ hop hop' _ := by rw [hr.op?, hop] at hop'; rw [← Option.some.inj hop']
  bare _ hop _ _ hops hop' := by
    rw [hr.op?, hop, Option.map_some, hops] at hop'
    rw [← Option.some.inj hop']
    rfl
  hands := .replaced hb hr hv hty fun {a k p} ha => by
    split
    next he => exact hR (he ▸ ha)
    next => exact ha
  keeps hv _ _ := hv

/-- The readers of a value give way to the values of its parts. -/
theorem rewired (hr : Rearranged b b') (hh : Hands R b R b') : Maintains R b R b' E where
  edited := hr.edited
  spares _ hop hop' hacc := by
    obtain ⟨op₁, hop₁, -, -, -, -, he⟩ := hr.op? hop
    rw [Option.some.inj (hop'.symm.trans hop₁), he hacc]
  bare _ hop _ _ hops hop' := hr.bare hop hops hop'
  hands := hh
  keeps hv _ _ := hv

/-- An operation is erased; what it made stands for nothing any more. -/
theorem erased (hb : b.Coherent) (he : Erased b x b') :
    Maintains R b (fun v f p => R v f p ∧ ∀ i, b.origin? v ≠ some (.result x i)) b' (· = x) where
  edited := .outlives (.refl hb) (he.coherent hb) he.outlives
  spares hE hop hop' _ := by
    rw [he.op?, hop, Option.map_some, if_neg hE] at hop'
    rw [← Option.some.inj hop']
  bare hE hop _ _ hops hop' := by
    rw [he.op?, hop, Option.map_some, if_neg hE] at hop'
    rw [← Option.some.inj hop', hops]
  hands := .erased hb he fun ha hx => ⟨ha, hx⟩
  keeps hv ho hE := ⟨hv, fun i hi => hE (Origin.result.inj (Option.some.inj (ho.symm.trans hi))).1⟩

end Maintains

/-- Roots that are left are roots still. -/
theorem Roots.carried (h : Roots m b R P) (hb : b.Coherent) (hc : Maintains R b R' b' E)
    (hR : ∀ {v f p}, R' v f p → R v f p ∧ ∀ y i, b.origin? v = some (.result y i) → ¬E y) : Roots m b' R' P where
  typed hv := by
    obtain ⟨t, ht, hty⟩ := h.typed (hR hv).1
    exact ⟨t, ht, hc.edited.ty? hty⟩
  made {v f p} hv := by
    obtain ⟨hv, hE⟩ := hR hv
    obtain ⟨y, i, op, hy, ho, hop, he, hk, hops⟩ := h.made hv
    obtain ⟨op', hop', hk', -⟩ := hc.edited.op? hop
    have hacc := OpKind.isAccessor_of_isSource hk
    refine ⟨y, i, op', hy, hc.edited.origin?_result hb ho, hop', ?_, by rw [hk', hk],
      hc.bare (hE y i ho) hop hacc he hops hop'⟩
    rw [hc.spares (hE y i ho) hop hop' hacc, he]
  unique hv hv' := h.unique (hR hv).1 (hR hv').1

/-- What is not erased goes on standing for what it stood for. -/
theorem Piece.carried (h : Piece m R b done x ss) (hb : b.Coherent) (hc : Maintains R b R' b' E) (hx : ¬E x)
    (hdone : done' → done) : Piece m R' b' done' x ss := by
  have hop' : ∀ {op}, b.op? x = some op → op.erased = false → op.kind.isAccessor = false →
      ∃ op', b'.op? x = some op' ∧ op'.kind = op.kind ∧ op'.results = op.results ∧ op'.erased = false :=
    fun {op} hop he hacc => by
      obtain ⟨op', hop', hk, hr, -⟩ := hc.edited.op? hop
      exact ⟨op', hop', hk, hr, (hc.spares hx hop hop' hacc).trans he⟩
  cases h with
  | store hop he hk hn hsub hR hg =>
    obtain ⟨op', hop', hk', hr', he'⟩ := hop' hop he (by rw [hk]; rfl)
    refine .store hop' he' (hk'.trans hk) hn hsub (fun i v hv => ?_) (hg ∘ hdone)
    rw [hr'] at hv
    exact hc.keeps (hR i v hv) (hb.result hop hv) hx
  | wire hop he hk hres hR hsub hg ht hleaf =>
    obtain ⟨op', hop', hk', hr', he'⟩ := hop' hop he (by rw [hk]; rfl)
    exact .wire hop' he' (hk'.trans hk) (hr'.trans hres) (hc.keeps hR (hb.result hop (i := 0) (by rw [hres]; rfl)) hx) hsub
      hg ht (hleaf ∘ hdone)
  | link hop he hk ht ht' hpassive ha hia hd hod hg =>
    obtain ⟨op', hop', hk', -, he'⟩ := hop' hop he (by rw [hk]; rfl)
    have hs : b'.stands x := by rw [stands_eq, hop']; simp [he']
    obtain ⟨a', ha', hia'⟩ := hc.hands.slot hs ha hia
    obtain ⟨d', hd', hod'⟩ := hc.hands.slot hs hd hod
    exact .link hop' he' (hk'.trans hk) ht ht' hpassive ha' hia' hd' hod' (hg ∘ hdone)
  | none hop hk h =>
    obtain ⟨op', hop', hk', -, -, he'⟩ := hc.edited.op? hop
    exact .none hop' (by rw [hk', hk]) (h.imp he' fun hfix => by rw [hk', hfix])

end Body

end Scalarize
