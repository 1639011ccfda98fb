import Scalarize.Proofs.Distribution.Layers
import Scalarize.Proofs.Steady

/-!
# Memories that are shared out

A memory of aggregates gives way to a wire for each port, a memory for each part of its entries, and connections between
them.

* `Dealt.accessed`, `Dealt.linked_runs`, `Dealt.stored_runs` : an accessor of a node, a connection of two nodes and the
  memory of a part are made;
* `Dealt.portWires_runs`, `Dealt.joinField_runs` : the wires for the ports, and the connections of one field;
* `Piece.store_runs` : what is made stands for all that the memory is shared out into;
* `Piece.step_runs` : whatever stands for shares is lowered by one layer.
-/

namespace Scalarize

open Body Lower

theorem Ty.passive_sub {t c : Ty} {q : List Nat} (h : t.passive) (hc : t.sub? q = some c) : c.passive := by
  induction q generalizing t with
  | nil => exact Option.some.inj hc ▸ h
  | cons i q ih =>
    obtain ⟨e, he, hc⟩ := Option.bind_eq_some_iff.1 hc
    exact ih (Ty.passive_child h he) hc

/-- The positions of the parts. -/
theorem Ty.PartsOf.map_index {t : Ty} {ps : List Part} (h : t.PartsOf ps) :
    ps.map (·.index) = List.range t.children.length := by
  refine List.ext_getElem (by rw [List.length_map, List.length_range, ← h.map_ty, List.length_map]) fun i h₁ h₂ => ?_
  rw [List.getElem_map, List.getElem_range, h.index (List.getElem?_eq_getElem _)]

namespace Memory

variable {m m' : Memory} {s : Stop} {ℓ : List Nat} {σ : String} {turned : Bool} {c : Ty}

/-- The symbol is left open. -/
theorem NarrowedTo.signed (h : m.NarrowedTo s m') (sym : Option String) :
    m.NarrowedTo s { m' with decl := { m'.decl with sym } } :=
  ⟨h.name, h.dataType, h.depth, h.readLatency, h.writeLatency, h.ruw, h.ports⟩

/-- What is said of the ports by their positions and kinds holds of a memory and of the one for a node of its entries. -/
theorem NarrowedTo.flatMap_ports {α : Type} (h : m.NarrowedTo s m') (g : PortKind → Nat → List α) :
    (m.ports.zipIdx.flatMap fun (p, i) => g p.kind i) = m'.ports.zipIdx.flatMap fun (p, i) => g p.kind i := by
  have hkinds : m'.ports.map (·.kind) = m.ports.map (·.kind) := by
    simpa [List.map_map, Function.comp_def] using congrArg (List.map Prod.snd) h.ports
  have hzip : ∀ ports : List MemPort, (ports.zipIdx.flatMap fun (p, i) => g p.kind i) =
      (ports.map (·.kind)).zipIdx.flatMap fun (k, i) => g k i := fun ports => by
    rw [List.zipIdx_map, List.flatMap_map]
    rfl
  rw [hzip, hzip, hkinds]

/-- All connections, port by port. -/
theorem NarrowedTo.links_eq {α : Type} {ws : List α} (h : m.NarrowedTo ⟨ℓ, σ, turned, c⟩ m')
    (hlen : ws.length = m'.ports.length) :
    m.links ℓ c = (ws.zip m'.ports).zipIdx.flatMap fun e => (portFields m'.depth m'.dataType e.1.2.kind).zipIdx.flatMap
      fun fe => fieldLinks ℓ e.2 fe.1 fe.2 (List.range c.children.length) := by
  have hports : m'.ports = (ws.zip m'.ports).map Prod.snd := (List.map_snd_zip (Nat.le_of_eq hlen.symm)).symm
  have hlinks : m.links ℓ c = m'.ports.zipIdx.flatMap fun e => (portFields m'.depth m'.dataType e.1.kind).zipIdx.flatMap
      fun fe => fieldLinks ℓ e.2 fe.1 fe.2 (List.range c.children.length) := by
    rw [h.depth, h.dataType]
    exact h.flatMap_ports fun kind i => (portFields m.depth c kind).zipIdx.flatMap fun fe =>
      fieldLinks ℓ i fe.1 fe.2 (List.range c.children.length)
  rw [hlinks]
  nth_rewrite 1 [hports]
  rw [List.zipIdx_map, List.flatMap_map]
  rfl

end Memory

namespace Body

variable {m m' : Memory} {R R' Q : ValueId → Face → List Nat → Prop} {b b' : Body} {s s' : Builder} {x o : OpId} {k : BlockId}
  {A B N M : List OpId} {P : OpId → Prop} {V : ValueId → Prop} {ss ss' : List Memory.Share} {u v w a d : ValueId} {f : Face}
  {p q ℓ : List Nat} {c t : Ty} {i j pos : Nat} {inner outer : Face} {flip turned : Bool} {t₀ t₁ : LowerState} {cx : Context}
  {σ : String} {part : Part} {ps : List Part}

/-- The operation has a value for each port of the memory of one node. -/
def HasPorts (m : Memory) (R : ValueId → Face → List Nat → Prop) (b : Body) (y : OpId) (ℓ : List Nat) : Prop :=
  ∃ op, b.op? y = some op ∧ ∀ i, i < m.ports.length → ∃ v, op.results[i]? = some v ∧ R v ⟨ℓ, i⟩ []

theorem HasPorts.mono {y : OpId} (h : HasPorts m R b y ℓ) (hb : Extends b b') (hR : ∀ {v f p}, R v f p → R' v f p) :
    HasPorts m R' b' y ℓ := by
  obtain ⟨op, hop, hports⟩ := h
  obtain ⟨op', hop', -, -, hres, -⟩ := hb.op? hop
  refine ⟨op', hop', fun i hi => ?_⟩
  obtain ⟨v, hv, hR'⟩ := hports i hi
  exact ⟨v, by rw [hres, hv], hR hR'⟩

namespace Dealt

/-- An accessor of a node is made. -/
theorem accessed (h : Dealt m R b x k A B P (fun _ => False) R' N ss s)
    (hnew : Grows.NewPart (Added V b x k A B N s.body) [] s v i w s') (hv : s.body.Denotes R' v f q) :
    ∃ y, Dealt m R b x k A B P (fun _ => False) R' (N ++ [y]) ss s' ∧ Extends s.body s'.body ∧
      s'.body.Denotes R' w f (q ++ [i]) := by
  obtain ⟨y, hg, -, hpart, hy⟩ := hnew.accessor
  obtain ⟨kind, j, v', w', hk, hmk⟩ := hy y (List.mem_singleton_self y)
  have hmade := h.made hg.holds (.single (.of_accessor hk hmk))
  rw [List.append_nil] at hmade
  exact ⟨y, hmade, hg.body, (hv.mono hg.body id).below hpart⟩

/-- Two nodes of one type are connected. -/
theorem linked_runs (h : Dealt m R b x k A B P (fun _ => False) R' N ss s) (flip : Bool) (ht : m.nodeTy? inner p = some t)
    (ht' : m.nodeTy? outer q = some t) (hpassive : t.passive) (ha : s.body.Denotes R' a inner p)
    (hd : s.body.Denotes R' d outer q) :
    Runs False (Build.connect true (if flip then d else a) (if flip then a else d)) s fun _ s' => ∃ y,
      Dealt m R b x k A B P (fun _ => False) R' (N ++ [y])
        (ss ++ t.leaves.map fun l => .link inner (p ++ l.path) outer (q ++ l.path) flip) s' ∧ Extends s.body s'.body := by
  obtain ⟨ta, -, hta⟩ := h.roots.denotes_ty? ha
  obtain ⟨td, -, htd⟩ := h.roots.denotes_ty? hd
  have hins : ∃ t₁ t₂, s.body.Types [if flip then d else a, if flip then a else d] [t₁, t₂] := by
    cases flip with
    | true => exact ⟨td, ta, .cons htd (.cons hta .nil)⟩
    | false => exact ⟨ta, td, .cons hta (.cons htd .nil)⟩
  obtain ⟨t₁, t₂, hins⟩ := hins
  have hgrows := Added.grows (fun _ => True) b x k A B N s.body
  have hk : (OpKind.connect true).blocks = [] := rfl
  refine (hgrows.create_runs (.start h.placed) hk (fun _ _ => .inl trivial) hins
    ⟨t₁, t₂, rfl, rfl⟩ trivial).mono fun y s' ⟨hg, ⟨op, hop, hbare, hops, _, he⟩, _⟩ => ⟨y, ?_, hg.body⟩
  refine h.made hg.holds (.single (.link hop he (OpKind.eq_of_bare_eq hbare.symm rfl).symm ht ht' hpassive
    (a := a) (d := d) ?_ (ha.mono hg.body id) ?_ (hd.mono hg.body id) False.elim))
  · exact ⟨op, hop, by rw [hops]; cases flip <;> rfl⟩
  · exact ⟨op, hop, by rw [hops]; cases flip <;> rfl⟩

/-- The memory of a part is made. -/
theorem stored_runs (h : Dealt m R b x k A B P (fun _ => False) R' N ss t₁.builder) (hn : m.NarrowedTo ⟨ℓ, σ, turned, c⟩ m')
    (hc : m.dataType.sub? (ℓ ++ [part.index]) = some part.ty) :
    Runs False (narrowMemory m' part) t₁ fun y t' => ∃ R'',
      Dealt m R b x k A B P (fun _ => False) R'' (N ++ [y])
        (ss ++ m.shares (ℓ ++ [part.index]) (σ ++ part.suffix) (turned ^^ part.flip) part.ty) t'.builder ∧
      Extends t₁.builder.body t'.builder.body ∧ (∀ {v f p}, R' v f p → R'' v f p) ∧
      HasPorts m R'' t'.builder.body y (ℓ ++ [part.index]) := by
  have hgrows := Added.grows (fun _ => True) b x k A B N t₁.builder.body
  -- whatever the symbol, this is the memory of the part
  have hend : ∀ {m'' : Memory} {y : OpId} {s : Builder},
      m.NarrowedTo ⟨ℓ ++ [part.index], σ ++ part.suffix, turned ^^ part.flip, part.ty⟩ m'' →
      Added (fun _ => True) b x k A B N t₁.builder.body [y] s → (∃ op, s.body.op? y = some op ∧ op.kind = .mem m'' ∧
        op.operands = [] ∧ op.erased = false ∧ s.body.Types op.results m''.portTypes) →
      ∃ R'', Dealt m R b x k A B P (fun _ => False) R'' (N ++ [y])
        (ss ++ m.shares (ℓ ++ [part.index]) (σ ++ part.suffix) (turned ^^ part.flip) part.ty) s ∧
        Extends t₁.builder.body s.body ∧ (∀ {v f p}, R' v f p → R'' v f p) ∧
        HasPorts m R'' s.body y (ℓ ++ [part.index]) := by
    rintro m'' y s hn'' ha ⟨op, hop, hk, hops, he, htypes⟩
    have hports : Roots m s.body (op.Ports (ℓ ++ [part.index])) (· = y) :=
      .ports ha.placed.coherent hop he hk hops htypes hn'' hc
    refine ⟨_, h.rooted ha (hports.mono fun z hz => by simp [hz])
      (.single (.store hop he hk hn'' hc (fun i v hv => .inr ⟨i, hv, rfl, rfl⟩) False.elim)), ha.ext, .inl, op, hop,
      fun i hi => ?_⟩
    have hlt : i < op.results.length := by
      rw [htypes.length_eq, Memory.portTypes, List.length_map]
      have := congrArg List.length hn''.ports
      simp only [List.length_map] at this
      rwa [this]
    exact ⟨_, List.getElem?_eq_getElem hlt, .inr ⟨i, List.getElem?_eq_getElem hlt, rfl, rfl⟩⟩
  unfold narrowMemory
  refine Runs.bind_except hn.narrow fun m'' hn'' => ?_
  have hk : (OpKind.mem m'').blocks = [] := rfl
  refine Runs.bind_build (hgrows.created_runs (.start h.placed) hk (by simp) .nil ⟨rfl, rfl⟩ trivial) ?_
  rintro y s ⟨ha, hcr⟩
  have hop := hcr.op?_self
  split
  next base _ =>
    refine (Runs.mint (Q := fun _ t' => t'.builder = s) rfl).bind ?_
    rintro sym t' rfl
    refine Runs.bind_change (P := (t'.builder.body.modifyDecl y _ = ·)) (.ok rfl) ?_
    rintro _ rfl
    refine .pure (hend (hn''.signed (some sym))
      (hgrows.declare ha (List.mem_singleton_self y) fun _ _ _ _ => trivial) ?_)
    have hop' := op?_modifyDecl t'.builder.body y (fun d => { d with sym := some sym }) y
    rw [hop, Option.map_some, if_pos rfl] at hop'
    exact ⟨_, hop', rfl, rfl, rfl, hcr.types_results⟩
  next => exact .pure (hend hn'' ha ⟨_, hop, rfl, rfl, rfl, hcr.types_results⟩)

/-- A field of a port of a memory. -/
theorem bind_field {y₀ : Symbols} (h : Dealt m R b x k A B P (fun _ => False) R' N ss s)
    (ho : HasPorts m R' s.body o ℓ)
    (hi : i < m.ports.length) {α : Type} {g : ValueId → Lower α} {K : α → LowerState → Prop}
    (hg : ∀ {y w s'}, Dealt m R b x k A B P (fun _ => False) R' (N ++ [y]) ss s' → Extends s.body s'.body →
      s'.body.Denotes R' w ⟨ℓ, i⟩ [pos] → Runs False (g w) ⟨s', y₀⟩ K) :
    Runs False (do
      let newPort ← body (·.result o i)
      let newField ← Build.subfield newPort pos
      g newField) ⟨s, y₀⟩ K := by
  obtain ⟨op, hop, hports⟩ := ho
  obtain ⟨v, hv, hR⟩ := hports i hi
  refine Body.bind_result hop hv (Runs.bind_build ((Added.grows (fun _ => True) b x k A B N _).subfield_runs (.start h.placed)
    (.inl trivial) (fun _ _ _ _ _ => trivial) nofun) ?_)
  rintro w s' ⟨-, hnew⟩
  obtain ⟨y, hD, hext, hw⟩ := h.accessed hnew ⟨v, [], [], hR, .self, rfl⟩
  exact hg hD hext hw

/-- One field of a port is connected with the memories of all parts. -/
theorem joinField_runs (h : Dealt m R b x k A B P (fun _ => False) R' N ss t₁.builder)
    (hn : m.NarrowedTo ⟨ℓ, σ, turned, c⟩ m') (hc : m.dataType.sub? ℓ = some c) (hpassive : m.dataType.passive)
    (hps : c.PartsOf ps) {port : MemPort} (hport : m'.ports[i]? = some port) {field : Field}
    (hf : (Memory.portFields m'.depth m'.dataType port.kind)[pos]? = some field) (hv : R' v ⟨ℓ, i⟩ [])
    {memories : List (Part × OpId)}
    (hmem : ∀ e ∈ memories, e.1 ∈ ps ∧ HasPorts m R' t₁.builder.body e.2 (ℓ ++ [e.1.index])) :
    Runs False (joinField v i memories field pos) t₁ fun _ t' => ∃ N',
      Dealt m R b x k A B P (fun _ => False) R' N' (ss ++ Memory.fieldLinks ℓ i field pos (memories.map (·.1.index)))
        t'.builder ∧ Extends t₁.builder.body t'.builder.body := by
  obtain ⟨port₀, hport₀, hkind⟩ := hn.getElem? hport
  have hf₀ : (Memory.portFields m.depth c port₀.kind)[pos]? = some field := by
    rw [hkind, ← hn.depth, ← hf, hn.dataType]
  have hi := (List.getElem?_eq_some_iff.1 hport₀).1
  have houter := m.nodeTy?_field hc hport₀ hf₀
  unfold joinField
  refine Runs.bind_build ((Added.grows (fun _ => True) b x k A B N _).subfield_runs (.start h.placed) (.inl trivial)
    (fun _ _ _ _ _ => trivial) nofun) ?_
  rintro whole s₁ ⟨-, hnew⟩
  obtain ⟨y, hD₁, hext₁, hwhole⟩ := h.accessed hnew ⟨v, [], [], hv, .self, rfl⟩
  refine (Runs.forM (fun done (t' : LowerState) => ∃ N', Dealt m R b x k A B P (fun _ => False) R' N'
    (ss ++ Memory.fieldLinks ℓ i field pos (done.map (·.1.index))) t'.builder ∧ Extends s₁.body t'.builder.body) memories
    ⟨_, by simpa [Memory.fieldLinks] using hD₁, .refl _⟩ ?_).mono ?_
  swap
  · rintro - t' ⟨N', hN', hext⟩
    exact ⟨N', hN', hext₁.trans hext⟩
  rintro done ⟨part, d⟩ rest t₂ hl ⟨N₂, hD₂, hext₂⟩
  obtain ⟨hp, hd⟩ := hmem (part, d) (by simp [hl])
  have hj := hps.child_index hp
  have hsub := Ty.sub?_concat hc hj
  have hd₂ := hd.mono (hext₁.trans hext₂) id
  obtain ⟨t, hlink, hf'⟩ := Memory.exists_linkTy? hf₀ hj
  have hinner : m.nodeTy? ⟨ℓ ++ [part.index], i⟩ [pos] = some t := m.nodeTy?_field hsub hport₀ hf'
  have ht : t.passive := Memory.passive_of_portField (Ty.passive_sub hpassive hsub) hf'
  have hss : Memory.fieldLinks ℓ i field pos ((done ++ [(part, d)]).map (·.1.index)) =
      Memory.fieldLinks ℓ i field pos (done.map (·.1.index)) ++
        t.leaves.map fun l => Memory.link ℓ i field pos part.index l.path := by
    simp [Memory.fieldLinks, hlink]
  simp only [hss, ← List.append_assoc]
  split
  next hfollows =>
    rw [Memory.linkTy?, if_pos hfollows] at hlink
    have houter' : m.nodeTy? ⟨ℓ, i⟩ [pos, part.index] = some t := by
      rw [← List.singleton_append, m.nodeTy?_append, houter, Option.bind_some, Ty.sub?, hlink]
      rfl
    refine Runs.bind_build ((Added.grows (fun _ => True) b x k A B N₂ _).part_runs (.start hD₂.placed) (.inl trivial)
      (fun _ _ _ _ _ => trivial) nofun) fun leaf s₃ hnew₃ => ?_
    obtain ⟨z, hD₃, hext₃, hleaf⟩ := hD₂.accessed hnew₃ (hwhole.mono hext₂ id)
    refine hD₃.bind_field (hd₂.mono hext₃ id) hi fun {y₄ w s₄} hD₄ hext₄ hw => ?_
    have hlinked := hD₄.linked_runs field.flip hinner houter' ht hw (hleaf.mono hext₄ id)
    have hname : (t.leaves.map fun l => Memory.link ℓ i field pos part.index l.path) = t.leaves.map fun l =>
        .link ⟨ℓ ++ [part.index], i⟩ ([pos] ++ l.path) ⟨ℓ, i⟩ ([pos, part.index] ++ l.path) field.flip := by
      simp [Memory.link, hfollows]
    rw [hname]
    split
    next hflip =>
      rw [if_pos hflip, if_pos hflip] at hlinked
      refine Runs.bind_build hlinked ?_
      rintro _ s₅ ⟨_, hD₅, hext₅⟩
      exact .pure ⟨_, hD₅, ((hext₂.trans hext₃).trans hext₄).trans hext₅⟩
    next hflip =>
      rw [if_neg hflip, if_neg hflip] at hlinked
      refine Runs.bind_build hlinked ?_
      rintro _ s₅ ⟨_, hD₅, hext₅⟩
      exact .pure ⟨_, hD₅, ((hext₂.trans hext₃).trans hext₄).trans hext₅⟩
  next hfollows =>
    rw [Memory.linkTy?, if_neg hfollows] at hlink
    obtain rfl := Option.some.inj hlink
    refine hD₂.bind_field hd₂ hi fun {y₄ w s₄} hD₄ hext₄ hw => ?_
    have hlinked := hD₄.linked_runs false hinner houter ht hw ((hwhole.mono hext₂ id).mono hext₄ id)
    have hname : (field.ty.leaves.map fun l => Memory.link ℓ i field pos part.index l.path) = field.ty.leaves.map fun l =>
        .link ⟨ℓ ++ [part.index], i⟩ ([pos] ++ l.path) ⟨ℓ, i⟩ ([pos] ++ l.path) false := by
      simp [Memory.link, hfollows]
    rw [hname]
    refine Runs.bind_build hlinked ?_
    rintro _ s₅ ⟨_, hD₅, hext₅⟩
    exact .pure ⟨_, hD₅, (hext₂.trans hext₄).trans hext₅⟩

/-- The readers of a result of the operation that gives way are handed over. -/
theorem handed {op : Operation} (h : Dealt m R b x k A B P (fun _ => False) R' N ss s) (hop : b.op? x = some op)
    (hR : ∀ v, op.results[i]? = some v → R' v f p) (hw : R' w f p) (ho : s.body.origin? w = some (.result o j))
    (hne : o ≠ x) :
    Ends False (s.body.result x i >>= fun v => s.body.replaceAllUses v w) fun b' =>
      Dealt m R b x k A B P (fun _ => False) R' N ss ⟨b', s.point⟩ := by
  obtain ⟨op', hop', -, hres, -⟩ := h.carries.edited.op? hop
  refine (result_ends (Q := fun v => op'.results[i]? = some v) (fun op'' v hop'' hv => ?_) nofun).bind fun v hv => ?_
  · rwa [Option.some.inj (hop'.symm.trans hop'')]
  have hvw : v ≠ w := by
    rintro rfl
    exact hne (Origin.result.inj (Option.some.inj (ho.symm.trans (h.coherent.result hop' hv)))).1
  exact (h.coherent.replaceAllUses_ends hvw nofun).mono fun b' hr => h.replaced hr (hR v (hres ▸ hv)) hw hvw

/-- Each port of a memory becomes a wire. -/
theorem portWires_runs {op : Operation} (h : Dealt m R t₀.builder.body x k A B P (fun _ => False) R [] [] t₀.builder)
    (hop : t₀.builder.body.op? x = some op) (hn : m.NarrowedTo ⟨ℓ, σ, turned, c⟩ m') (hc : m.dataType.sub? ℓ = some c)
    (hg : c.isGround = false) (hR : ∀ i v, op.results[i]? = some v → R v ⟨ℓ, i⟩ []) :
    Runs False (portWires x m') t₀ fun wires t' => ∃ R' N,
      Dealt m R t₀.builder.body x k A B P (fun _ => False) R' N (m.wires ℓ c) t'.builder ∧
      wires.length = m'.ports.length ∧ ∀ i w, wires[i]? = some w → R' w ⟨ℓ, i⟩ [] := by
  unfold portWires
  refine (Runs.mapM (fun done wires (t' : LowerState) => ∃ R' N, Dealt m R t₀.builder.body x k A B P (fun _ => False) R' N
    (done.flatMap fun e => (Memory.portType m'.depth m'.dataType e.1.kind).leaves.map fun l => .wire ⟨ℓ, e.2⟩ l.path)
    t'.builder ∧ (∀ i v, op.results[i]? = some v → R' v ⟨ℓ, i⟩ []) ∧
    List.Forall₂ (fun (e : MemPort × Nat) w => R' w ⟨ℓ, e.2⟩ []) done wires) m'.ports.zipIdx ⟨R, [], h, hR, .nil⟩ ?_).mono ?_
  · rintro done ⟨port, i⟩ rest wires t' hl ⟨R', N, hN, hold, hwires⟩
    have hmem : (port, i) ∈ m'.ports.zipIdx := by rw [hl]; simp
    have hport : m'.ports[i]? = some port := List.mem_zipIdx_iff_getElem?.1 hmem
    have ht := hn.nodeTy?_port hc hport
    have hgrows := Added.grows (fun _ => True) t₀.builder.body x k A B N t'.builder.body
    refine Runs.bind_build (hgrows.create_runs (.start hN.placed) rfl (by simp) .nil ⟨rfl, _, rfl⟩ trivial) ?_
    rintro o s ⟨hgrew, hmk, htys⟩
    obtain ⟨w, hwty, hws⟩ := htys.singleton
    rw [hws] at hmk
    have hwired := hN.wired hgrew.holds hmk hwty ht hc hg
    have horigin := hmk.origin? hwired.coherent (i := 0) rfl
    have hne : o ≠ x := by
      rintro rfl
      rw [hwired.placed.fresh o (by simp)] at hop
      cases hop
    obtain ⟨opo, hopo, -, -, hres, -⟩ := hmk
    refine Body.bind_result (t := ⟨s, t'.symbols⟩) hopo (v := w) (by rw [hres]; rfl) ?_
    refine Runs.bind_change (hwired.handed (i := i) hop (fun v hv => .inl (hold i v hv)) (.inr ⟨rfl, rfl, rfl⟩) horigin hne)
      fun b' hb' => .pure ⟨fun v f p => R' v f p ∨ v = w ∧ f = ⟨ℓ, i⟩ ∧ p = [], N ++ [o], ?_,
        fun j v hv => .inl (hold j v hv), List.rel_append (hwires.imp fun _ _ => .inl) (.cons (.inr ⟨rfl, rfl, rfl⟩) .nil)⟩
    rw [List.flatMap_append, List.flatMap_singleton]
    exact hb'
  · rintro wires t' ⟨R', N, hN, -, hwires⟩
    refine ⟨R', N, ?_, by simpa using hwires.length_eq.symm, fun i w hw => ?_⟩
    · rw [Memory.wires, hn.flatMap_ports fun kind i =>
        (Memory.portType m.depth c kind).leaves.map fun l => Memory.Share.wire ⟨ℓ, i⟩ l.path, ← hn.depth]
      rw [hn.dataType] at hN
      exact hN
    · obtain ⟨h₂, rfl⟩ := List.getElem?_eq_some_iff.1 hw
      have h₁ : i < m'.ports.zipIdx.length := hwires.length_eq ▸ h₂
      simpa using (List.forall₂_iff_get.1 hwires).2 i h₁ h₂

end Dealt

/-- A memory of aggregates gives way to all that it is shared out into. -/
theorem Piece.store_runs {op : Operation} (hb : t₀.builder.body.Coherent) (hr : Roots m t₀.builder.body R P)
    (hs : t₀.builder.body.slotsOf k = A ++ x :: B) (hp : t₀.builder.point = ⟨k, A.length⟩)
    (hop : t₀.builder.body.op? x = some op) (he : op.erased = false) (hk : op.kind = .mem m')
    (hn : m.NarrowedTo ⟨ℓ, σ, turned, c⟩ m') (hc : m.dataType.sub? ℓ = some c) (hpassive : m.dataType.passive)
    (hR : ∀ i v, op.results[i]? = some v → R v ⟨ℓ, i⟩ []) :
    Runs False (Lower.step cx x op.kind) t₀ (SharesOut m R x k A B P (m.shares ℓ σ turned c) t₀) := by
  rw [hk]
  change Runs False (memory x m') t₀ _
  unfold memory
  refine Runs.bind_except (Ty.peel_ends False.elim).with_ok fun r ⟨hpeel, hr'⟩ => ?_
  rw [hn.dataType] at hpeel
  cases r with
  | none =>
    have hground : c.isGround := by
      have : m'.dataType.isGround := by simpa using hr'
      rwa [hn.dataType] at this
    exact .pure ⟨rfl, .store hop he hk hn hc hR fun _ => hground⟩
  | some ps =>
    have hps : c.PartsOf ps := by
      have hparts := hr'.1
      rwa [hn.dataType] at hparts
    refine ((Dealt.start hb hs hp hr).portWires_runs hop hn hc hps.aggregate hR).bind ?_
    rintro wires t₁ ⟨R₁, N₁, hN₁, hlen, hwires⟩
    -- the memories
    refine Runs.bind (Runs.mapM (fun done memories (t' : LowerState) => ∃ R' N, Dealt m R t₀.builder.body x k A B P
      (fun _ => False) R' N (m.wires ℓ c ++ done.flatMap fun p =>
        m.shares (ℓ ++ [p.index]) (σ ++ p.suffix) (turned ^^ p.flip) p.ty) t'.builder ∧
      (∀ {v f p}, R₁ v f p → R' v f p) ∧ memories.map Prod.fst = done ∧
      ∀ e ∈ memories, HasPorts m R' t'.builder.body e.2 (ℓ ++ [e.1.index])) ps
      ⟨R₁, N₁, by simpa using hN₁, id, rfl, by simp⟩ ?_) ?_
    · rintro done part rest memories t' hl ⟨R', N, hN, hkeep, hdone, hports⟩
      refine (hN.stored_runs hn (Ty.sub?_concat hc (hps.child_index (p := part) (by simp [hl])))).bind ?_
      rintro y t'' ⟨R'', hD, hext, hmore, hy⟩
      refine .pure ⟨R'', N ++ [y], ?_, fun hv => hmore (hkeep hv), by simp [hdone], fun e he => ?_⟩
      · rw [List.flatMap_append, List.flatMap_singleton, ← List.append_assoc]
        exact hD
      · rcases List.mem_append.1 he with he | he
        · exact (hports e he).mono hext hmore
        · rw [List.mem_singleton.1 he]
          exact hy
    rintro memories t₂ ⟨R₂, N₂, hN₂, hkeep, hmemories, hports⟩
    have hmem : ∀ e ∈ memories, e.1 ∈ ps := fun e he => by
      rw [← hmemories]
      exact List.mem_map_of_mem he
    -- the connections
    refine Runs.bind (Runs.forM (fun done (t' : LowerState) => ∃ N, Dealt m R t₀.builder.body x k A B P (fun _ => False) R₂ N
      ((m.wires ℓ c ++ ps.flatMap fun p => m.shares (ℓ ++ [p.index]) (σ ++ p.suffix) (turned ^^ p.flip) p.ty) ++
        done.flatMap fun e => (Memory.portFields m'.depth m'.dataType e.1.2.kind).zipIdx.flatMap fun fe =>
          Memory.fieldLinks ℓ e.2 fe.1 fe.2 (memories.map (·.1.index))) t'.builder ∧
      Extends t₂.builder.body t'.builder.body) (wires.zip m'.ports).zipIdx ⟨N₂, by simpa using hN₂, .refl _⟩ ?_) ?_
    · rintro done ⟨⟨wire, port⟩, i⟩ rest t₃ hl ⟨N₃, hN₃, hext₃⟩
      have hzip : ((wire, port), i) ∈ (wires.zip m'.ports).zipIdx := by rw [hl]; simp
      rw [List.mem_zipIdx_iff_getElem?, List.getElem?_zip_eq_some] at hzip
      refine (Runs.forM (fun done' (t' : LowerState) => ∃ N, Dealt m R t₀.builder.body x k A B P (fun _ => False) R₂ N
        (_ ++ done'.flatMap fun fe => Memory.fieldLinks ℓ i fe.1 fe.2 (memories.map (·.1.index))) t'.builder ∧
        Extends t₂.builder.body t'.builder.body) (Memory.portFields m'.depth m'.dataType port.kind).zipIdx
        ⟨N₃, by simpa using hN₃, hext₃⟩ ?_).mono ?_
      · rintro done' ⟨field, pos⟩ rest' t₄ hl' ⟨N₄, hN₄, hext₄⟩
        have hfield : (field, pos) ∈ (Memory.portFields m'.depth m'.dataType port.kind).zipIdx := by rw [hl']; simp
        refine (hN₄.joinField_runs hn hc hpassive hps hzip.2 (List.mem_zipIdx_iff_getElem?.1 hfield)
          (hkeep (hwires i wire hzip.1)) fun e he => ⟨hmem e he, (hports e he).mono hext₄ id⟩).mono ?_
        rintro - t₅ ⟨N₅, hN₅, hext₅⟩
        refine ⟨N₅, ?_, hext₄.trans hext₅⟩
        rw [List.flatMap_append, List.flatMap_singleton, ← List.append_assoc]
        exact hN₅
      · rintro - t₄ ⟨N₄, hN₄, hext₄⟩
        refine ⟨N₄, ?_, hext₄⟩
        simpa only [List.flatMap_append, List.flatMap_singleton, List.append_assoc] using hN₄
    · rintro - t₃ ⟨N₃, hN₃, -⟩
      refine .pure ⟨R₂, N₃, ?_⟩
      have hindex : memories.map (·.1.index) = List.range c.children.length := by
        rw [← hps.map_index, ← hmemories, List.map_map]
        rfl
      rw [Memory.shares_of_peel hpeel, hn.links_eq hlen, ← hindex]
      exact hN₃

/-- An operation that stands for shares is lowered by one layer. -/
theorem Piece.step_runs {op : Operation} (h : Piece m R t₀.builder.body False x ss)
    (hkeep : cx.options.preserveAggregate = false) (hpassive : m.dataType.passive) (hb : t₀.builder.body.Coherent)
    (hr : Roots m t₀.builder.body R P) (hs : t₀.builder.body.slotsOf k = A ++ x :: B) (hp : t₀.builder.point = ⟨k, A.length⟩)
    (hop : t₀.builder.body.op? x = some op) (he : op.erased = false) :
    Runs False (Lower.step cx x op.kind) t₀ (SharesOut m R x k A B P ss t₀) := by
  cases h with
  | store hop' _ hk hn hc hR =>
    obtain rfl := Option.some.inj (hop.symm.trans hop')
    exact Piece.store_runs hb hr hs hp hop he hk hn hc hpassive hR
  | wire hop' _ hk hres hR hc hg ht =>
    obtain rfl := Option.some.inj (hop.symm.trans hop')
    exact Piece.wire_runs hkeep hb hr hs hp hop he hk hres hR hc hg ht
  | link hop' _ hk ht ht' hty ha hia hd hod =>
    obtain rfl := Option.some.inj (hop.symm.trans hop')
    exact Piece.link_runs hb hr hs hp hop he hk ht ht' hty ha hia hd hod
  | none hop' hk h =>
    obtain rfl := Option.some.inj (hop.symm.trans hop')
    rw [he] at h
    obtain ⟨i, hi⟩ := Option.isSome_iff_exists.1 (h.resolve_left Bool.false_ne_true)
    refine (Lower.step_fixed hi).mono fun replaced t' hout => ?_
    obtain ⟨rfl, rfl⟩ := hout
    exact ⟨rfl, .none hop hk (.inr (by rw [hi]; rfl))⟩

end Body

end Scalarize
