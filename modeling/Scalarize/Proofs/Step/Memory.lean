import Scalarize.Lower.Memory
import Scalarize.Proofs.Step.Access

/-!
# Memories

* `Memory.depth_portType_le`, `Memory.portField_cases` : the fields of a port and the type of an entry;
* `Memory.narrow_ends` : the memory of one part;
* `Ported`, `Stored` : a wire for a port, and the memory of a part, were made;
* `Start.portWires_runs`, `Start.narrowMemory_runs`, `Start.joinField_runs` : the steps;
* `Start.memory_runs` : memories of aggregates give way, others stay.
-/

namespace Scalarize

open Body Lower

/-! ## Ports -/

namespace Memory

variable {must : Prop} {depth j : Nat} {data : Ty} {kind : PortKind} {f : Field}

/-- A port is one layer deeper than an entry. -/
theorem depth_portType_le (depth : Nat) (data : Ty) (kind : PortKind) :
    (portType depth data kind).depth ≤ data.depth + 1 := by
  cases kind <;> simp [portType, portFields, Ty.depth, Ty.depthFields]

/-- A field of a port follows the type of an entry, or is ground. -/
theorem portField_cases (hf : (portFields depth data kind)[j]? = some f) :
    if followsData f.name then
      ∃ g : Ty → Ty, (∀ t i, (g t).child? i = (t.child? i).map g) ∧ (∀ t, (g t).depth = t.depth) ∧
        f.ty = g data ∧ ∀ c, (portFields depth c kind)[j]? = some { f with ty := g c }
    else f.ty.isGround ∧ ∀ c, (portFields depth c kind)[j]? = some f := by
  have hid : (∀ t i, (id t : Ty).child? i = (t.child? i).map id) ∧ ∀ t : Ty, (id t).depth = t.depth :=
    ⟨fun t i => by simp, fun _ => rfl⟩
  cases kind with
  | read =>
    obtain _ | _ | _ | _ | j := j
    iterate 3 cases hf; exact ⟨rfl, fun _ => rfl⟩
    · cases hf; exact ⟨id, hid.1, hid.2, rfl, fun _ => rfl⟩
    · simp [portFields] at hf
  | write =>
    obtain _ | _ | _ | _ | _ | j := j
    iterate 3 cases hf; exact ⟨rfl, fun _ => rfl⟩
    · cases hf; exact ⟨id, hid.1, hid.2, rfl, fun _ => rfl⟩
    · cases hf; exact ⟨Ty.mask, Ty.child?_mask, Ty.depth_mask, rfl, fun _ => rfl⟩
    · simp [portFields] at hf
  | readWrite =>
    obtain _ | _ | _ | _ | _ | _ | _ | j := j
    iterate 3 cases hf; exact ⟨rfl, fun _ => rfl⟩
    · cases hf; exact ⟨id, hid.1, hid.2, rfl, fun _ => rfl⟩
    · cases hf; exact ⟨rfl, fun _ => rfl⟩
    · cases hf; exact ⟨id, hid.1, hid.2, rfl, fun _ => rfl⟩
    · cases hf; exact ⟨Ty.mask, Ty.child?_mask, Ty.depth_mask, rfl, fun _ => rfl⟩
    · simp [portFields] at hf

/-- The memory of one part. -/
theorem narrow_ends {m : Memory} {part : Part}
    (hm : must → (∀ p ∈ m.ports, (portType m.depth m.dataType p.kind).span?.isSome) ∧
      m.dataType.child? part.index = some part.ty ∧
      m.dataType.childId? part.index = some part.fieldId) :
    Ends must (m.narrow part) fun m' => m'.depth = m.depth ∧ m'.dataType = part.ty ∧
      m'.ports.map (·.kind) = m.ports.map (·.kind) := by
  unfold narrow
  refine (Ends.mapM (fun (p p' : MemPort) => p'.kind = p.kind) m.ports fun p hp => ?_).bind
    fun ports hports => .pure ⟨rfl, rfl, ?_⟩
  · exact (restrictPort_ends fun hmust => ⟨(hm hmust).1 p hp, (hm hmust).2⟩).bind fun _ _ => .pure rfl
  · rw [← List.forall₂_eq_eq_eq, List.forall₂_map_left_iff, List.forall₂_map_right_iff]
    exact hports.flip

end Memory

/-! ## What is made -/

/-- A wire of this type was made. -/
def Ported (N : List OpId) (b : Body) (t : Ty) (w : ValueId) : Prop :=
  (∃ d ∈ N, ∃ decl, b.Makes d (.wire decl) [] [w]) ∧ b.ty? w = some t

/-- The memory of a part was made. -/
def Stored (N : List OpId) (b : Body) (m : Memory) (part : Part) (d : OpId) : Prop :=
  d ∈ N ∧ ∃ m' rs, b.Makes d (.mem m') [] rs ∧
    b.Types rs (m.ports.map fun p => Memory.portType m.depth part.ty p.kind)

section

variable {N N' : List OpId} {b b' : Body} {t : Ty} {w : ValueId} {m : Memory} {part : Part} {d : OpId}

theorem Ported.mono (h : Ported N b t w) (hb : Extends b b') (hN : ∀ d ∈ N, d ∈ N') :
    Ported N' b' t w := by
  obtain ⟨⟨d, hd, decl, hmk⟩, ht⟩ := h
  exact ⟨⟨d, hN d hd, decl, hmk.mono hb⟩, hb.ty?_some ht⟩

theorem Ported.replaced {old new : ValueId} (h : Ported N b t w) (hr : Replaced b old new b') :
    Ported N b' t w := by
  obtain ⟨⟨d, hd, decl, hmk⟩, ht⟩ := h
  exact ⟨⟨d, hd, decl, hmk.replaced hr⟩, by rw [hr.outlives.ty?, ht]⟩

theorem Ported.madeIn (h : Ported N b t w) : MadeIn N b w := by
  obtain ⟨⟨d, hd, decl, hmk⟩, -⟩ := h
  exact ⟨d, hd, .wire decl, [], hmk⟩

theorem Stored.mono (h : Stored N b m part d) (hb : Extends b b') (hN : ∀ d ∈ N, d ∈ N') :
    Stored N' b' m part d := by
  obtain ⟨hd, m', rs, hmk, hrs⟩ := h
  exact ⟨hN d hd, m', rs, hmk.mono hb, hb.types hrs⟩

/-- What an operation makes that is no accessor is reached without any access. -/
theorem Body.Makes.accesses {o : OpId} {kind : OpKind} {vs rs : List ValueId} {i : Nat}
    (h : b.Makes o kind vs rs) (hb : b.Coherent) (hk : kind.isAccessor = false) (hw : rs[i]? = some w) :
    b.Accesses w 0 := by
  have hr := h.origin? hb hw
  obtain ⟨op, hop, hbare, -⟩ := h
  exact .result hr hop (by rw [OpKind.isAccessor_eq_of_bare_eq hbare, hk])

end

/-- What a memory needs so that its lowering succeeds. -/
structure Roomy (q : Setting) (m : Memory) (r : Nat) : Prop where
  lastId : m.dataType.lastId?.isSome
  depth : m.dataType.depth < q.depth
  span : ∀ p ∈ m.ports, (Memory.portType m.depth m.dataType p.kind).span?.isSome
  nests : m.dataType.depth * (2 * q.depth + 2) + q.depth + 4 ≤ r

theorem Roomy.port {q : Setting} {m : Memory} {r : Nat} (h : Roomy q m r) {p : MemPort}
    (hp : p ∈ m.ports) : (Memory.portType m.depth m.dataType p.kind).lastId?.isSome ∧
      (Memory.portType m.depth m.dataType p.kind).depth ≤ q.depth := by
  refine ⟨?_, Nat.le_trans (Memory.depth_portType_le _ _ _) h.depth⟩
  obtain ⟨s, hs⟩ := Option.isSome_iff_exists.1 (h.span p hp)
  obtain ⟨l, hl, -⟩ := Option.bind_eq_some_iff.1 hs
  rw [hl]
  rfl

/-- A part of the entries nests less deep. -/
theorem Roomy.part {q : Setting} {m : Memory} {r i : Nat} {c : Ty} (h : Roomy q m r)
    (hc : m.dataType.child? i = some c) {m' : Memory} (hd : m'.depth = m.depth)
    (ht : m'.dataType = c) (hp : m'.ports.map (·.kind) = m.ports.map (·.kind)) :
    Roomy q m' (r - 1) ∧ 0 < r := by
  have hlt := Ty.depth_lt_of_child? hc
  have hmul : (c.depth + 1) * (2 * q.depth + 2) ≤ m.dataType.depth * (2 * q.depth + 2) :=
    Nat.mul_le_mul_right _ hlt
  rw [Nat.succ_mul] at hmul
  have := h.nests
  refine ⟨⟨?_, ?_, fun p hp' => ?_, ?_⟩, by omega⟩
  · rw [ht]
    exact Ty.isSome_lastId?_child h.lastId hc
  · rw [ht]
    exact Nat.lt_trans hlt h.depth
  · have : p.kind ∈ m.ports.map (·.kind) := hp ▸ List.mem_map_of_mem hp'
    obtain ⟨p₀, hp₀, he⟩ := List.mem_map.1 this
    rw [hd, ht, ← he]
    exact Memory.span?_portType_child (h.span p₀ hp₀) hc
  · rw [ht]
    omega

/-- What was made since the operation was taken up is none of its results. -/
theorem Making.not_mem_results {q : Setting} {b₀ b : Body} {R₀ R : OpId → Nat} {P D N : List OpId}
    {o : OpId} {op' : Operation} {w : ValueId} (h : Making q b₀ R₀ P o D N b R) (hop : b.op? o = some op') (hw : MadeIn N b w) :
    w ∉ op'.results := by
  intro hmem
  obtain ⟨i, hi⟩ := List.mem_iff_getElem?.1 hmem
  obtain ⟨d, hd, kind, vs, hmk⟩ := hw
  have horigin := hmk.origin? h.holds.coherent (i := 0) rfl
  rw [h.holds.coherent.result hop hi] at horigin
  obtain ⟨rfl, -⟩ : o = d ∧ i = 0 := by simpa using horigin
  exact h.not_mem (List.mem_append_right _ hd)

/-- If neither the operation itself nor what is done reads its results, then nothing does. -/
theorem Making.not_resultRead {q : Setting} {b₀ b : Body} {R₀ R : OpId → Nat} {P D N : List OpId}
    {o : OpId} {op : Operation} (h : Making q b₀ R₀ P o D N b R) (hord : q.ordered)
    (hop : b.op? o = some op) (hD : ∀ x ∈ o :: D, ∀ v ∈ op.results, ¬b.Reads x v) :
    ¬b.ResultRead o := by
  rintro ⟨op', v, x, hop', hv, hread⟩
  rw [hop] at hop'
  obtain rfl := Option.some.inj hop'
  obtain ⟨opx, hopx, hmem⟩ := hread
  have hx := h.holds.tracked hopx (not_erased_of_reads h.holds.coherent hopx hmem)
  rw [List.append_assoc, List.singleton_append, List.mem_append] at hx
  rcases hx with hx | hx
  · obtain ⟨i, hi⟩ := List.mem_iff_getElem?.1 hv
    exact h.not_reads hord (h.holds.coherent.result hop hi) x hx ⟨opx, hopx, hmem⟩
  · exact hD x hx v hv ⟨opx, hopx, hmem⟩

namespace Start

variable {q : Setting} {b₀ : Body} {R₀ : OpId → Nat} {P D N : List OpId} {o : OpId} {k : BlockId}
  {A B : List OpId} {op : Operation} {y : Symbols} {t : LowerState} {m : Memory}

/-- Nothing that was reached reads one of the first `n` results. -/
def Spared (b : Body) (X : List OpId) (op : Operation) (n : Nat) : Prop :=
  ∀ x ∈ X, ∀ i < n, ∀ v, op.results[i]? = some v → ¬b.Reads x v

theorem Spared.extends {b b' : Body} {X : List OpId} {n : Nat} (h : Spared b X op n)
    (hb : Extends b b') (hX : ∀ x ∈ X, (b.op? x).isSome) : Spared b' X op n := by
  rintro x hx i hi v hv ⟨op', hop', hmem⟩
  obtain ⟨op₁, hop₁⟩ := Option.isSome_iff_exists.1 (hX x hx)
  obtain ⟨op₂, hop₂, -, hops, -⟩ := hb.op? hop₁
  rw [hop'] at hop₂
  obtain rfl := Option.some.inj hop₂
  exact h x hx i hi v hv ⟨op₁, hop₁, hops ▸ hmem⟩

theorem Spared.replaced {b b' : Body} {X : List OpId} {n : Nat} {old new : ValueId}
    (h : Spared b X op n) (hr : Replaced b old new b') (hold : op.results[n]? = some old)
    (hnew : new ∉ op.results) : Spared b' X op (n + 1) := by
  intro x hx i hi v hv hread
  rcases hr.reads_iff.1 hread with ⟨hread, hne⟩ | ⟨rfl, -⟩
  · refine h x hx i (Nat.lt_of_le_of_ne (Nat.le_of_lt_succ hi) fun he => hne ?_) v hv hread
    rw [he, hold] at hv
    exact (Option.some.inj hv).symm
  · exact hnew (List.mem_of_getElem? hv)

/-- Each port of a memory becomes a wire. -/
theorem portWires_runs (h : Start q b₀ R₀ P o D k A B) (hop : b₀.op? o = some op)
    (hops : op.operands = []) (houts : b₀.Types op.results m.portTypes)
    (hm : q.must → Roomy q m (R₀ o)) :
    Runs q.must (portWires o m) ⟨⟨b₀, ⟨k, A.length⟩⟩, y⟩ fun wires t => t.symbols = y ∧
      ∃ N, Front q b₀ R₀ P o D k A B N t.builder ∧
        List.Forall₂ (fun p w => Ported N t.builder.body (Memory.portType m.depth m.dataType p.kind) w)
          m.ports wires ∧ Spared t.builder.body (o :: D) op m.ports.length := by
  unfold portWires
  refine (Runs.mapM (fun done wires t => t.symbols = y ∧
    ∃ N, Front q b₀ R₀ P o D k A B N t.builder ∧
      List.Forall₂ (fun e w => Ported N t.builder.body
        (Memory.portType m.depth m.dataType e.1.kind) w) done wires ∧
      (∃ op', t.builder.body.op? o = some op' ∧ op'.operands = [] ∧ op'.results = op.results) ∧
      Spared t.builder.body (o :: D) op done.length) m.ports.zipIdx ?_ ?_).mono ?_
  · exact ⟨rfl, [], h.front, .nil, ⟨op, hop, hops, rfl⟩, fun _ _ i hi => by cases hi⟩
  · rintro done ⟨p, i⟩ rest wires t hl ⟨hy, N, hF, hports, ⟨op', hop', hops', hres'⟩, hspared⟩
    obtain ⟨rfl, hp⟩ : i = done.length ∧ m.ports[i]? = some p := by
      have : m.ports.zipIdx[done.length]? = some (p, i) := by rw [hl]; simp
      rw [List.getElem?_zipIdx, Option.map_eq_some_iff] at this
      obtain ⟨p', hp', he⟩ := this
      obtain ⟨rfl, rfl⟩ : p' = p ∧ done.length = i := by simpa using he
      exact ⟨rfl, hp'⟩
    have hmem := List.mem_of_getElem? hp
    -- the wire
    refine Runs.bind_build (h.grows.create_runs hF rfl (List.forall_mem_nil _) .nil ⟨rfl, _, rfl⟩
      fun hmust => ?_) ?_
    · refine ⟨.of_checked (by simp) .nil ⟨rfl, _, rfl, .nil ((hm hmust).port hmem).1⟩
        (by simpa using (hm hmust).port hmem), q.depth, ?_, ?_⟩
      · have := (hm hmust).nests
        omega
      · simpa [Suffices] using ((hm hmust).port hmem).2
    rintro d s ⟨hg, hmk, hty⟩
    obtain ⟨w, hw, hws⟩ := hty.singleton
    rw [hws] at hmk
    have hported : Ported (N ++ [d]) s.body (Memory.portType m.depth m.dataType p.kind) w :=
      ⟨⟨d, by simp, _, hmk⟩, hw⟩
    obtain ⟨opd, hopd, -, -, hresd, -⟩ := hmk
    refine Body.bind_result (t := ⟨s, t.symbols⟩) hopd (v := w) (by rw [hresd]; rfl) ?_
    -- the readers of the port
    obtain ⟨⟨H, hH⟩, R, hR⟩ := hg.holds
    obtain ⟨op₁, hop₁, -, hops₁, hres₁, -⟩ := hg.body.op? hop'
    obtain ⟨v, hv⟩ : ∃ v, op.results[done.length]? = some v := by
      have hlt : done.length < op.results.length := by
        rw [houts.length_eq, Memory.portTypes, List.length_map]
        exact (List.getElem?_eq_some_iff.1 hp).1
      exact ⟨_, List.getElem?_eq_getElem hlt⟩
    obtain ⟨u, hu, hvu⟩ := houts.getElem? hv
    obtain rfl : Memory.portType m.depth m.dataType p.kind = u := by
      rw [Memory.portTypes, List.getElem?_map, hp] at hu
      simpa using hu
    have hv₁ : op₁.results[done.length]? = some v := by rw [hres₁, hres', hv]
    have horigin := hR.holds.coherent.result hop₁ hv₁
    refine Runs.bind_change (P := fun b' => ∃ R', Making q b₀ R₀ P o D (N ++ [d]) b' R' ∧
      Replaced s.body v w b' ∧ v ≠ w) ?_ fun b' ⟨R', hR', hrep, hne⟩ => .pure ?_
    · refine (result_ends (Q := (v = ·)) (fun op'' v' hop'' hv' => ?_)
        fun _ => ⟨op₁, v, hop₁, hv₁⟩).bind fun v' hv' => ?_
      · rw [hop₁] at hop''
        obtain rfl := Option.some.inj hop''
        rw [hv₁] at hv'
        exact Option.some.inj hv'
      · subst hv'
        exact (hR.replaceAllUses_ends horigin (hR.persists.ty?_some hvu) hported.madeIn hw
          (.refl _)).mono fun b' hb' => ⟨R, hb'⟩
    refine ⟨hy, N ++ [d], ⟨⟨H, hH.outlives hrep.outlives⟩, R', hR'⟩, ?_, ?_, ?_⟩
    · refine List.rel_append (hports.imp fun e w' hw' => ?_) (.cons (hported.replaced hrep) .nil)
      exact (hw'.mono hg.body fun _ => hg.mem).replaced hrep
    · exact ⟨_, hrep.op?_some hop₁, by simp [hops₁, hops'], by simp [hres₁, hres']⟩
    · rw [List.length_append, List.length_singleton]
      refine (hspared.extends hg.body fun x hx => ?_).replaced hrep hv ?_
      · obtain ⟨-, R₁, hR₁⟩ := hF
        exact hR₁.holds.isSome (by simpa using .inr (.inr (List.mem_cons.1 hx)))
      · have := hR.not_mem_results hop₁ hported.madeIn
        rwa [hres₁, hres'] at this
  · rintro wires t ⟨hy, N, hF, hports, -, hspared⟩
    refine ⟨hy, N, hF, ?_, by simpa using hspared⟩
    rw [← List.zipIdx_map_fst 0 m.ports, List.forall₂_map_left_iff]
    exact hports


/-- The memory of one part is made. -/
theorem narrowMemory_runs (h : Start q b₀ R₀ P o D k A B) (hF : Front q b₀ R₀ P o D k A B N t.builder)
    (htr : t.builder.body.Tracked t.symbols) {part : Part}
    (hm : q.must → Roomy q m (R₀ o) ∧ m.dataType.child? part.index = some part.ty ∧
      m.dataType.childId? part.index = some part.fieldId) :
    Runs q.must (narrowMemory m part) t fun d t' => ∃ N',
      Grew (Front q b₀ R₀ P o D k A B) N t.builder N' t'.builder ∧
      Stored N' t'.builder.body m part d ∧ t'.builder.body.Tracked t'.symbols := by
  unfold narrowMemory
  refine Runs.bind_except (Memory.narrow_ends fun hmust => ⟨(hm hmust).1.span, (hm hmust).2⟩) ?_
  rintro m' ⟨hdepth, hdata, hkinds⟩
  have htypes : m'.portTypes = m.ports.map fun p => Memory.portType m.depth part.ty p.kind := by
    have := congrArg (List.map (Memory.portType m.depth part.ty)) hkinds
    rw [Memory.portTypes, hdepth, hdata]
    simpa [List.map_map, Function.comp_def] using this
  refine Runs.bind_build (h.grows.create_runs hF rfl (List.forall_mem_nil _) .nil
    ⟨rfl, rfl⟩ fun hmust => ?_) ?_
  · obtain ⟨hroom, hpos⟩ := (hm hmust).1.part (hm hmust).2.1 hdepth hdata hkinds
    refine ⟨.of_checked (by simp) .nil ⟨rfl, rfl, hroom.lastId, hroom.depth, hroom.span⟩ ?_,
      R₀ o - 1, by omega, hroom.nests⟩
    intro u hu
    obtain ⟨p, hp, rfl⟩ := List.mem_map.1 hu
    exact hroom.port hp
  rintro d s ⟨hg, hmk, hty⟩
  have hstored : Stored (N ++ [d]) s.body m part d := by
    rw [htypes] at hty
    refine ⟨by simp, m', _, hmk, ?_⟩
    rwa [← htypes] at hty ⊢
  have htr' := htr.persists hg.body.persists
  dsimp only
  split
  next base _ =>
    refine Runs.bind (Runs.mint (Q := fun _ t' => t'.builder = s ∧ t'.builder.body.Tracked t'.symbols)
      ⟨rfl, Symbols.Targets.derive htr' fun _ => ?_⟩) ?_
    · obtain ⟨op, hop, hb, -⟩ := hmk
      exact ⟨d, rfl, op, hop, by rw [isSome_decl?_of_bare_eq hb]; rfl⟩
    · rintro sym t' ⟨rfl, htr''⟩
      refine Runs.bind_change (P := (t'.builder.body.modifyDecl d _ = ·)) (.ok rfl) ?_
      rintro _ rfl
      have hext := Extends.modifyDecl t'.builder.body d fun d => { d with sym := some sym }
      refine .pure ⟨N ++ [d], hg.trans ⟨h.grows.declare hg.holds (by simp) ?_, hext,
        List.prefix_refl _⟩, hstored.mono hext fun _ hx => hx, htr''.persists hext.persists⟩
      intro op outs hop _ _
      obtain ⟨op', hop', hb, -⟩ := hmk
      rw [hop] at hop'
      obtain rfl := Option.some.inj hop'
      cases hk : op.kind <;> rw [hk] at hb <;> trivial
  next => exact .pure ⟨N ++ [d], hg, hstored, htr'⟩

/-- A field of a port of a memory that was made. -/
theorem bind_storedField (h : Start q b₀ R₀ P o D k A B) (hF : Front q b₀ R₀ P o D k A B N t.builder)
    (hpos : q.must → 0 < R₀ o) {part : Part} {d : OpId} (hd : Stored N t.builder.body m part d)
    {port position : Nat} {p : MemPort} {field : Field} (hp : m.ports[port]? = some p)
    (hf : (Memory.portFields m.depth part.ty p.kind)[position]? = some field) {α : Type}
    {f : ValueId → Lower α} {Q : α → LowerState → Prop}
    (hQ : ∀ {N' s' w}, Grew (Front q b₀ R₀ P o D k A B) N t.builder N' s' → MadeIn N' s'.body w →
      s'.body.ty? w = some field.ty → s'.body.Accesses w 0 → Runs q.must (f w) ⟨s', t.symbols⟩ Q) :
    Runs q.must (do
      let newPort ← body (·.result d port)
      let newField ← Build.subfield newPort position
      f newField) t Q := by
  have hb := h.grows.coherent hF
  obtain ⟨hdN, m', rs, hmk, hrs⟩ := hd
  obtain ⟨w, hw⟩ : ∃ w, rs[port]? = some w := by
    have hlt : port < rs.length := by
      rw [hrs.length_eq, List.length_map]
      exact (List.getElem?_eq_some_iff.1 hp).1
    exact ⟨_, List.getElem?_eq_getElem hlt⟩
  have hty : t.builder.body.ty? w = some (Memory.portType m.depth part.ty p.kind) := by
    obtain ⟨u, hu, hwu⟩ := hrs.getElem? hw
    rw [List.getElem?_map, hp] at hu
    rw [hwu, ← hu]
    rfl
  have hacc : t.builder.body.Accesses w 0 := hmk.accesses hb rfl hw
  have hat : AtHand (b₀.Readable q P) N t.builder.body w := .inr ⟨d, hdN, port, hmk.origin? hb hw⟩
  obtain ⟨opd, hopd, -, -, hresd, -⟩ := hmk
  refine Body.bind_result hopd (v := w) (by rw [hresd]; exact hw) ?_
  refine Runs.bind_build (h.grows.subfield_runs hF hat
    (.part (fun hmust {_ _} hu => hF.sized hmust hu) hpos w position) fun _ => ⟨_, _, hty, hf⟩) ?_
  rintro newField s' ⟨-, hnew⟩
  obtain ⟨N', hg, hmade, hpart⟩ := hnew.partOf
  have hc : (Memory.portType m.depth part.ty p.kind).child? position = some field.ty := by
    rw [Memory.portType, Ty.child?, hf]
    rfl
  exact hQ hg hmade (hpart.ty? (hg.body.ty?_some hty) hc)
    (hpart.accesses (h.grows.coherent hg.holds) (hacc.agrees (hg.body.agrees hb) (lt_of_ty? hty)))

/-- One field of a port is connected with the memories of all parts. -/
theorem joinField_runs (h : Start q b₀ R₀ P o D k A B) {ps : List Part} (hps : m.dataType.PartsOf ps)
    (hF : Front q b₀ R₀ P o D k A B N t.builder) {wire : ValueId} {port position : Nat} {p : MemPort}
    {field : Field} {memories : List (Part × OpId)} (hp : m.ports[port]? = some p)
    (hf : (Memory.portFields m.depth m.dataType p.kind)[position]? = some field)
    (hwire : Ported N t.builder.body (Memory.portType m.depth m.dataType p.kind) wire)
    (hmem : ∀ e ∈ memories, e.1 ∈ ps ∧ Stored N t.builder.body m e.1 e.2)
    (hm : q.must → Roomy q m (R₀ o)) :
    Runs q.must (joinField wire port memories field position) t fun _ t' => t'.symbols = t.symbols ∧
      ∃ N', Grew (Front q b₀ R₀ P o D k A B) N t.builder N' t'.builder := by
  have hpos : q.must → 0 < R₀ o := fun hmust => by
    have := (hm hmust).nests
    omega
  have hpart : ∀ {N' s'} v i, Front q b₀ R₀ P o D k A B N' s' →
      Grows.MakesPart (Allowed q (R₀ o)) s'.body v i := fun v i hF' =>
    .part (fun hmust {_ _} hu => hF'.sized hmust hu) hpos v i
  unfold joinField
  refine Runs.bind_build (h.grows.subfield_runs hF (hwire.madeIn.atHand (h.grows.coherent hF))
    (hpart wire position hF) fun _ => ⟨_, field, hwire.2, hf⟩) ?_
  rintro whole s₁ ⟨-, hnew⟩
  obtain ⟨N₁, hg₁, hmade, hwhole⟩ := hnew.partOf
  have hchild : (Memory.portType m.depth m.dataType p.kind).child? position = some field.ty := by
    rw [Memory.portType, Ty.child?, hf]
    rfl
  have hwty : s₁.body.ty? whole = some field.ty := hwhole.ty? (hg₁.body.ty?_some hwire.2) hchild
  have hb₁ := h.grows.coherent hg₁.holds
  obtain ⟨⟨dw, -, decl, hmkw⟩, -⟩ := hwire
  have hwacc : s₁.body.Accesses whole 0 :=
    hwhole.accesses hb₁ ((hmkw.mono hg₁.body).accesses (i := 0) hb₁ rfl rfl)
  refine (Runs.forM (fun _ t' => t'.symbols = t.symbols ∧
    ∃ N', Grew (Front q b₀ R₀ P o D k A B) N₁ s₁ N' t'.builder) memories ⟨rfl, N₁, .refl hg₁.holds⟩
    ?_).mono ?_
  swap
  · rintro _ t' ⟨hy, N', hg'⟩
    exact ⟨hy, N', hg₁.trans hg'⟩
  rintro done ⟨part, d⟩ rest t₂ hl ⟨hy, N₂, hg₂⟩
  obtain ⟨hpp, hstored⟩ := hmem (part, d) (by rw [hl]; simp)
  have hc := hps.child_index hpp
  have hg₀₂ := hg₁.trans hg₂
  have hstored₂ := hstored.mono hg₀₂.body fun _ => hg₀₂.mem
  have hwhole₂ := hg₂.madeIn hmade
  -- a connection of two values of one type, each reached by fixed accessors only
  have hconnect : ∀ {s N₃ x z u}, Grew (Front q b₀ R₀ P o D k A B) N₁ s₁ N₃ s →
      MadeIn N₃ s.body x → MadeIn N₃ s.body z → s.body.ty? x = some u → s.body.ty? z = some u →
      s.body.Accesses x 0 → (q.must → u.depth * (2 * q.depth + 2) + q.depth + 3 < R₀ o) →
      Runs q.must (Lower.build (Build.connect true x z)) ⟨s, t₂.symbols⟩ fun _ t' =>
        t'.symbols = t.symbols ∧ ∃ N', Grew (Front q b₀ R₀ P o D k A B) N₁ s₁ N' t'.builder := by
    intro s N₃ x z u hg₃ hx hz htx htz hacc hle
    have hb₃ := h.grows.coherent hg₃.holds
    exact Runs.build ((h.grows.connect_runs hg₃.holds (hx.atHand hb₃) (hz.atHand hb₃) htx htz
      fun hmust => ⟨rfl, 0, hacc, by simpa using hle hmust⟩).mono fun d s' hg' =>
        ⟨hy, N₃ ++ [d], hg₃.trans hg'⟩)
  have hcases := Memory.portField_cases hf
  dsimp only
  split
  next hfollows =>
    rw [if_pos hfollows] at hcases
    obtain ⟨g, hgc, hgd, hgty, hgf⟩ := hcases
    have hcg : field.ty.child? part.index = some (g part.ty) := by rw [hgty, hgc, hc]; rfl
    refine Runs.bind_build (h.grows.part_runs hg₂.holds (hwhole₂.atHand (h.grows.coherent hg₂.holds))
      (hpart whole part.index hg₂.holds) fun _ => ⟨_, _, hg₂.body.ty?_some hwty, hcg⟩) ?_
    rintro leaf s₃ hnew₃
    obtain ⟨N₃, hg₃, hmade₃, hleaf⟩ := hnew₃.partOf
    refine h.bind_storedField (t := ⟨s₃, t₂.symbols⟩) hg₃.holds hpos
      (hstored₂.mono hg₃.body fun _ => hg₃.mem) hp (hgf part.ty) fun {N₄ s₄ newField} hg₄ hnew₄ hty₄
      hacc₄ => ?_
    have hext := (hg₂.body.trans hg₃.body).trans hg₄.body
    have hleaf₄ := hleaf.mono hg₄.body
    have htleaf := hleaf₄.ty? (hext.ty?_some hwty) hcg
    have hlacc := hleaf₄.accesses (h.grows.coherent hg₄.holds)
      (hwacc.agrees (hext.agrees hb₁) (lt_of_ty? hwty))
    have hle : q.must → (g part.ty).depth * (2 * q.depth + 2) + q.depth + 3 < R₀ o := fun hmust => by
      have hmul : (part.ty.depth + 1) * (2 * q.depth + 2) ≤ m.dataType.depth * (2 * q.depth + 2) :=
        Nat.mul_le_mul_right _ (Ty.depth_lt_of_child? hc)
      rw [Nat.succ_mul] at hmul
      have := (hm hmust).nests
      rw [hgd]
      omega
    have hg' := (hg₂.trans hg₃).trans hg₄
    split
    · exact (hconnect hg' (hg₄.madeIn hmade₃) hnew₄ htleaf hty₄ hlacc hle).bind fun _ _ hq => .pure hq
    · exact (hconnect hg' hnew₄ (hg₄.madeIn hmade₃) hty₄ htleaf hacc₄ hle).bind fun _ _ hq => .pure hq
  next hfollows =>
    rw [if_neg hfollows] at hcases
    refine h.bind_storedField hg₂.holds hpos hstored₂ hp (hcases.2 part.ty)
      fun {N₄ s₄ newField} hg₄ hnew₄ hty₄ hacc₄ => ?_
    refine (hconnect (hg₂.trans hg₄) hnew₄ (hg₄.madeIn hwhole₂) hty₄
      ((hg₂.body.trans hg₄.body).ty?_some hwty) hacc₄ fun hmust => ?_).bind fun _ _ hq => .pure hq
    have := (hm hmust).nests
    rw [Ty.depth_of_isGround hcases.1]
    omega

/-- Memories of aggregates give way to memories of their parts; others stay. -/
theorem memory_runs (h : Start q b₀ R₀ P o D k A B) (htr : b₀.Tracked y) (hop : b₀.op? o = some op)
    (he : op.erased = false) (hk : op.kind = .mem m) :
    Runs q.must (Lower.memory o m) ⟨⟨b₀, ⟨k, A.length⟩⟩, y⟩
      (Stepped q.must (Lowering.stage q) b₀ R₀ k A o B P D) := by
  obtain ⟨ins, outs, hins, houts, hsh⟩ := h.shaped hop he
  have hready := fun hm => h.ready hm hop he houts
  have hsh' := hsh
  rw [hk] at hsh hready
  obtain ⟨rfl, rfl⟩ := hsh
  have hops : op.operands = [] := List.forall₂_nil_right_iff.1 hins
  have hm : q.must → Roomy q m (R₀ o) := fun hmust => by
    obtain ⟨⟨⟨ins', -, -, -, hid, hdepth, hspan⟩, -⟩, hnests⟩ := hready hmust
    exact ⟨hid, hdepth, hspan, hnests⟩
  unfold Lower.memory
  refine Runs.bind_except (Ty.peel_ends fun hmust => (hm hmust).lastId) fun r hr => ?_
  cases r with
  | none =>
    have hground : m.dataType.isGround := by simpa using hr
    refine .pure (h.kept rfl htr (fun {op'} hop' _ => ?_) fun hmust {op' v tv} hop' hv htv hg => ?_)
    · rw [hop] at hop'
      obtain rfl := Option.some.inj hop'
      exact ⟨[], _, hins, houts, hsh', by rw [hk]; exact hground⟩
    · rw [hop] at hop'
      obtain rfl := Option.some.inj hop'
      rw [hops] at hv
      cases hv
  | some ps =>
    obtain ⟨hps, -⟩ := hr
    refine (h.portWires_runs hop hops houts hm).bind ?_
    rintro wires t ⟨rfl, N, hF, hports, hspared⟩
    have htr₁ : t.builder.body.Tracked t.symbols := by
      obtain ⟨-, R, hR⟩ := hF
      exact htr.persists hR.persists
    -- the memories
    refine Runs.bind (Runs.mapM (fun _ memories t' => ∃ N',
      Grew (Front q b₀ R₀ P o D k A B) N t.builder N' t'.builder ∧ t'.builder.body.Tracked t'.symbols ∧
      ∀ e ∈ memories, e.1 ∈ ps ∧ Stored N' t'.builder.body m e.1 e.2) ps
      ⟨N, .refl hF, htr₁, by simp⟩ ?_) ?_
    · rintro done p rest memories t' hl ⟨N', hg, htr', hmem⟩
      have hp : p ∈ ps := by rw [hl]; simp
      refine (h.narrowMemory_runs hg.holds htr' fun hmust =>
        ⟨hm hmust, hps.child_index hp, hps.fieldId_index hp⟩).bind ?_
      rintro d t'' ⟨N'', hg', hd, htr''⟩
      refine .pure ⟨N'', hg.trans hg', htr'', fun e he => ?_⟩
      rcases List.mem_append.1 he with he | he
      · exact ⟨(hmem e he).1, (hmem e he).2.mono hg'.body fun _ => hg'.mem⟩
      · rw [List.mem_singleton.1 he]
        exact ⟨hp, hd⟩
    rintro memories t₁ ⟨N₁, hg₁, htr₁, hmem⟩
    -- the connections
    refine Runs.bind (Runs.forM (fun _ t' => t'.symbols = t₁.symbols ∧
      ∃ N', Grew (Front q b₀ R₀ P o D k A B) N₁ t₁.builder N' t'.builder) (wires.zip m.ports).zipIdx
      ⟨rfl, N₁, .refl hg₁.holds⟩ ?_) ?_
    · rintro done ⟨⟨wire, p⟩, port⟩ rest t₂ hl ⟨hy, N₂, hg₂⟩
      obtain ⟨hwp, hpp⟩ : wires[port]? = some wire ∧ m.ports[port]? = some p := by
        have : ((wire, p), port) ∈ (wires.zip m.ports).zipIdx := by rw [hl]; simp
        rw [List.mem_zipIdx_iff_getElem?, List.getElem?_zip_eq_some] at this
        exact this
      have hwire : Ported N t.builder.body (Memory.portType m.depth m.dataType p.kind) wire := by
        obtain ⟨h₁, rfl⟩ := List.getElem?_eq_some_iff.1 hpp
        obtain ⟨h₂, rfl⟩ := List.getElem?_eq_some_iff.1 hwp
        exact hports.get h₁ h₂
      refine Runs.forM (fun _ (t' : LowerState) => t'.symbols = t₁.symbols ∧
        ∃ N', Grew (Front q b₀ R₀ P o D k A B) N₁ t₁.builder N' t'.builder)
        (Memory.portFields m.depth m.dataType p.kind).zipIdx ⟨hy, N₂, hg₂⟩ ?_
      rintro done' ⟨field, position⟩ rest' t₃ hl' ⟨hy₃, N₃, hg₃⟩
      have hf : (Memory.portFields m.depth m.dataType p.kind)[position]? = some field := by
        have : (field, position) ∈ (Memory.portFields m.depth m.dataType p.kind).zipIdx := by
          rw [hl']
          simp
        exact List.mem_zipIdx_iff_getElem?.1 this
      have hg₁₃ := hg₁.trans hg₃
      refine (h.joinField_runs hps hg₃.holds hpp hf (hwire.mono hg₁₃.body fun _ => hg₁₃.mem)
        (fun e he => ⟨(hmem e he).1, (hmem e he).2.mono hg₃.body fun _ => hg₃.mem⟩) hm).mono ?_
      rintro _ t₄ ⟨hy₄, N₄, hg₄⟩
      exact ⟨hy₄.trans hy₃, N₄, hg₃.trans hg₄⟩
    rintro _ t₂ ⟨hy₂, N₂, hg₂⟩
    obtain ⟨⟨H, hH⟩, R, hR⟩ := hg₂.holds
    have hg₁₂ := hg₁.trans hg₂
    refine .pure (h.stepped hH hR ?_ (.refl _) hR.holds ?_ fun hmust => ?_)
    · rw [guardedBlocks_eq hop, hk]
      rfl
    · rw [hy₂]
      exact htr₁.persists hg₂.body.persists
    · have hspared' : Spared t₂.builder.body (o :: D) op m.ports.length :=
        hspared.extends hg₁₂.body fun x hx => by
          obtain ⟨-, R₁, hR₁⟩ := hF
          exact hR₁.holds.isSome (by simpa using .inr (.inr (List.mem_cons.1 hx)))
      obtain ⟨op', hop', -, hres', -⟩ := hR.persists.op? hop
      refine hR.not_resultRead (q.ordered_of_must hmust) hop' fun x hx v hv => ?_
      rw [hres'] at hv
      obtain ⟨i, hi⟩ := List.mem_iff_getElem?.1 hv
      have hlt := (List.getElem?_eq_some_iff.1 hi).1
      rw [houts.length_eq, Memory.portTypes, List.length_map] at hlt
      exact hspared' x hx i hlt v hi

end Start

end Scalarize
