import Scalarize.Proofs.Gauge.Split
import Scalarize.Proofs.Step.Memory

/-!
# Memories within a gauge

* `Memory.Within.port` : the wire of a port is within the limits;
* `Site.portWires_runs`, `Site.narrowMemory_runs`, `Site.joinField_runs` : the wires, the memories, and the
  connections between them;
* `Site.memory_runs` : a memory gives way to a bounded number of operations of lower rank.
-/

namespace Scalarize

open Body Lower

namespace Memory

variable {L : Limits} {m : Memory}

theorem length_portFields_le (depth : Nat) (data : Ty) (kind : PortKind) :
    (portFields depth data kind).length ≤ 7 := by
  cases kind <;> simp [portFields]

theorem breadth_portType_le (depth : Nat) (data : Ty) (kind : PortKind) :
    (portType depth data kind).breadth ≤ max 7 data.breadth := by
  cases kind <;> simp [portType, portFields, Ty.breadth, Ty.breadthFields] <;> omega

/-- The wire of a port of the data type, or of a part of it, is within the limits. -/
theorem Within.port (h : m.Within L) {t : Ty} (hb : t.breadth ≤ m.dataType.breadth)
    {d : Nat} (ht : t.depth + 1 ≤ d) (hle : d ≤ m.dataType.depth + 1) (depth : Nat) (kind : PortKind) :
    L.Holds (portType depth t kind) (.flat d) :=
  .flat (Nat.le_trans (depth_portType_le _ _ _) ht)
    (Nat.le_trans (breadth_portType_le _ _ _) (Nat.max_le.2 ⟨h.fields, Nat.le_trans hb h.breadth⟩))
    (Nat.le_trans hle h.depth)

theorem Within.narrow (h : m.Within L) {m' : Memory} {part : Part} (hc : m.dataType.child? part.index = some part.ty)
    (ht : m'.dataType = part.ty) (hp : m'.ports.map (·.kind) = m.ports.map (·.kind)) : m'.Within L where
  ports := by
    have := congrArg List.length hp
    rw [List.length_map, List.length_map] at this
    exact this ▸ h.ports
  fields := h.fields
  depth := by
    have := Ty.depth_lt_of_child? hc
    have := h.depth
    rw [ht]
    omega
  breadth := ht ▸ Nat.le_trans (Ty.breadth_le_of_child? hc) h.breadth

end Memory

namespace Builder.Site

variable {cx : Context} {L : Limits} {n d : Nat} {G : Gauge} {s : Builder} {t : LowerState} {o : OpId}
  {op : Operation} {m : Memory}

/-! ## Wires -/

/-- The wire of a port takes over its readers. -/
theorem portWire_runs (h : t.builder.Site cx L n G) (hop : t.builder.body.op? o = some op)
    (hres : ∀ r ∈ op.results, d ≤ (G.extent r).depth) {ty : Ty} (hty : L.Holds ty (.flat d)) (hn : d + 1 ≤ n)
    (name : String) (i : Nat) :
    Runs False (do
      let wire ← (Build.wire ty { name := some name } : Lower OpId)
      let value ← Lower.body (·.result wire 0)
      change fun b => do b.replaceAllUses (← b.result o i) value
      return value) t fun v t' => ∃ G', t.builder.body.Laid cx L n 1 G G' t'.builder.body ∧
        t.builder.body.Persists t'.builder.body ∧ t'.builder.point.block = t.builder.point.block ∧
        (t'.builder.body.ty? v).isSome ∧ G'.extent v ≤ .flat d := by
  refine Runs.bind_build (Build.create_any rfl _ _) ?_
  rintro wire s ⟨b, hc, rfl⟩
  refine Runs.bind_body (P := fun v => v = ⟨t.builder.body.values.size⟩) (result_ends (fun op' v hop' hv => ?_) nofun) ?_
  · obtain rfl := Option.some.inj (hc.op?_self.symm.trans hop')
    simpa using hv.symm
  rintro _ rfl
  obtain ⟨G', hg⟩ := h.made (p := .flat d) ⟨wire, b, hc, rfl, rfl⟩ hty fun r hr => by
    rw [List.mem_singleton.1 hr]
    exact hn
  refine Runs.bind_change (P := fun b' => b'.Gauged cx L G' ∧ Outlives b b' ∧ b.Persists b') ?_
    fun b' ⟨hb', hout, hper⟩ => .pure ⟨G', ?_⟩
  · refine Ends.bind (P := fun r => r ∈ op.results) (result_ends (fun op' r hop' hr => ?_) nofun) fun r hr => ?_
    · obtain rfl := Option.some.inj ((hc.op?_old hop).symm.trans hop')
      exact List.mem_of_getElem? hr
    have hle : G'.extent ⟨t.builder.body.values.size⟩ ≤ G'.extent r := by
      rw [hg.laid.extent (h.gauged.lt_of_mem_results hop hr)]
      exact Extent.le_trans hg.extent_le (Extent.flat_le (hres r hr))
    refine ((hg.laid.gauged.replaceAllUses_ends hle).and (replaceAllUses_any hg.laid.gauged.coherent.toExact)).mono ?_
    rintro b' ⟨⟨hb', hout⟩, rfl | ⟨-, -, -, hr⟩⟩
    · exact ⟨hb', hout, .refl _⟩
    · exact ⟨hb', hout, hr.persists⟩
  · exact ⟨hg.laid.trans (.of_outlives hb' hout), hg.body.persists.trans hper, rfl,
      Option.isSome_of_eq_some ((hout.ty? _).trans hg.type), hg.extent_le⟩

/-- Each port gives way to a wire. -/
theorem portWires_runs (h : t.builder.Site cx L n G) (hop : t.builder.body.op? o = some op)
    (hres : ∀ r ∈ op.results, m.dataType.depth + 1 ≤ (G.extent r).depth) (hm : m.Within L)
    (hn : m.dataType.depth + 2 ≤ n) :
    Runs False (portWires o m) t fun wires t' => ∃ G', t.builder.body.Laid cx L n L.breadth G G' t'.builder.body ∧
      t'.builder.point.block = t.builder.point.block ∧
      ∀ v ∈ wires, (t'.builder.body.ty? v).isSome ∧ G'.extent v ≤ .flat (m.dataType.depth + 1) := by
  refine (Runs.mapM (fun done wires (t' : LowerState) => ∃ G',
    t.builder.body.Laid cx L n done.length G G' t'.builder.body ∧ t.builder.body.Persists t'.builder.body ∧
    t'.builder.point.block = t.builder.point.block ∧
    ∀ v ∈ wires, (t'.builder.body.ty? v).isSome ∧ G'.extent v ≤ .flat (m.dataType.depth + 1)) m.ports.zipIdx
    ⟨G, .refl h.gauged, .refl _, rfl, by simp⟩ ?_).mono ?_
  · rintro done ⟨p, i⟩ rest wires t' - ⟨G', hl, hper, hp, hwires⟩
    obtain ⟨op', hop', -, hres', -⟩ := hper.op? hop
    refine ((h.laid hl hp).portWire_runs hop' (fun r hr => ?_) (hm.port (Nat.le_refl _) (Nat.le_refl _)
      (Nat.le_refl _) m.depth p.kind) hn _ i).mono ?_
    · rw [hres'] at hr
      rw [hl.extent (h.gauged.lt_of_mem_results hop hr)]
      exact hres r hr
    rintro v t'' ⟨G'', hl', hper', hp', hv, hle⟩
    refine ⟨G'', by simpa using hl.trans hl', hper.trans hper', hp'.trans hp, fun w hw => ?_⟩
    rcases List.mem_append.1 hw with hw | hw
    · obtain ⟨hsome, hle⟩ := hwires w hw
      obtain ⟨tw, htw⟩ := Option.isSome_iff_exists.1 hsome
      rw [hl'.ty? htw, hl'.extent (lt_of_ty? htw)]
      exact ⟨rfl, hle⟩
    · obtain rfl := List.mem_singleton.1 hw
      exact ⟨hv, hle⟩
  · rintro wires t' ⟨G', hl, -, hp, hwires⟩
    rw [List.length_zipIdx] at hl
    exact ⟨G', hl.mono (Nat.le_refl _) hm.ports, hp, hwires⟩

/-! ## Memories of parts -/

/-- The results of the operation have no more than `d` layers. -/
def Shallow (d : Nat) (G : Gauge) (s : Builder) (x : OpId) : Prop :=
  ∃ op, s.body.op? x = some op ∧ ∀ v ∈ op.results, G.extent v ≤ .flat d

theorem Shallow.lays {x : OpId} {c : Nat} {G' : Gauge} {s' : Builder} (hx : Shallow d G s x) (h : s.body.Gauged cx L G)
    (hl : s.Lays cx L n c G G' s') : Shallow d G' s' x := by
  obtain ⟨op, hop, hle⟩ := hx
  obtain ⟨op', hop', -, -, hres, -⟩ := hl.body.op? hop
  refine ⟨op', hop', fun v hv => ?_⟩
  rw [hres] at hv
  rw [hl.laid.extent (h.lt_of_mem_results hop hv)]
  exact hle v hv

/-- The memory of a part is made. -/
theorem narrowMemory_runs (h : t.builder.Site cx L n G) (hm : m.Within L) (hn : m.dataType.depth + 2 ≤ n) {part : Part}
    (hc : m.dataType.child? part.index = some part.ty) :
    Runs False (narrowMemory m part) t fun x t' => ∃ G', t.builder.Lays cx L n 1 G G' t'.builder ∧
      Shallow m.dataType.depth G' t'.builder x := by
  have hlt := Ty.depth_lt_of_child? hc
  refine Runs.bind_except (Memory.narrow_ends nofun) fun m' ⟨_, ht, hkinds⟩ => ?_
  refine Runs.bind_build (Build.create_any rfl _ _) ?_
  rintro x s ⟨b, hcr, rfl⟩
  have hl := h.created hcr (fun _ => .flat m.dataType.depth) (fun i ty hty => ?_) ⟨hm.narrow hc ht hkinds, ?_, ?_⟩
  rotate_left
  · rw [Memory.portTypes, List.getElem?_map, Option.map_eq_some_iff] at hty
    obtain ⟨p, -, rfl⟩ := hty
    rw [ht]
    exact hm.port (Ty.breadth_le_of_child? hc) hlt (Nat.le_succ _) _ _
  · rw [ht]
    omega
  · intro r hr
    obtain ⟨e, -, rfl⟩ := List.mem_map.1 hr
    rw [ht]
    exact hlt
  have hx : Shallow m.dataType.depth (G.extend t.builder.body (fun _ => .flat m.dataType.depth) n)
      (t.builder.after b) x := by
    refine ⟨_, hcr.op?_self, fun v hv => ?_⟩
    obtain ⟨j, -, rfl⟩ := List.mem_map.1 hv
    rw [Gauge.extent_new]
    exact Extent.le_refl _
  split
  next base _ =>
    refine Runs.bind (Runs.mint (Q := fun _ t' => t'.builder = t.builder.after b) rfl) ?_
    rintro sym ⟨_, y⟩ rfl
    refine Runs.bind (Runs.change (.pure ⟨_, hl.declared x _, ?_⟩)) fun _ _ h => .pure h
    obtain ⟨op', hop', hle⟩ := hx
    obtain ⟨kind, hop'', -⟩ := op?_modifyDecl_some hop'
    exact ⟨_, hop'', hle⟩
  next => exact .pure ⟨_, hl, hx⟩

/-! ## Connections -/

/-- One field of a wire is connected with the same field, or with a part of it, of each memory. -/
theorem joinField_runs (h : t.builder.Site cx L n G) (hn : d + 1 ≤ n) {wire : ValueId}
    (hle : G.extent wire ≤ .flat (d + 1)) {memories : List (Part × OpId)}
    (hmem : ∀ e ∈ memories, Shallow d G t.builder e.2) (port : Nat) (field : Field) (position : Nat) :
    Runs False (joinField wire port memories field position) t fun _ t' => ∃ G',
      t.builder.Lays cx L n (1 + memories.length * 3) G G' t'.builder := by
  have hconnect {c : Nat} {G₀ G' : Gauge} {s₀ s : Builder} (hl : s₀.Lays cx L n c G₀ G' s) (hs : s.Site cx L n G')
      {v w : ValueId} (hv : G'.extent v ≤ ⟨0, d, 2⟩) (hw : G'.extent w ≤ ⟨0, d, 2⟩) :
      Runs False (Build.connect true v w) s fun _ s' => ∃ G'', s₀.Lays cx L n (c + 1) G₀ G'' s' := by
    refine (hs.connect_runs true (Nat.le_trans (L.connectRank_mono hv hw) ?_)).mono fun _ s' ⟨G'', hl'⟩ =>
      ⟨G'', hl.trans hl'⟩
    show (0 + 0) * (L.depth + 2) + max d d + 1 ≤ n
    rw [Nat.max_self, Nat.zero_mul]
    omega
  refine Runs.bind_build (Build.subfield_any wire position) fun whole s₁ hm₁ => ?_
  obtain ⟨G₁, _, c₁, _, _, hg₁⟩ := h.madePart hm₁
  have hwhole : G₁.extent whole ≤ ⟨0, d, 1⟩ := Extent.le_trans hg₁.extent_le (Extent.part_mono hle)
  have hs₁ := h.lays hg₁.toLays
  refine (Runs.forM (fun done t' => ∃ G', s₁.Lays cx L n (done.length * 3) G₁ G' t'.builder) memories
    ⟨G₁, .refl hs₁.gauged⟩ ?_).mono fun _ t' ⟨G', hl⟩ => ⟨G', hg₁.toLays.trans hl⟩
  rintro done ⟨part, x⟩ rest ⟨s, y⟩ hlist ⟨G', hl⟩
  have hs := hs₁.lays hl
  have hx : Shallow d G' s x := (hmem _ (hlist ▸ List.mem_append_right _ List.mem_cons_self)).lays h.gauged
    (hg₁.toLays.trans hl)
  have hwhole' : G'.extent whole ≤ ⟨0, d, 1⟩ := by
    rw [hl.extent hg₁.type]
    exact hwhole
  -- the same field of the port of the memory
  have hfield {c : Nat} {G₂ : Gauge} {s₂ : Builder} (hl₂ : s.Lays cx L n c G' G₂ s₂)
      {g : ValueId → Lower Unit} {Q : Unit → LowerState → Prop}
      (hg : ∀ {v G₃ s₃}, s₂.Lays cx L n 1 G₂ G₃ s₃ → G₃.extent v ≤ ⟨0, d, 2⟩ → Runs False (g v) ⟨s₃, y⟩ Q) :
      Runs False (do
        let newPort ← Lower.body (·.result x port)
        let newField ← (Build.subfield newPort position : Lower ValueId)
        g newField) ⟨s₂, y⟩ Q := by
    obtain ⟨op, hop, hports⟩ := hx.lays hs.gauged hl₂
    refine Runs.bind_body (P := fun v => G₂.extent v ≤ .flat d) (result_ends (fun op' v hop' hv => ?_) nofun)
      fun newPort hport => Runs.bind_build (Build.subfield_any newPort position) fun v s₃ hm => ?_
    · obtain rfl := Option.some.inj (hop.symm.trans hop')
      exact hports v (List.mem_of_getElem? hv)
    obtain ⟨G₃, _, _, _, _, hg₃⟩ := (hs.lays hl₂).madePart hm
    refine hg hg₃.toLays (Extent.le_trans hg₃.extent_le ?_)
    exact Extent.le_trans (Extent.part_mono hport) ⟨Nat.le_refl _, Nat.sub_le _ _, Nat.le_succ 1⟩
  have hlast {c : Nat} (hc : c + 2 ≤ 3) {G₂ G₃ : Gauge} {s₂ s₃ : Builder} (hl₂ : s.Lays cx L n c G' G₂ s₂)
      (hl₃ : s₂.Lays cx L n 1 G₂ G₃ s₃) {v w : ValueId} (hv : G₃.extent v ≤ ⟨0, d, 2⟩) (hw : G₃.extent w ≤ ⟨0, d, 2⟩) :
      Runs False (Build.connect true v w) s₃ fun _ s' =>
        ∃ G'', s₁.Lays cx L n ((done ++ [(part, x)]).length * 3) G₁ G'' s' := by
    have hboth := hl₂.trans hl₃
    refine (hconnect hboth (hs.lays hboth) hv hw).mono fun _ s' ⟨G'', hl'⟩ => ⟨G'', ?_⟩
    rw [List.length_append, Nat.add_mul]
    exact hl.trans (hl'.mono (Nat.le_refl _) hc)
  dsimp only
  split
  · refine Runs.bind_build (hs.part_runs whole part.index) ?_
    rintro leaf s₂ ⟨G₂, _, _, _, _, hg₂⟩
    refine hfield hg₂.toLays fun {v G₃ s₃} hl₃ hv => ?_
    have hleaf : G₃.extent leaf ≤ ⟨0, d, 2⟩ := by
      rw [hl₃.extent hg₂.type]
      refine Extent.le_trans hg₂.extent_le (Extent.le_trans (Extent.part_mono hwhole') ?_)
      exact ⟨Nat.le_refl _, Nat.sub_le _ _, Nat.le_refl _⟩
    split
    · exact Runs.bind_build (hlast (Nat.le_refl _) hg₂.toLays hl₃ hleaf hv) fun _ _ h => .pure h
    · exact Runs.bind_build (hlast (Nat.le_refl _) hg₂.toLays hl₃ hv hleaf) fun _ _ h => .pure h
  · refine hfield (Lays.refl hs.gauged) fun {v G₃ s₃} hl₃ hv => ?_
    have hwhole₃ : G₃.extent whole ≤ ⟨0, d, 2⟩ := by
      rw [hl₃.extent (hl.laid.ty? hg₁.type)]
      exact Extent.le_trans hwhole' ⟨Nat.le_refl _, Nat.le_refl _, Nat.le_succ 1⟩
    exact Runs.bind_build (hlast (Nat.le_succ 2) (Lays.refl hs.gauged) hl₃ hv hwhole₃) fun _ _ h => .pure h

/-- A memory of aggregates gives way within the gauge. -/
theorem memory_runs (h : t.builder.Site cx L n G) (hop : t.builder.body.op? o = some op) (hk : op.kind = .mem m)
    (hfits : op.InGauge cx L G.extent t.builder.body.ty? (n + 1)) :
    Runs False (Lower.memory o m) t fun _ t' => ∃ G',
      t.builder.body.Laid cx L n (L.breadth + L.breadth + L.breadth * (7 * (1 + L.breadth * 3))) G G' t'.builder.body := by
  unfold Operation.InGauge at hfits
  rw [hk] at hfits
  obtain ⟨hm, hrank, hres⟩ := hfits
  have hn : m.dataType.depth + 2 ≤ n := Nat.le_of_succ_le_succ hrank
  refine Runs.bind_except (Ty.peel_ends nofun) fun ps? hps => ?_
  split
  next parts =>
    have hps : m.dataType.PartsOf parts := hps.1
    have hlen := Nat.le_trans hps.length_le hm.breadth
    refine (h.portWires_runs hop (fun r hr => hres _ (List.mem_map_of_mem hr)) hm hn).bind ?_
    rintro wires t₁ ⟨G₁, hl₁, hp₁, hwires⟩
    have hs₁ := h.laid hl₁ hp₁
    refine Runs.bind (Runs.mapM (fun done (memories : List (Part × OpId)) t' => ∃ G',
      t₁.builder.Lays cx L n done.length G₁ G' t'.builder ∧ memories.length = done.length ∧
      ∀ e ∈ memories, Shallow m.dataType.depth G' t'.builder e.2) parts ⟨G₁, .refl hs₁.gauged, rfl, by simp⟩ ?_) ?_
    · rintro done part rest memories t' hlist ⟨G', hl, hcount, hmem⟩
      have hc := hps.child_index (hlist ▸ List.mem_append_right _ List.mem_cons_self)
      refine ((hs₁.lays hl).narrowMemory_runs hm hn hc).bind fun x t'' ⟨G'', hl', hx⟩ => .pure ⟨G'', ?_, ?_, ?_⟩
      · simpa using hl.trans hl'
      · simp [hcount]
      · refine List.forall_mem_append.2 ⟨fun e he => (hmem e he).lays hl.laid.gauged hl', ?_⟩
        exact List.forall_mem_singleton.2 hx
    rintro memories t₂ ⟨G₂, hl₂, hcount, hmem⟩
    have hs₂ := hs₁.lays hl₂
    refine Runs.bind (Runs.forM (fun done t' => ∃ G',
      t₂.builder.Lays cx L n (done.length * (7 * (1 + L.breadth * 3))) G₂ G' t'.builder) _
      ⟨G₂, (Lays.refl hs₂.gauged).mono (Nat.le_refl _) (Nat.zero_le _)⟩ ?_) ?_
    · rintro done ⟨⟨wire, p⟩, port⟩ rest t' hlist ⟨G', hl⟩
      obtain ⟨hsome, hwire⟩ := hwires wire (List.of_mem_zip (List.mem_zipIdx'
        (hlist ▸ List.mem_append_right _ List.mem_cons_self) |>.2 ▸ List.getElem_mem _)).1
      obtain ⟨tw, htw⟩ := Option.isSome_iff_exists.1 hsome
      refine (Runs.forM (fun done' t'' => ∃ G'', t'.builder.Lays cx L n (done'.length * (1 + L.breadth * 3)) G' G''
        t''.builder) (Memory.portFields m.depth m.dataType p.kind).zipIdx
        ⟨G', (Lays.refl hl.laid.gauged).mono (Nat.le_refl _) (Nat.zero_le _)⟩ ?_).mono ?_
      · rintro done' ⟨field, position⟩ rest' t'' - ⟨G'', hl'⟩
        have hall := hl.trans hl'
        refine (((hs₂.lays hl).lays hl').joinField_runs (d := m.dataType.depth) (Nat.le_of_succ_le hn) ?_
          (fun e he => (hmem e he).lays hs₂.gauged hall) port field position).mono ?_
        · rw [hall.extent (hl₂.laid.ty? htw), hl₂.extent htw]
          exact hwire
        · rintro _ t₃ ⟨G₃, hl₃⟩
          refine ⟨G₃, ?_⟩
          rw [List.length_append, Nat.add_mul]
          refine hl'.trans (hl₃.mono (Nat.le_refl _) ?_)
          rw [List.length_singleton, Nat.one_mul, hcount]
          omega
      · rintro _ t'' ⟨G'', hl'⟩
        refine ⟨G'', ?_⟩
        have := Memory.length_portFields_le m.depth m.dataType p.kind
        rw [List.length_append, Nat.add_mul]
        refine hl.trans (hl'.mono (Nat.le_refl _) ?_)
        rw [List.length_zipIdx, List.length_singleton, Nat.one_mul]
        exact Nat.mul_le_mul_right _ this
    · rintro _ t' ⟨G', hl⟩
      refine .pure ⟨G', ((hl₁.trans hl₂.laid).trans hl.laid).mono (Nat.le_refl _) ?_⟩
      have hports : (wires.zip m.ports).zipIdx.length ≤ L.breadth := by
        rw [List.length_zipIdx, List.length_zip]
        exact Nat.le_trans (Nat.min_le_right _ _) hm.ports
      exact Nat.add_le_add (Nat.add_le_add_left hlen _) (Nat.mul_le_mul_right _ hports)
  next => exact .pure ⟨G, (Laid.refl h.gauged).mono (Nat.le_refl _) (Nat.zero_le _)⟩

end Builder.Site

end Scalarize
