import Scalarize.Lower.Instance
import Scalarize.Proofs.Step.Memory

/-!
# Instances

* `InstancePort.Splits`, `InstancePort.split_ends` : what becomes of one port;
* `Lowering.handOver_ends` : the readers of the former results read the new ones;
* `Start.inst_runs` : instances with ports that are split give way, others stay.
-/

namespace Scalarize

open Body Lower

/-! ## Ports -/

namespace InstancePort

variable {must : Prop} {p : InstancePort} {ty : Ty} {keep : Bool} {s : SplitPort}

/-- A port stays whole, or there is one port for each part. -/
inductive Splits (p : InstancePort) (ty : Ty) (keep : Bool) : SplitPort → Prop
  | whole (h : ty.isGround ∨ keep = true ∧ ty.preservable) : Splits p ty keep ⟨[p], [ty], false, false⟩
  | parts {ps : List Part} {ports : List InstancePort} {needsSym : Bool} (hps : ty.PartsOf ps)
      (hk : ¬(keep = true ∧ ty.preservable))
      (hports : List.Forall₂ (fun part new => ∃ annotations, new = p.part part annotations) ps ports) :
      Splits p ty keep ⟨ports, ps.map (·.ty), true, needsSym⟩

theorem Splits.length_eq (h : Splits p ty keep s) : s.types.length = s.ports.length := by
  cases h with
  | whole => rfl
  | parts _ _ hports => rw [List.length_map, hports.length_eq]

/-- Only aggregates that are not kept are split. -/
theorem Splits.aggregate (h : Splits p ty keep s) (hs : s.changed = true) :
    ty.isGround = false ∧ ¬(keep = true ∧ ty.preservable) := by
  cases h with
  | whole => cases hs
  | parts hps hk => exact ⟨hps.aggregate, hk⟩

/-- What a port is split into is no larger, and less deep where it is not kept. -/
theorem Splits.bound (h : Splits p ty keep s) {d r : Nat} (hty : ty.lastId?.isSome ∧ ty.depth ≤ d)
    (hr : ¬(keep = true ∧ ty.preservable) → ty.depth ≤ r) {t : Ty} (ht : t ∈ s.types) :
    (t.lastId?.isSome ∧ t.depth ≤ d) ∧ (¬(keep = true ∧ t.preservable) → t.depth ≤ r - 1) := by
  cases h with
  | whole hw =>
    obtain rfl := List.mem_singleton.1 ht
    refine ⟨hty, fun hk => ?_⟩
    rw [Ty.depth_of_isGround (hw.resolve_right hk)]
    exact Nat.zero_le _
  | parts hps hk =>
    obtain ⟨part, hp, rfl⟩ := List.mem_map.1 ht
    have hlt := hps.depth_lt hp
    have := hr hk
    exact ⟨⟨Ty.isSome_lastId?_child hty.1 (hps.child_index hp), by omega⟩, fun _ => by omega⟩

theorem split_ends (hm : must → Annotated p.annotations ty) :
    Ends must (p.split ty keep) fun s => Splits p ty keep s ∧
      (must → List.Forall₂ (fun (p : InstancePort) t => Annotated p.annotations t) s.ports s.types) := by
  unfold split
  refine (Ty.peel_ends fun hmust => (hm hmust).isSome).bind fun r hr => ?_
  cases r with
  | none => exact .pure ⟨.whole hr, fun hmust => .cons (hm hmust) .nil⟩
  | some ps =>
    obtain ⟨hps, hk⟩ := hr
    refine (Ends.mapM (fun (part : Part) r => must → Annotated r.annotations part.ty) ps
      fun part hp => restrict_ends fun hmust =>
        ⟨hm hmust, hps.child_index hp, hps.fieldId_index hp⟩).bind fun rs hrs => .pure ⟨.parts hps hk ?_,
          fun hmust => ?_⟩
    · clear hk hps
      induction hrs with
      | nil => exact .nil
      | cons _ _ ih => exact .cons ⟨_, rfl⟩ ih
    · clear hk hps
      induction hrs with
      | nil => exact .nil
      | cons h _ ih => exact .cons (h hmust) ih

end InstancePort

/-! ## Results -/

/-- The readers of one former result read the new ones. -/
def Body.handOne (b : Body) (e : ValueId × SplitPort) (mine : List ValueId) : Except Failure Body :=
  match mine with
  | [v] => do if e.2.types = [← b.typeOf e.1] then b.replaceAllUses e.1 v else b.rewire e.1 mine
  | _ => b.rewire e.1 mine

theorem Body.handOver_cons (e : ValueId × SplitPort) (rest : List (ValueId × SplitPort))
    (new : List ValueId) (b : Body) : Body.handOver (e :: rest) new b =
      b.handOne e (new.take e.2.types.length) >>=
        Body.handOver rest (new.drop e.2.types.length) := by
  obtain ⟨old, s⟩ := e
  unfold Body.handOver
  generalize new.take s.types.length = mine
  unfold Body.handOne
  match mine with
  | [v] =>
    dsimp only
    rw [bind_assoc]
    congr 1
    funext ty
    split <;> rfl
  | [] | _ :: _ :: _ => rfl

/-- What becomes of a result that was an instance's port. -/
structure Body.Shares (b : Body) (o : OpId) (keep : Bool) (e : ValueId × SplitPort) : Prop where
  origin : ∃ i, b.origin? e.1 = some (.result o i)
  splits : ∃ p ty, b.ty? e.1 = some ty ∧ InstancePort.Splits p ty keep e.2

theorem Body.Shares.outlives {b b' : Body} {o : OpId} {keep : Bool} {e : ValueId × SplitPort}
    (h : b.Shares o keep e) (hb : Outlives b b') : b'.Shares o keep e where
  origin := by
    obtain ⟨i, hi⟩ := h.origin
    exact ⟨i, by rw [hb.origin?, hi]⟩
  splits := by
    obtain ⟨p, ty, hty, hs⟩ := h.splits
    exact ⟨p, ty, by rw [hb.ty?, hty], hs⟩

namespace Lowering

variable {q : Setting} {b : Body} {R : OpId → Nat} {Q D : List OpId} {o : OpId} {keep : Bool}

/-- The new results that stand for a former one. -/
structure Stands (b : Body) (Q : List OpId) (w : ValueId) : Prop where
  made : ∃ d ∈ Q, ∃ i op, b.origin? w = some (.result d i) ∧ b.op? d = some op ∧ op.erased = false ∧
    op.kind.fixedIndex? = none

theorem stands_ne (h : Lowering q b R Q [o] D) {v w : ValueId} {i : Nat} (hw : Stands b Q w)
    (hv : b.origin? v = some (.result o i)) : w ≠ v := by
  rintro rfl
  obtain ⟨d, hd, j, -, hr, -⟩ := hw.made
  rw [hv] at hr
  obtain ⟨rfl, -⟩ : o = d ∧ i = j := by simpa using hr
  have := h.nodup
  rw [List.nodup_append, List.nodup_append] at this
  exact this.1.2.2 o hd o (List.mem_singleton_self o) rfl

theorem Stands.handed {b' : Body} {v w : ValueId} {parts : List ValueId} (h : Stands b Q w)
    (hb : Handed b v parts b') : Stands b' Q w where
  made := by
    obtain ⟨d, hd, i, op, hr, hop, he, hk⟩ := h.made
    obtain ⟨op', hop', he'⟩ := hb.stands hop hk he
    obtain ⟨op'', hop'', hk'', -⟩ := hb.outlives.op?_some hop
    rw [hop'] at hop''
    obtain rfl := Option.some.inj hop''
    exact ⟨d, hd, i, op', by rw [hb.outlives.origin?, hr], hop', he', by rw [hk'', hk]⟩

/-- The readers of one former result read the new ones. -/
theorem handOne_ends (h : Lowering q b R Q [o] D) {op : Operation} (hop : b.op? o = some op)
    (hacc : op.kind.fixedIndex? = none) {e : ValueId × SplitPort} (he : b.Shares o keep e)
    {mine : List ValueId} (hmine : b.Types mine e.2.types) (hst : ∀ w ∈ mine, Stands b Q w)
    (hquiet : q.ordered → ∀ x ∈ Q ++ [o], ¬b.Reads x e.1) :
    Ends q.must (b.handOne e mine) fun b' => Lowering q b' R Q [o] D ∧ Handed b e.1 mine b' := by
  obtain ⟨⟨i, hi⟩, p, ty, hty, hs⟩ := he
  have hne : ∀ w ∈ mine, w ≠ e.1 := fun w hw => h.stands_ne (hst w hw) hi
  have hrewire : e.2.types ≠ [ty] → Ends q.must (b.rewire e.1 mine) fun b' =>
      Lowering q b' R Q [o] D ∧ Handed b e.1 mine b' := by
    intro htypes
    cases hs' : e.2 with
    | mk ports types changed needsSym =>
    rw [hs'] at hs hmine htypes
    cases hs with
    | whole => exact absurd rfl htypes
    | parts hps hk hports =>
      refine h.rewire_ends
        { ty := hty
          partsOf := hps
          types := (List.forall₂_map_right_iff.1 hmine).flip
          ne := hne
          stands := fun w hw {d j} hr => ?_
          own := fun {d j op'} hr hop' => ?_
          away := fun z hz {op'} hop' => ?_
          ordered := fun hord => ⟨hquiet hord, fun w hw => ?_⟩ }
      · obtain ⟨d', -, j', op', hr', hop', he', hk'⟩ := (hst w hw).made
        rw [hr] at hr'
        obtain ⟨rfl, -⟩ : d = d' ∧ j = j' := by simpa using hr'
        exact ⟨op', hop', he', hk'⟩
      · rw [hi] at hr
        obtain ⟨rfl, -⟩ : o = d ∧ i = j := by simpa using hr
        rw [hop] at hop'
        rw [← Option.some.inj hop', hacc]
      · rw [List.mem_singleton.1 hz, hop] at hop'
        rw [← Option.some.inj hop', hacc]
      · obtain ⟨d, hd, j, -, hr, -⟩ := (hst w hw).made
        exact .inr ⟨d, hd, j, hr⟩
  unfold Body.handOne
  split
  next v =>
    refine (typeOf_ends (Q := (ty = ·)) (fun t ht => ?_) fun _ => by rw [hty]; rfl).bind ?_
    · rw [hty] at ht
      exact Option.some.inj ht
    rintro _ rfl
    split
    next htypes =>
      rw [htypes] at hmine
      obtain ⟨w, hw, hws⟩ := hmine.singleton
      obtain rfl : v = w := by simpa using hws
      refine (h.replaceAllUses_ends (hne v (by simp)).symm hty hw (.refl ty) (fun {d j op'} hr hop' => ?_)
        fun hord => ⟨fun x hx => hquiet hord x (List.mem_append_left _ hx), ?_⟩).mono
          fun b' ⟨hlow, hrep⟩ => ⟨hlow, .of_replaced hrep (hne v (by simp)).symm⟩
      · obtain ⟨d', -, j', op'', hr', hop'', he', -⟩ := (hst v (by simp)).made
        rw [hr] at hr'
        obtain ⟨rfl, -⟩ : d = d' ∧ j = j' := by simpa using hr'
        rw [hop'] at hop''
        rw [Option.some.inj hop'', he']
      · obtain ⟨d, hd, j, -, hr, -⟩ := (hst v (by simp)).made
        exact .inr ⟨d, hd, j, hr⟩
    next htypes => exact hrewire htypes
  next hnot =>
    refine hrewire fun htypes => ?_
    rw [htypes] at hmine
    obtain ⟨w, -, rfl⟩ := hmine.singleton
    exact hnot w rfl

/-- The readers of all former results read the new ones. -/
theorem handOver_ends {splits : List (ValueId × SplitPort)} : ∀ {b : Body} {new : List ValueId}
    {op : Operation} (_ : Lowering q b R Q [o] D) (_ : b.op? o = some op)
    (_ : op.kind.fixedIndex? = none) (_ : ∀ e ∈ splits, b.Shares o keep e)
    (_ : b.Types new (splits.flatMap (·.2.types))) (_ : ∀ w ∈ new, Stands b Q w)
    (_ : q.ordered → ∀ e ∈ splits, ∀ x ∈ Q ++ [o], ¬b.Reads x e.1),
    Ends q.must (Body.handOver splits new b) fun b' => Lowering q b' R Q [o] D ∧ Outlives b b' ∧
      (∀ e ∈ splits, ∀ x, ¬b'.Reads x e.1) ∧ ∀ {w x}, w ∉ new → b'.Reads x w → b.Reads x w := by
  induction splits with
  | nil => exact fun h _ _ _ _ _ _ => .pure ⟨h, .refl _, by simp, fun _ hx => hx⟩
  | cons e splits ih =>
    intro b new op h hop hacc hs hnew hst hquiet
    rw [List.flatMap_cons] at hnew
    have hmine : b.Types (new.take e.2.types.length) e.2.types := List.forall₂_take_append _ _ _ hnew
    have hrest : b.Types (new.drop e.2.types.length) (splits.flatMap (·.2.types)) :=
      List.forall₂_drop_append _ _ _ hnew
    have hone := h.handOne_ends hop hacc (hs e List.mem_cons_self) hmine
      (fun w hw => hst w (List.mem_of_mem_take hw)) fun hord => hquiet hord e List.mem_cons_self
    have hne : ∀ e' ∈ e :: splits, e'.1 ∉ new := fun e' he' hmem => by
      obtain ⟨i, hi⟩ := (hs e' he').origin
      exact h.stands_ne (hst _ hmem) hi rfl
    rw [Body.handOver_cons]
    refine hone.bind fun b₁ ⟨h₁, hh⟩ => ?_
    obtain ⟨op₁, hop₁, hk₁, -⟩ := hh.outlives.op?_some hop
    refine (ih h₁ hop₁ (by rw [hk₁, hacc]) (fun e' he' => (hs e' (List.mem_cons_of_mem _ he')).outlives
      hh.outlives) (hrest.imp fun w t hw => by rw [hh.outlives.ty?, hw])
      (fun w hw => (hst w (List.mem_of_mem_drop hw)).handed hh) fun hord e' he' x hx hread =>
        hquiet hord e' (List.mem_cons_of_mem _ he') x hx (hh.reads (fun hmem =>
          hne e' (List.mem_cons_of_mem _ he') (List.mem_of_mem_take hmem)) hread)).mono ?_
    rintro b' ⟨h', hout, hun, hreads⟩
    refine ⟨h', hh.outlives.trans hout, fun e' he' x hx => ?_, fun {w x} hw hx =>
      hh.reads (fun hmem => hw (List.mem_of_mem_take hmem))
        (hreads (fun hmem => hw (List.mem_of_mem_drop hmem)) hx)⟩
    rcases List.mem_cons.1 he' with rfl | he'
    · exact hh.unread x (hreads (fun hmem => hne e' List.mem_cons_self (List.mem_of_mem_drop hmem)) hx)
    · exact hun e' he' x hx

end Lowering

theorem Body.mem_of_types {b : Body} {vs : List ValueId} {ts : List Ty} {v : ValueId} {t : Ty}
    (h : b.Types vs ts) (hv : v ∈ vs) (ht : b.ty? v = some t) : t ∈ ts := by
  obtain ⟨t', ht', hvt⟩ := exists_of_forall₂ h.flip hv
  rw [ht] at hvt
  rwa [Option.some.inj hvt]

namespace Start

variable {q : Setting} {b₀ : Body} {R₀ : OpId → Nat} {P D : List OpId} {o : OpId} {k : BlockId}
  {A B : List OpId} {op : Operation} {y : Symbols} {i : Instance} {keep : Bool}

/-- What becomes of the result that a port has. -/
def SplitAs (must : Prop) (b : Body) (keep : Bool) (e : InstancePort × ValueId)
    (s : ValueId × SplitPort) : Prop :=
  s.1 = e.2 ∧ ∃ ty, b.ty? e.2 = some ty ∧ InstancePort.Splits e.1 ty keep s.2 ∧
    (must → List.Forall₂ (fun (p : InstancePort) t => Annotated p.annotations t) s.2.ports s.2.types)

/-- All ports of an instance are split by one layer. -/
theorem splitPorts_runs (h : Start q b₀ R₀ P o D k A B) (hop : b₀.op? o = some op)
    (he : op.erased = false) (hk : op.kind = .inst i) {t : LowerState} (ht : t.builder.body = b₀) :
    Runs q.must ((i.ports.zip op.results).mapM fun (p, v) => do
      let ty ← body (·.typeOf v)
      return (v, ← p.split ty keep)) t fun splits t' => t' = t ∧
        List.Forall₂ (SplitAs q.must b₀ keep) (i.ports.zip op.results) splits := by
  obtain ⟨ins, outs, hins, houts, hsh⟩ := h.shaped hop he
  refine Runs.mapM (fun done splits t' => t' = t ∧ List.Forall₂ (SplitAs q.must b₀ keep) done splits)
    _ ⟨rfl, .nil⟩ ?_
  rintro done ⟨p, v⟩ rest splits t' hl ⟨rfl, hsplits⟩
  have hz : (i.ports.zip op.results)[done.length]? = some (p, v) := by
    rw [hl]
    simp
  obtain ⟨hp, hv⟩ := List.getElem?_zip_eq_some.1 hz
  obtain ⟨ty, hty, hvty⟩ := houts.getElem? hv
  refine Body.bind_typeOf ((congrArg (·.ty? v) ht).trans hvty) ?_
  refine Runs.bind_except (InstancePort.split_ends fun hm => ?_) fun s hs =>
    .pure ⟨rfl, List.rel_append hsplits (.cons ⟨rfl, ty, hvty, hs⟩ .nil)⟩
  obtain ⟨⟨⟨ins', hins', hck⟩, -⟩, -⟩ := h.ready hm hop he houts
  rw [hk] at hck
  obtain ⟨hp', rfl⟩ := List.getElem?_eq_some_iff.1 hp
  obtain ⟨ht', rfl⟩ := List.getElem?_eq_some_iff.1 hty
  exact hck.2.2.get hp' ht'

/-- An instance without a port to split stays. -/
theorem inst_kept (h : Start q b₀ R₀ P o D k A B) (htr : b₀.Tracked y) (hop : b₀.op? o = some op)
    (he : op.erased = false) (hk : op.kind = .inst i) {entry : ModuleEntry}
    (hentry : q.cx.modules.get? i.moduleName = some entry) {splits : List (ValueId × SplitPort)}
    (hsplits : List.Forall₂ (SplitAs q.must b₀ (q.cx.options.portsMayPreserve entry))
      (i.ports.zip op.results) splits) (hchanged : ∀ s ∈ splits, s.2.changed = false) :
    Stepped q.must (Lowering.stage q) b₀ R₀ k A o B P D false ⟨⟨b₀, ⟨k, A.length⟩⟩, y⟩ := by
  obtain ⟨ins, outs, hins, houts, hsh⟩ := h.shaped hop he
  refine h.kept rfl htr (fun {op'} hop' _ => ?_) fun hm {op' v tv} hop' hv htv hg => ?_
  · rw [hop] at hop'
    obtain rfl := Option.some.inj hop'
    refine ⟨ins, outs, hins, houts, hsh, ?_⟩
    rw [hk]
    refine ⟨entry, hentry, fun e hmem => ?_⟩
    obtain ⟨j, hj⟩ := List.mem_iff_getElem?.1 hmem
    obtain ⟨hp, ht⟩ := List.getElem?_zip_eq_some.1 hj
    obtain ⟨v, hv⟩ : ∃ v, op.results[j]? = some v := by
      have hlt := (List.getElem?_eq_some_iff.1 ht).1
      rw [← houts.length_eq] at hlt
      exact ⟨_, List.getElem?_eq_getElem hlt⟩
    have hz : (i.ports.zip op.results)[j]? = some (e.1, v) := List.getElem?_zip_eq_some.2 ⟨hp, hv⟩
    obtain ⟨hj', hz'⟩ := List.getElem?_eq_some_iff.1 hz
    have hj'' : j < splits.length := hsplits.length_eq ▸ hj'
    obtain ⟨-, ty, hty, hs, -⟩ := hsplits.get hj' hj''
    have hun := hchanged splits[j] (List.getElem_mem hj'')
    simp only [List.get_eq_getElem, hz'] at hs hty
    obtain ⟨t', ht', hvt⟩ := houts.getElem? hv
    rw [hty] at hvt
    obtain rfl := Option.some.inj hvt
    rw [ht] at ht'
    obtain rfl := Option.some.inj ht'
    generalize splits[j].2 = s at hs hun
    cases hs with
    | whole hw => exact hw
    | parts => cases hun
  · rw [hop] at hop'
    obtain rfl := Option.some.inj hop'
    rw [hk] at hsh
    rw [hsh.1] at hins
    rw [List.forall₂_nil_right_iff.1 hins] at hv
    cases hv

/-- All results of an instance have a port, if every port has a result. -/
theorem exists_split {must : Prop} {b : Body} {ports : List InstancePort} {results : List ValueId}
    {splits : List (ValueId × SplitPort)} (hlen : results.length = ports.length)
    (h : List.Forall₂ (SplitAs must b keep) (ports.zip results) splits) {v : ValueId}
    (hv : v ∈ results) : ∃ e ∈ splits, e.1 = v := by
  obtain ⟨j, hj, rfl⟩ := List.mem_iff_getElem.1 hv
  have hj' : j < splits.length := by
    rw [← h.length_eq, List.length_zip]
    omega
  refine ⟨splits[j], List.getElem_mem hj', ?_⟩
  have := (h.get (by rw [List.length_zip]; omega) hj').1
  simpa using this

/-- The instance with the ports that the former ones were split into is made, and takes over. -/
theorem reinst_runs (h : Start q b₀ R₀ P o D k A B) (hop : b₀.op? o = some op)
    (he : op.erased = false) (hk : op.kind = .inst i) {entry : ModuleEntry}
    (hentry : q.cx.modules.get? i.moduleName = some entry) {splits : List (ValueId × SplitPort)}
    (hsplits : List.Forall₂ (SplitAs q.must b₀ (q.cx.options.portsMayPreserve entry))
      (i.ports.zip op.results) splits) (hch : ∃ e ∈ splits, e.2.changed = true) {t : LowerState}
    (ht : t.builder = ⟨b₀, ⟨k, A.length⟩⟩) (htr : b₀.Tracked t.symbols) (decl : Decl) :
    Runs q.must ((do
      let new ← Build.inst { i with decl, ports := splits.flatMap (·.2.ports) }
        (splits.flatMap (·.2.types))
      let newResults := (← body (·.op new)).results
      change (Body.handOver splits newResults)
      return true) : Lower Bool) t (Stepped q.must (Lowering.stage q) b₀ R₀ k A o B P D) := by
  obtain ⟨ins, outs, hins, houts, hsh⟩ := h.shaped hop he
  have hready := fun hm => h.ready hm hop he houts
  rw [hk] at hsh hready
  obtain ⟨rfl, hlen⟩ := hsh
  have hops : op.operands = [] := List.forall₂_nil_right_iff.1 hins
  obtain ⟨builder, y⟩ := t
  obtain rfl : builder = _ := ht
  -- the parts of a port and their types
  have hpair : ∀ e ∈ splits, ∃ p ty, b₀.ty? e.1 = some ty ∧ e.1 ∈ op.results ∧
      InstancePort.Splits p ty (q.cx.options.portsMayPreserve entry) e.2 ∧
      (q.must → List.Forall₂ (fun (p : InstancePort) t => Annotated p.annotations t) e.2.ports
        e.2.types) := by
    intro e hmem
    obtain ⟨e', he', hv, ty, hty, hs, hann⟩ := exists_of_forall₂ hsplits hmem
    rw [hv]
    exact ⟨e'.1, ty, hty, (List.of_mem_zip he').2, hs, hann⟩
  have hsum : (splits.flatMap (·.2.types)).length = (splits.flatMap (·.2.ports)).length := by
    rw [List.length_flatMap, List.length_flatMap]
    congr 1
    refine List.map_congr_left fun e hmem => ?_
    obtain ⟨p, ty, -, -, hs, -⟩ := hpair e hmem
    exact hs.length_eq
  refine Runs.bind_build (h.grows.create_runs h.front rfl (List.forall_mem_nil _) .nil
    ⟨rfl, fun _ => hsum⟩ fun hm => ?_) ?_
  · obtain ⟨⟨⟨ins', hins', -, hin, -⟩, hsized, -⟩, hnests⟩ := hready hm
    have hbound : ∀ t ∈ splits.flatMap (·.2.types), (t.lastId?.isSome ∧ t.depth ≤ q.depth) ∧
        (¬(q.cx.options.portsMayPreserve entry = true ∧ t.preservable) → t.depth ≤ R₀ o - 1) := by
      intro t ht
      obtain ⟨e, hmem, ht⟩ := List.mem_flatMap.1 ht
      obtain ⟨p, ty, hty, hv, hs, -⟩ := hpair e hmem
      have hout := mem_of_types houts hv hty
      exact hs.bound (hsized ty hout) (fun hk => hnests entry hentry ty hout hk) ht
    obtain ⟨e, hmem, he⟩ := hch
    obtain ⟨p, ty, hty, hv, hs, -⟩ := hpair e hmem
    have hpos : 0 < R₀ o := by
      have hout := mem_of_types houts hv hty
      obtain ⟨hagg, hk⟩ := hs.aggregate he
      exact Nat.lt_of_lt_of_le (Ty.depth_pos hagg) (hnests entry hentry ty hout hk)
    refine ⟨.of_checked (by simp) .nil ⟨rfl, hin, forall₂_flatMap fun e hmem => ?_⟩
      fun t ht => (hbound t ht).1, R₀ o - 1, by omega, fun entry' hentry' t ht => ?_⟩
    · obtain ⟨-, -, -, -, -, hann⟩ := hpair e hmem
      exact hann hm
    · rw [hentry] at hentry'
      obtain rfl := Option.some.inj hentry'
      exact (hbound t ht).2
  rintro d s ⟨hg, hmk, htys⟩
  generalize (List.range _).map _ = new at hmk htys
  obtain ⟨opd, hopd, hbared, -, hresd, hed⟩ := id hmk
  refine Body.bind_op (t := ⟨s, y⟩) hopd ?_
  rw [hresd]
  obtain ⟨⟨H, hH⟩, R, hR⟩ := hg.holds
  obtain ⟨op', hop', hbare', hops', hres', -⟩ := hg.body.op? hop
  have hacc : op'.kind.fixedIndex? = none := by
    rw [OpKind.fixedIndex?_eq_of_bare_eq hbare', hk]
    rfl
  have hresult : ∀ e ∈ splits, ∃ j, s.body.origin? e.1 = some (.result o j) := by
    intro e hmem
    obtain ⟨p, ty, -, hv, -⟩ := hpair e hmem
    obtain ⟨j, hj⟩ := List.mem_iff_getElem?.1 hv
    exact ⟨j, hR.holds.coherent.result hop' (by rw [hres', hj])⟩
  have hshares : ∀ e ∈ splits, s.body.Shares o (q.cx.options.portsMayPreserve entry) e := by
    intro e hmem
    obtain ⟨p, ty, hty, -, hs, -⟩ := hpair e hmem
    exact ⟨hresult e hmem, p, ty, hg.body.ty?_some hty, hs⟩
  have hover := hR.holds.handOver_ends hop' hacc hshares htys ?_ ?_
  refine Runs.bind_change hover fun b' ⟨hlow, hout, hun, _⟩ => .pure ?_
  · refine h.stepped hH hR ?_ hout hlow ((htr.persists hR.persists).outlives hout) fun hm => ?_
    · rw [guardedBlocks_eq hop, hk]
      rfl
    · rintro ⟨op₁, v, x, hop₁, hv, hx⟩
      obtain ⟨op₂, hop₂, -, hres₂, -⟩ := hout.op?_some' hop₁
      rw [hop'] at hop₂
      obtain rfl := Option.some.inj hop₂
      rw [hres₂, hres'] at hv
      obtain ⟨e, hmem, rfl⟩ := exists_split
        (by rw [houts.length_eq, hlen (q.strict_of_must hm)]) hsplits hv
      exact hun e hmem x hx
  · intro w hw
    obtain ⟨j, hj⟩ := List.mem_iff_getElem?.1 hw
    refine ⟨d, by simp, j, opd, hmk.origin? hR.holds.coherent hj, hopd, hed, ?_⟩
    rw [OpKind.fixedIndex?_eq_of_bare_eq hbared]
    rfl
  · intro hord e hmem x hx
    obtain ⟨j, hj⟩ := hresult e hmem
    rcases List.mem_append.1 hx with hx | hx
    · exact hR.not_reads hord hj x hx
    · rw [List.mem_singleton.1 hx]
      rintro ⟨op'', hop'', hv⟩
      rw [hop'] at hop''
      rw [← Option.some.inj hop'', hops', hops] at hv
      cases hv

/-- An instance with a port that is split gives way to one with a port for each part; others stay. -/
theorem inst_runs (h : Start q b₀ R₀ P o D k A B) (htr : b₀.Tracked y) (hop : b₀.op? o = some op)
    (he : op.erased = false) (hk : op.kind = .inst i) :
    Runs q.must (Lower.inst q.cx o i) ⟨⟨b₀, ⟨k, A.length⟩⟩, y⟩
      (Stepped q.must (Lowering.stage q) b₀ R₀ k A o B P D) := by
  obtain ⟨ins, outs, hins, houts, hsh⟩ := h.shaped hop he
  have hready := fun hm => h.ready hm hop he houts
  rw [hk] at hsh hready
  obtain ⟨rfl, hlen⟩ := hsh
  have hops : op.operands = [] := List.forall₂_nil_right_iff.1 hins
  unfold Lower.inst
  cases hentry : q.cx.modules.get? i.moduleName with
  | none =>
    refine Runs.throw fun hm => ?_
    obtain ⟨⟨⟨_, -, -, hsome, -⟩, -⟩, -⟩ := hready hm
    rw [hentry] at hsome
    cases hsome
  | some entry =>
    refine Body.bind_op hop ?_
    refine (h.splitPorts_runs hop he hk rfl).bind ?_
    rintro splits _ ⟨rfl, hsplits⟩
    split
    next hnone =>
      exact .pure (h.inst_kept htr hop he hk hentry hsplits (by simpa using hnone))
    next hsome =>
    have hch : ∃ e ∈ splits, e.2.changed = true := by simpa using hsome
    -- the symbol may be new
    dsimp only
    split
    · exact Runs.bind_mint (h.reinst_runs (t := ⟨⟨b₀, ⟨k, A.length⟩⟩, _⟩) hop he hk hentry hsplits hch
        rfl (Symbols.Targets.fresh htr _) _)
    · rw [pure_bind]
      exact h.reinst_runs hop he hk hentry hsplits hch rfl htr _

end Start

end Scalarize
