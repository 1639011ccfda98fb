import Scalarize.Proofs.Completeness

/-!
# Lowering what is lowered

* `Gives`, `Rests` : computations with a known result, and those that leave their state as it is;
* `Body.Still` : a body of settled operations, and `Body.Still.step_rests` : none of them is replaced;
* `Body.Still.lowerBlock_rests`, `Lower.ports_rests`, `Module.Still.lower_eq` : nothing changes;
* `Circuit.lower_lower` : a second run leaves a circuit as the first one left it.
-/

namespace Scalarize

open Body

/-! ## Computations with a known result -/

/-- The computation, started at `s`, returns `a` and ends in `s'`. -/
def Gives {σ α : Type} (m : StateT σ (Except Failure) α) (s : σ) (a : α) (s' : σ) : Prop :=
  m.run s = .ok (a, s')

/-- The computation returns `a` and leaves its state as it is. -/
abbrev Rests {σ α : Type} (m : StateT σ (Except Failure) α) (s : σ) (a : α) : Prop := Gives m s a s

namespace Gives

variable {σ α β : Type} {s s' s'' : σ} {a : α} {b : β} {m : StateT σ (Except Failure) α}
  {f : α → StateT σ (Except Failure) β}

theorem pure : Gives (Pure.pure a : StateT σ (Except Failure) α) s a s := rfl

theorem get : Gives (get : StateT σ (Except Failure) σ) s s s := rfl

theorem bind (h : Gives m s a s') (hf : Gives (f a) s' b s'') : Gives (m >>= f) s b s'' := by
  unfold Gives at h hf ⊢
  rw [StateT.run_bind, h]
  exact hf

/-- A computation without a state. -/
theorem lift {x : Except Failure α} (h : x = .ok a) :
    Gives (liftM x : StateT σ (Except Failure) α) s a s := by
  rw [h]
  rfl

theorem forM {f : α → StateT σ (Except Failure) PUnit} {l : List α} (h : ∀ a ∈ l, Rests (f a) s ⟨⟩) :
    Rests (l.forM f) s ⟨⟩ := by
  induction l with
  | nil => exact .pure
  | cons a l ih =>
    exact bind (h a List.mem_cons_self) (ih fun a ha => h a (List.mem_cons_of_mem _ ha))

theorem mapM {f : α → StateT σ (Except Failure) β} {g : α → β} {l : List α}
    (h : ∀ a ∈ l, Rests (f a) s (g a)) : Rests (l.mapM f) s (l.map g) := by
  induction l with
  | nil => exact .pure
  | cons a l ih =>
    rw [List.mapM_cons]
    exact bind (h a List.mem_cons_self)
      (bind (ih fun a ha => h a (List.mem_cons_of_mem _ ha)) .pure)

/-- A computation without a state, while lowering. -/
theorem except {t : LowerState} {x : Except Failure α} (h : x = .ok a) :
    Rests (liftM x : Lower α) t a := by
  rw [h]
  rfl

/-- Reading the body. -/
theorem body {t : LowerState} {f : Body → Except Failure α} (h : f t.builder.body = .ok a) :
    Rests (Lower.body f) t a :=
  bind get (except h)

theorem moveTo {t : LowerState} (p : Point) :
    Gives (liftM (Build.moveTo p) : Lower Unit) t () ⟨⟨t.builder.body, p⟩, t.symbols⟩ := rfl

end Gives

/-! ## Types that stay whole -/

namespace Ty

variable {t : Ty} {keep : Bool}

theorem peel_eq_none (h : t.isGround ∨ keep = true ∧ t.preservable) : t.peel keep = .ok none := by
  have : (t.isGround || keep && t.preservable) = true := by
    rcases h with h | ⟨h, h'⟩
    · simp [h]
    · simp [h, h']
  unfold peel
  rw [this]
  rfl

end Ty

/-! ## Bodies of settled operations -/

/-- All operations in the slots of the body are settled, and they read only what operations make that
stand. -/
structure Body.Still (cx : Context) (b : Body) : Prop where
  entry : (b.block? Body.entry).isSome
  slots : ∀ {k blk o}, b.block? k = some blk → o ∈ blk.slots →
    ∃ op, b.op? o = some op ∧ op.erased = false ∧ op.block = k
  guards : ∀ {o op k}, b.op? o = some op → k ∈ op.kind.blocks →
    op.block.index < k.index ∧ (b.block? k).isSome
  settled : ∀ {o op}, b.op? o = some op → op.erased = false → ∃ ins outs, b.Types op.operands ins ∧
    b.Types op.results outs ∧ op.kind.Shaped False ins outs ∧ op.kind.Settled cx ins outs
  made : ∀ {o v d i}, b.Reads o v → b.origin? v = some (.result d i) →
    ∃ op, b.op? d = some op ∧ op.erased = false

namespace Body.Still

variable {cx : Context} {b : Body} {t : LowerState} {o : OpId} {op : Operation}

/-- The accessors in front of a value that is read stand, and all of them are fixed. -/
theorem accessChain_eq (h : b.Still cx) (n : Nat) : ∀ {v : ValueId} {x : OpId}, b.Reads x v →
    (b.value? v).isSome → ∃ os, b.accessChain n v = .ok os ∧ ∀ o ∈ os, b.isDynamic o = .ok false := by
  induction n with
  | zero => exact fun _ _ => ⟨[], rfl, nofun⟩
  | succ n ih =>
    intro v x hx hv
    obtain ⟨y, hy⟩ := Option.isSome_iff_exists.1 hv
    cases ho : y.origin with
    | argument =>
      refine ⟨[], ?_, nofun⟩
      unfold accessChain
      rw [definer_of_argument (origin?_eq_some_iff.2 ⟨y, hy, ho⟩)]
      rfl
    | result d i =>
      have hv : b.origin? v = some (.result d i) := origin?_eq_some_iff.2 ⟨y, hy, ho⟩
      obtain ⟨opd, hd, he⟩ := h.made hx hv
      unfold accessChain
      rw [definer_of_result hv]
      dsimp only [bind, Except.bind]
      rw [kindOf_eq_ok hd]
      dsimp only
      cases hacc : opd.kind.isAccessor with
      | false => exact ⟨[], rfl, nofun⟩
      | true =>
        obtain ⟨ins, outs, hins, -, hsh, hset⟩ := h.settled hd he
        obtain ⟨w, u, hw, hu, hfix⟩ : ∃ w u, opd.operands[0]? = some w ∧ b.ty? w = some u ∧
            b.isDynamic d = .ok false := by
          cases hk : opd.kind with
          | subfield j =>
            rw [hk] at hsh
            obtain ⟨fs, f, rfl, -⟩ := hsh
            obtain ⟨w, hw, hops⟩ := hins.singleton
            refine ⟨w, _, by rw [hops]; rfl, hw, ?_⟩
            unfold isDynamic
            rw [kindOf_eq_ok hd, hk]
            rfl
          | subindex j =>
            rw [hk] at hsh
            obtain ⟨e, m, rfl, -⟩ := hsh
            obtain ⟨w, hw, hops⟩ := hins.singleton
            refine ⟨w, _, by rw [hops]; rfl, hw, ?_⟩
            unfold isDynamic
            rw [kindOf_eq_ok hd, hk]
            rfl
          | subaccess =>
            rw [hk] at hset
            exact hset.elim
          | _ =>
            rw [hk] at hacc
            cases hacc
        obtain ⟨os, hos, hall⟩ := ih ⟨opd, hd, List.mem_of_getElem? hw⟩
          (isSome_value?.2 (lt_of_ty? hu))
        refine ⟨d :: os, ?_, ?_⟩
        · rw [if_pos rfl, operand_eq_ok hd hw]
          dsimp only
          rw [hos]
          rfl
        · rintro y hy'
          rcases List.mem_cons.1 hy' with rfl | hy'
          · exact hfix
          · exact hall y hy'

/-- A connection does not write through a computed access. -/
theorem writePath_rests (h : t.builder.body.Still cx) (hop : t.builder.body.op? o = some op)
    {v : ValueId} {u : Ty} (hv : op.operands[0]? = some v) (hu : t.builder.body.ty? v = some u)
    (strict : Bool) : Rests (Lower.writePath o strict) t false := by
  obtain ⟨os, hos, hall⟩ := h.accessChain_eq t.builder.body.ops.size
    ⟨op, hop, List.mem_of_getElem? hv⟩ (isSome_value?.2 (lt_of_ty? hu))
  refine (Gives.body (a := []) ?_).bind .pure
  unfold Body.writePath
  rw [operand_eq_ok hop hv]
  dsimp only [bind, Except.bind]
  rw [hos]
  exact trimStatic_eq hall

/-- A declaration or choice that stays whole. -/
theorem splitProducer_rests {keep : Bool} {clone : Part → Build ValueId} {r : ValueId} {u : Ty}
    (hop : t.builder.body.op? o = some op) (hr : op.results[0]? = some r)
    (hu : t.builder.body.ty? r = some u) (hw : u.isGround ∨ keep = true ∧ u.preservable) :
    Rests (Lower.splitProducer o keep clone) t false := by
  refine (Gives.body (result_eq_ok hop hr)).bind ?_
  refine (Gives.body (typeOf_eq_ok hu)).bind ?_
  exact (Gives.except (Ty.peel_eq_none hw)).bind .pure

/-- An instance whose ports all stay whole. -/
theorem inst_rests {i : Instance} {outs : List Ty} (hop : t.builder.body.op? o = some op)
    (houts : t.builder.body.Types op.results outs) (hset : (OpKind.inst i).Settled cx [] outs) :
    Rests (Lower.inst cx o i) t false := by
  obtain ⟨entry, hentry, hall⟩ := hset
  unfold Lower.inst
  rw [hentry]
  refine (Gives.body (op_eq_ok hop)).bind ?_
  dsimp only
  let whole : InstancePort × ValueId → ValueId × SplitPort := fun e =>
    (e.2, ⟨[e.1], [(t.builder.body.ty? e.2).getD default], false, false⟩)
  have hsplit : ∀ e ∈ i.ports.zip op.results, Rests (do
      let ty ← Lower.body (·.typeOf e.2)
      return (e.2, ← e.1.split ty (cx.options.portsMayPreserve entry)) : Lower (ValueId × SplitPort))
      t (whole e) := by
    rintro ⟨p, v⟩ he
    obtain ⟨j, hj⟩ := List.mem_iff_getElem?.1 he
    obtain ⟨hp, hv⟩ := List.getElem?_zip_eq_some.1 hj
    obtain ⟨u, hu, hty⟩ := houts.getElem? hv
    have hwhole := hall (p, u) (List.mem_of_getElem? (List.getElem?_zip_eq_some.2 ⟨hp, hu⟩))
    refine (Gives.body (typeOf_eq_ok hty)).bind ?_
    refine (Gives.except (a := ⟨[p], [u], false, false⟩) ?_).bind ?_
    · unfold InstancePort.split
      rw [Ty.peel_eq_none hwhole]
      rfl
    · simp only [whole, hty]
      exact .pure
  refine (Gives.mapM hsplit).bind ?_
  have hnone : ((i.ports.zip op.results).map whole).any (·.2.changed) = false := by
    simp [whole]
  rw [hnone]
  exact .pure

/-- No settled operation is replaced. -/
theorem step_rests (h : t.builder.body.Still cx) (hop : t.builder.body.op? o = some op)
    (he : op.erased = false) : Rests (Lower.step cx o op.kind) t false := by
  obtain ⟨ins, outs, hins, houts, hsh, hset⟩ := h.settled hop he
  cases hk : op.kind with
  | bitcast =>
    rw [hk] at hsh hset
    obtain ⟨a, u, rfl, rfl⟩ := hsh
    obtain ⟨v, hv, hops⟩ := hins.singleton
    obtain ⟨r, hr, hres⟩ := houts.singleton
    refine (Gives.body (operand_eq_ok hop (v := v) (by rw [hops]; rfl))).bind ?_
    refine (Gives.body (result_eq_ok hop (v := r) (by rw [hres]; rfl))).bind ?_
    refine (Gives.body (typeOf_eq_ok hv)).bind ((Gives.body (typeOf_eq_ok hr)).bind ?_)
    rw [hset.1 a (by simp), hset.2 u (by simp)]
    exact .pure
  | subaccess =>
    rw [hk] at hset
    exact hset.elim
  | connect strict =>
    rw [hk] at hsh hset
    obtain ⟨d, s, rfl, rfl⟩ := hsh
    obtain ⟨v, w, hv, hw, hops⟩ := hins.pair
    refine (h.writePath_rests hop (v := v) (by rw [hops]; rfl) hv strict).bind ?_
    refine (Gives.body (operand_eq_ok hop (v := v) (by rw [hops]; rfl))).bind ?_
    refine (Gives.body (operand_eq_ok hop (v := w) (by rw [hops]; rfl))).bind ?_
    refine (Gives.body (typeOf_eq_ok hv)).bind ?_
    exact (Gives.except (Ty.peel_eq_none (.inl (hset d rfl)))).bind .pure
  | mem m =>
    rw [hk] at hset
    exact (Gives.except (Ty.peel_eq_none (.inl hset))).bind .pure
  | inst i =>
    rw [hk] at hset
    exact inst_rests hop houts hset
  | wire d | invalid =>
    rw [hk] at hsh hset
    obtain ⟨-, u, rfl⟩ := hsh
    obtain ⟨r, hr, hres⟩ := houts.singleton
    exact splitProducer_rests hop (by rw [hres]; rfl) hr (hset u (by simp))
  | reg d | unrealizedCast =>
    rw [hk] at hsh hset
    obtain ⟨a, u, rfl, rfl⟩ := hsh
    obtain ⟨v, hv, hops⟩ := hins.singleton
    obtain ⟨r, hr, hres⟩ := houts.singleton
    refine (Gives.body (operand_eq_ok hop (v := v) (by rw [hops]; rfl))).bind ?_
    exact splitProducer_rests hop (by rw [hres]; rfl) hr (hset u (by simp))
  | node d =>
    rw [hk] at hsh hset
    obtain ⟨a, u, rfl, rfl, -⟩ := hsh
    obtain ⟨v, hv, hops⟩ := hins.singleton
    obtain ⟨r, hr, hres⟩ := houts.singleton
    refine (Gives.body (operand_eq_ok hop (v := v) (by rw [hops]; rfl))).bind ?_
    exact splitProducer_rests hop (by rw [hres]; rfl) hr (hset u (by simp))
  | regReset d =>
    rw [hk] at hsh hset
    obtain ⟨c, x, y, u, rfl, rfl⟩ := hsh
    obtain ⟨v₀, v₁, v₂, -, -, -, hops⟩ := hins.triple
    obtain ⟨r, hr, hres⟩ := houts.singleton
    refine (Gives.body (operand_eq_ok hop (v := v₀) (by rw [hops]; rfl))).bind ?_
    refine (Gives.body (operand_eq_ok hop (v := v₁) (by rw [hops]; rfl))).bind ?_
    refine (Gives.body (operand_eq_ok hop (v := v₂) (by rw [hops]; rfl))).bind ?_
    exact splitProducer_rests hop (by rw [hres]; rfl) hr (hset u (by simp))
  | mux =>
    rw [hk] at hsh hset
    obtain ⟨c, x, y, u, rfl, rfl, -⟩ := hsh
    obtain ⟨v₀, v₁, v₂, -, -, -, hops⟩ := hins.triple
    obtain ⟨r, hr, hres⟩ := houts.singleton
    refine (Gives.body (operand_eq_ok hop (v := v₀) (by rw [hops]; rfl))).bind ?_
    refine (Gives.body (operand_eq_ok hop (v := v₁) (by rw [hops]; rfl))).bind ?_
    refine (Gives.body (operand_eq_ok hop (v := v₂) (by rw [hops]; rfl))).bind ?_
    exact splitProducer_rests hop (by rw [hres]; rfl) hr (hset u (by simp))
  | multiMux =>
    rw [hk] at hsh hset
    obtain ⟨x, f, rest, u, rfl, rfl, -⟩ := hsh
    obtain ⟨r, hr, hres⟩ := houts.singleton
    refine (Gives.body (op_eq_ok hop)).bind ?_
    cases hops : op.operands with
    | nil =>
      rw [hops] at hins
      cases hins
    | cons index inputs => exact splitProducer_rests hop (by rw [hres]; rfl) hr (hset u (by simp))
  | constant | subfield | subindex | prim | «when» => exact .pure

/-- A slot and all that the operation in it guards stay as they are. -/
theorem lowerOp_rests (n : Nat) : ∀ {t : LowerState} {k : BlockId} {blk : Block} {i : Nat},
    t.builder.body.Still cx → t.builder.body.block? k = some blk → i < blk.slots.length →
    t.builder.body.blocks.size ≤ k.index + n → Rests (Lower.lowerOp cx n k i) t () := by
  induction n with
  | zero =>
    intro t k blk i _ hk _ hn
    have := lt_of_block? hk
    omega
  | succ n ih =>
    intro t k blk i h hk hi hn
    obtain ⟨op, hop, he, hblock⟩ := h.slots hk (List.getElem_mem hi)
    have hslot : Rests (Lower.slot k i) t blk.slots[i] := by
      refine .body ?_
      rw [block_eq, hk]
      change orOutOfRange blk.slots[i]? = _
      rw [List.getElem?_eq_getElem hi]
      rfl
    unfold Lower.lowerOp
    refine hslot.bind ((Gives.body (op_eq_ok hop)).bind ?_)
    rw [he, if_neg Bool.false_ne_true]
    have hpoint : Rests Lower.point t t.builder.point := Gives.get.bind .pure
    refine hpoint.bind ((Gives.body (slotCount_eq_ok hk)).bind ((Gives.moveTo ⟨k, i⟩).bind ?_))
    refine (Gives.body (kindOf_eq_ok hop)).bind ?_
    -- the operation stays, so that nothing new stands in front of it
    have hstay : Gives (do
        let after ← (do liftM (Build.moveTo t.builder.point); Lower.body (·.slotCount k) : Lower Nat)
        Lower.eachSlot (Lower.lowerOp cx n) k i (after - blk.slots.length))
        ⟨⟨t.builder.body, ⟨k, i⟩⟩, t.symbols⟩ () t := by
      refine ((Gives.moveTo t.builder.point).bind (Gives.body (slotCount_eq_ok hk))).bind ?_
      rw [Nat.sub_self]
      exact .pure
    split
    next thenBlock elseBlock hkind =>
      refine (Gives.forM fun k' hk' => ?_).bind (Gives.bind .pure hstay)
      obtain ⟨hlt, hsome⟩ := h.guards hop hk'
      obtain ⟨blk', hblk'⟩ := Option.isSome_iff_exists.1 hsome
      refine (Gives.body (slotCount_eq_ok hblk')).bind (Gives.forM fun j hj => ?_)
      rw [List.mem_reverse, List.mem_range] at hj
      exact ih h hblk' (by omega) (by rw [hblock] at hlt; change t.builder.body.blocks.size ≤ _; omega)
    next =>
      exact (step_rests (t := ⟨⟨t.builder.body, ⟨k, i⟩⟩, t.symbols⟩) h hop he).bind hstay

/-- A block stays as it is. -/
theorem lowerBlock_rests (h : t.builder.body.Still cx) {n : Nat} (hn : t.builder.body.blocks.size ≤ n) :
    Rests (Lower.lowerBlock cx n Body.entry) t () := by
  obtain ⟨blk, hblk⟩ := Option.isSome_iff_exists.1 h.entry
  refine (Gives.body (slotCount_eq_ok hblk)).bind (Gives.forM fun j hj => ?_)
  rw [List.mem_reverse, List.mem_range] at hj
  exact h.lowerOp_rests n hblk (by omega) (Nat.le_trans hn (Nat.le_add_left _ _))

/-- No slot is empty. -/
theorem compact_eq (h : b.Still cx) : b.compact = b := by
  have hblocks : b.blocks.map (fun blk => { blk with slots := blk.slots.filter b.stands }) = b.blocks := by
    refine Array.ext (by simp) fun i hi hi' => ?_
    rw [Array.getElem_map]
    have hfilter : b.blocks[i].slots.filter b.stands = b.blocks[i].slots :=
      List.filter_eq_self.2 fun o ho => by
        obtain ⟨op, hop, he, -⟩ := h.slots (k := ⟨i⟩) (Array.getElem?_eq_getElem hi') ho
        simp [stands_eq, hop, he]
    rw [hfilter]
  unfold compact
  rw [hblocks]

end Body.Still

/-- What is left of a lowered body is settled, whatever the annotations are. -/
theorem Lowered.still {q : Setting} {b b' : Body} {R : OpId → Nat} {D : List OpId} {ts : List Ty}
    (h : Lowered q b R D ts) (hb : b.compact.Reannotated b') : b'.Still q.cx := by
  have hc := h.holds.coherent
  have hblock : ∀ k, b'.block? k = (b.block? k).map fun blk =>
      { blk with slots := blk.slots.filter b.stands } := fun k => by
    unfold block?
    rw [hb.blocks, compact, Array.getElem?_map]
  have hop : ∀ {o op'}, b'.op? o = some op' → ∃ op f, b.op? o = some op ∧
      op' = { op with kind := op.kind.mapDecl f } := hb.op?_some'
  have hty : ∀ v, b'.ty? v = b.ty? v := hb.ty?
  refine ⟨?_, fun {k blk' o} hk ho => ?_, fun {o op' k} ho hk => ?_, fun {o op'} ho he => ?_,
    fun {o v d i} hr hv => ?_⟩
  · obtain ⟨blk, hblk, -⟩ := hc.entry
    rw [hblock, hblk]
    rfl
  · obtain ⟨blk, hblk, rfl⟩ := Option.map_eq_some_iff.1 ((hblock k).symm.trans hk)
    obtain ⟨hmem, hstands⟩ := List.mem_filter.1 ho
    obtain ⟨op, ho, hbl⟩ := hc.slots hblk hmem
    obtain ⟨f, ho'⟩ := hb.op?_some ho
    exact ⟨_, ho', by simpa [stands_eq, ho] using hstands, hbl⟩
  · obtain ⟨op, f, hop, rfl⟩ := hop ho
    dsimp only at hk ⊢
    rw [OpKind.blocks_eq_of_bare_eq (OpKind.bare_mapDecl f op.kind)] at hk
    obtain ⟨hlt, blk, hblk, -⟩ := hc.guards hop hk
    exact ⟨hlt, by rw [hblock, hblk]; rfl⟩
  · obtain ⟨op, f, hop, rfl⟩ := hop ho
    obtain ⟨ins, outs, hins, houts, hsh, hset⟩ := h.settled hop he
    exact ⟨ins, outs, hins.mono fun v _ => hty v, houts.mono fun v _ => hty v,
      OpKind.shaped_mapDecl f (hsh.mono False.elim),
      (OpKind.settled_iff_of_bare_eq (OpKind.bare_mapDecl f op.kind)).2 hset⟩
  · obtain ⟨op', ho', hmem⟩ := hr
    obtain ⟨op, f, ho, rfl⟩ := hop ho'
    have hv' : b.origin? v = some (.result d i) := (hb.origin? v).symm.trans hv
    obtain ⟨opd, hd, -⟩ := hc.origin hv'
    obtain ⟨g, hd'⟩ := hb.op?_some hd
    have he := h.holds.not_read_of_erased ⟨op, ho, hmem⟩ hv' hd
    exact ⟨_, hd', he⟩

/-! ## Modules -/

namespace Lower

variable {keep : Bool} {s : PortState}

theorem splitPort_rests {p : Port} (h : p.Whole keep) (n i : Nat) :
    Rests (splitPort keep n p i) s [p] := by
  cases n with
  | zero => exact .pure
  | succ n => exact (Gives.lift (Ty.peel_eq_none h)).bind .pure

/-- Ports that are whole stay as they are. -/
theorem ports_rests {ps : List Port} (h : ∀ p ∈ ps, p.Whole keep) : Rests (ports keep ps) s ps := by
  suffices ∀ done, Rests (ps.foldlM (fun done p => do
      return done ++ (← splitPort keep p.ty.depth p done.length)) done) s (done ++ ps) from this []
  induction ps with
  | nil => exact fun done => by simpa using (Gives.pure : Rests _ s done)
  | cons p ps ih =>
    intro done
    rw [List.foldlM_cons]
    have hp : Rests (do return done ++ (← splitPort keep p.ty.depth p done.length)) s (done ++ [p]) :=
      (splitPort_rests (h p List.mem_cons_self) _ _).bind .pure
    refine hp.bind ?_
    simpa using ih (fun p hp => h p (List.mem_cons_of_mem _ hp)) (done ++ [p])

end Lower

/-- The ports of the module are whole, and its body is settled. -/
structure Module.Still (cx : Context) (m : Module) : Prop where
  ports : ∀ p ∈ m.ports, p.Whole (cx.options.portsMayPreserve m.entry)
  body : ∀ {b}, m.body = some b → b.Still cx

theorem Body.blocks_le_loweringDepth (b : Body) : b.blocks.size ≤ b.loweringDepth :=
  Nat.le_add_right _ _

/-- Such a module stays as it is, and so do its symbols. -/
theorem Module.Still.lower_eq {cx : Context} {m : Module} (h : m.Still cx) (generated : Nat) :
    m.lower cx generated = .ok (m, Symbols.ofModule m generated) := by
  have hports : ∀ y, (Lower.ports (cx.options.portsMayPreserve m.entry) m.ports).run ⟨m.body, y⟩ =
      .ok (m.ports, ⟨m.body, y⟩) := fun y => Lower.ports_rests h.ports
  have hm : ∀ b, m.body = b → { m with body := b } = m := fun b hb => by rw [← hb]
  unfold Module.lower
  dsimp only
  cases hb : m.body with
  | none =>
    rw [hb] at hports
    dsimp only [bind, Except.bind, pure, Except.pure]
    rw [hports]
    dsimp only
    rw [Option.map_none, hm none hb]
  | some b =>
    have hstill := h.body hb
    obtain ⟨blk, hblk⟩ := Option.isSome_iff_exists.1 hstill.entry
    have hblock : (Lower.lowerBlock cx b.loweringDepth Body.entry).run
        ⟨⟨b, ⟨Body.entry, blk.slots.length⟩⟩, Symbols.ofModule m generated⟩ = .ok _ :=
      Body.Still.lowerBlock_rests hstill b.blocks_le_loweringDepth
    rw [hb] at hports
    dsimp only [bind, Except.bind, pure, Except.pure]
    rw [slotCount_eq_ok hblk]
    dsimp only
    rw [hblock]
    dsimp only
    rw [hports]
    dsimp only
    rw [Option.map_some, hstill.compact_eq, hm (some b) hb]

/-- What a module was lowered to stays as it is. -/
theorem Module.Output.still {q : Setting} {m m' m'' : Module} (h : Module.Output q m m')
    (hr : m'.Reannotated m'') : m''.Still q.cx where
  ports p hp := by
    obtain ⟨p', hp', a, rfl⟩ := exists_of_forall₂ hr.ports hp
    rw [hr.entry, h.entry]
    exact h.whole p' hp'
  body {b} hb := by
    have hrel := hr.body
    rw [hb] at hrel
    cases hb' : m'.body <;> rw [hb'] at hrel <;> cases hrel
    next hrel =>
      obtain ⟨b₀, R, D, rfl, hlow⟩ := h.body hb'
      exact hlow.still hrel

/-! ## Circuits -/

theorem Circuit.moduleTable_eq {c c' : Circuit}
    (h : List.Forall₂ (fun m m' : Module => m'.name = m.name ∧ m'.entry = m.entry) c.modules c'.modules) :
    c'.moduleTable = c.moduleTable := by
  have hfold : ∀ {ms ms' : List Module} (table : ModuleTable),
      List.Forall₂ (fun m m' : Module => m'.name = m.name ∧ m'.entry = m.entry) ms ms' →
      ms'.foldl (fun table m => table.put m.name m.entry) table =
        ms.foldl (fun table m => table.put m.name m.entry) table := by
    intro ms ms' table h
    induction h generalizing table with
    | nil => rfl
    | cons h _ ih => rw [List.foldl_cons, List.foldl_cons, h.1, h.2, ih]
  exact hfold [] h

/-- A circuit of such modules stays as it is. -/
theorem Circuit.lower_of_still {c : Circuit} {options : Options} (n : Nat)
    (h : ∀ m ∈ c.modules, m.Still ⟨options, c.moduleTable⟩) :
    c.lower options n = .ok (c, ⟨c.modules.length, 0, 0, 0⟩, n) := by
  have hmodules : ∀ (ms done : List Module), (∀ m ∈ ms, m.Still ⟨options, c.moduleTable⟩) →
      ms.foldlM (Progress.lowerModule ⟨options, c.moduleTable⟩) ⟨done, [], n⟩ =
        .ok ⟨done ++ ms, [], n⟩ := by
    intro ms
    induction ms with
    | nil => exact fun done _ => by rw [List.append_nil]; rfl
    | cons m ms ih =>
      intro done h
      rw [List.foldlM_cons]
      have hm : Progress.lowerModule ⟨options, c.moduleTable⟩ ⟨done, [], n⟩ m =
          .ok ⟨done ++ [m], [], n⟩ := by
        unfold Progress.lowerModule
        rw [(h m List.mem_cons_self).lower_eq n]
        rfl
      rw [hm]
      change ms.foldlM _ _ = _
      rw [ih (done ++ [m]) fun m hm => h m (List.mem_cons_of_mem _ hm)]
      simp
  have hall := hmodules c.modules [] h
  unfold Circuit.lower
  dsimp only [bind, Except.bind]
  rw [hall]
  rfl

/-- A second run leaves a circuit as the first one left it, and reports nothing. -/
theorem Circuit.lower_lower {c c' : Circuit} {options : Options} {generated generated' : Nat}
    {stats : Stats} (hc : c.Built) (h : c.lower options generated = .ok (c', stats, generated'))
    (n : Nat) : c'.lower options n = .ok (c', ⟨c'.modules.length, 0, 0, 0⟩, n) := by
  let q : Setting :=
    { must := False, ordered := False, ordered_of_must := id, cx := ⟨options, c.moduleTable⟩
      splits_of_must := nofun, depth := 0, strict := False, strict_of_must := id }
  have hlower : Ends False (c.lower options generated) _ :=
    Circuit.lower_ends (P := Module.Output q) fun m hm g => by
      have hin : m.Input q fun _ => 0 := Module.Built.input (hc m hm) (fun hs => False.elim hs) id id
      exact (Module.lower_ends hin).mono fun r hr => ⟨hr.1, fun _ => hr.2⟩
  obtain ⟨ms, hms, hre⟩ := hlower.of_ok h
  have htable : c'.moduleTable = c.moduleTable := Circuit.moduleTable_eq <|
    List.forall₂_iff_get.2 ⟨hms.length_eq.trans hre.modules.length_eq, fun i h₁ h₃ => by
      have h₂ : i < ms.length := hms.length_eq ▸ h₁
      have ho := (List.forall₂_iff_get.1 hms).2 i h₁ h₂
      have hr := (List.forall₂_iff_get.1 hre.modules).2 i h₂ h₃
      exact ⟨hr.name.trans ho.name, hr.entry.trans ho.entry⟩⟩
  refine Circuit.lower_of_still n fun m' hm' => ?_
  rw [htable]
  obtain ⟨m'', hm'', hr⟩ := exists_of_forall₂ hre.modules hm'
  obtain ⟨m, -, ho⟩ := exists_of_forall₂ hms hm''
  exact ho.still hr

theorem Circuit.lower_lower_node : ∃ r, nodeCircuit.lower {} 0 = .ok r ∧
    r.1.lower {} r.2.2 = .ok (r.1, ⟨r.1.modules.length, 0, 0, 0⟩, r.2.2) := by
  have hok : (nodeCircuit.lower {} 0).isOk := by decide +kernel
  cases hr : nodeCircuit.lower {} 0 with
  | error => rw [hr] at hok; cases hok
  | ok r => exact ⟨r, rfl, Circuit.lower_lower nodeCircuit_built hr r.2.2⟩

end Scalarize
