import Scalarize.Proofs.Edits.Walk

/-!
# Pending operations

Some properties of a body under way speak of the operations that are still to be reached, in their order.

* `Upheld`, `Upheld.edits`, `Upheld.step_runs` : a property of bodies that four kinds of edits keep, wherever new
  operations go in, is kept while an operation is lowered by one layer;
* `Attends`, `Attends.stages` : a property of bodies with the operations that are pending and those that
  are done is kept throughout the walk.
-/

namespace Scalarize

open Body Lower

/-! ## One operation -/

/-- A property `X` of bodies that is kept while operation `op`, with number `o` in `b₀`, is lowered. New
operations read values with `U`, and only results of operations with `Z` give way. -/
structure Upheld (b₀ : Body) (o : OpId) (op : Operation) (U : Body → ValueId → Prop)
    (Z : Body → OpId → Prop) (X : Body → Prop) : Prop where
  operand : ∀ {v}, v ∈ op.operands → U b₀ v
  through : ∀ {b v d i opd w}, X b → U b v → b.origin? v = some (.result d i) → b.op? d = some opd →
    w ∈ opd.operands → U b w
  see : ∀ {b p kind vs tys x b'}, b₀.Edited b → X b → Created b p kind vs tys x b' →
    (∀ v, U b v → U b' v) ∧ ∀ v i, b'.origin? v = some (.result x i) → U b' v
  declared : ∀ {b x f v}, U b v → U (b.modifyDecl x f) v
  replaced : ∀ {b v w b'}, X b → Replaced b v w b' → (∀ u, U b u → U b' u) ∧ ∀ x, Z b x → Z b' x
  dropped : ∀ {b x b'}, X b → Z b x → Dropped b x (fun _ => true) b' →
    (∀ u, U b u → U b' u) ∧ ∀ x, Z b x → Z b' x
  self : ∀ b, Z b o
  reader : ∀ {b i v u}, X b → b.origin? v = some (.result o i) → b.Reads u v → Z b u
  create : ∀ {b p kind vs tys x b'}, b₀.Edited b → X b → (∀ v ∈ vs, U b v) →
    Created b p kind vs tys x b' → X b'
  declare : ∀ {b x f}, b₀.Edited b → X b → b₀.op? x = none → X (b.modifyDecl x f)
  replace : ∀ {b v w b'}, b₀.Edited b → X b → v ≠ w → b.Loose Z v → U b w → Replaced b v w b' → X b'
  drop : ∀ {b x f b'}, b₀.Edited b → X b → f true = true →
    (x ≠ o → f false = true ∧ ∀ op, b.op? x = some op → op.kind.isAccessor = true) →
    (f false = true → ¬b.ResultRead x) → Dropped b x f b' → X b'

/-- Operation `op`, with number `o`, was lowered by one layer: operations, which unfold to `N`, were made in
front of it, and it was erased. -/
structure Succeeded (b₀ : Body) (o : OpId) (k : BlockId) (A B N : List OpId) (s : Builder) : Prop where
  place : ∃ H, InFront b₀ k A (o :: B) H N s
  grown : b₀.Grown N s.body
  erased : ∀ {op'}, s.body.op? o = some op' → op'.erased

namespace Upheld

variable {cx : Context} {b₀ : Body} {o : OpId} {op : Operation} {k : BlockId} {A B : List OpId}
  {U : Body → ValueId → Prop} {Z : Body → OpId → Prop} {X : Body → Prop}

/-- Nothing is asked of operations or values. -/
theorem blind (b₀ : Body) (o : OpId) (op : Operation) :
    Upheld b₀ o op (fun _ _ => True) (fun _ _ => True) fun _ => True := by
  constructor <;> intros <;> first | trivial | exact ⟨fun _ _ => trivial, fun _ _ => trivial⟩ |
    exact ⟨fun _ _ => trivial, fun _ _ _ => trivial⟩

/-- In front of `o`, operations were made, and the property holds. -/
def Front (X : Body → Prop) (b₀ : Body) (o : OpId) (k : BlockId) (A B : List OpId) (ps : List Part)
    (t : LowerState) : Prop :=
  Tidy.Front b₀ o k A B ps t ∧ X t.builder.body

/-- The same with a guard as the last of them, in whose block operations are made. -/
def Inside (X : Body → Prop) (b₀ : Body) (o : OpId) (k : BlockId) (A B : List OpId) (ps : List Part)
    (p : Point) (t : LowerState) : Prop :=
  Tidy.Inside b₀ o k A B ps p t ∧ X t.builder.body

theorem Front.edited {ps : List Part} {t : LowerState} (h : Front X b₀ o k A B ps t) :
    b₀.Edited t.builder.body := by
  obtain ⟨⟨_, _, -, hg⟩, -⟩ := h
  exact hg.edited

theorem Inside.edited {ps : List Part} {p : Point} {t : LowerState} (h : Inside X b₀ o k A B ps p t) :
    b₀.Edited t.builder.body := by
  obtain ⟨⟨_, _, _, _, _, _, -, hg, -⟩, -⟩ := h
  exact hg.edited

/-- The property is kept while the operation is lowered by one layer. -/
theorem edits (h : Upheld b₀ o op U Z X) (hb : b₀.Coherent) (hop : b₀.op? o = some op)
    (hblocks : op.kind.blocks = []) :
    Edits cx b₀ o op (Front X b₀ o k A B) (Inside X b₀ o k A B) (fun s => U s.body) Z :=
  have tidy : Edits cx b₀ o op (Tidy.Front b₀ o k A B) (Tidy.Inside b₀ o k A B) (fun _ _ => True)
      fun _ _ => True := Tidy.edits hb hop hblocks
  { sight :=
      { operand := fun _ he hv => by rw [he]; exact h.operand hv
        through := fun hJ => h.through hJ.2
        throughIn := fun hG => h.through hG.2
        see := fun hJ hc => h.see hJ.edited hJ.2 hc
        seeIn := fun hG hc => h.see hG.edited hG.2 hc
        outer := fun hG hc => (h.see hG.edited hG.2 hc).1 _
        enter := fun hJ hc => (h.see hJ.edited hJ.2 hc).1 _
        declared := h.declared
        replaced := fun hJ hr => h.replaced hJ.2 hr
        dropped := fun hJ hx hd => h.dropped hJ.2 hx hd
        self := h.self
        reader := fun hJ => h.reader hJ.2 }
    coherent₀ := hb
    op? := hop
    coherent := fun hJ => hJ.edited.coherent
    coherentIn := fun hG => hG.edited.coherent
    persists := fun hJ => tidy.persists hJ.1
    ty? := fun hJ => tidy.ty? hJ.1
    create := fun hJ hp hv hc =>
      ⟨tidy.create hJ.1 hp (fun _ _ => trivial) hc, h.create hJ.edited hJ.2 hv hc⟩
    createIn := fun hG hp hv hc =>
      ⟨tidy.createIn hG.1 hp (fun _ _ => trivial) hc, h.create hG.edited hG.2 hv hc⟩
    enter := fun hJ hv hc =>
      ⟨tidy.enter hJ.1 trivial hc, h.create hJ.edited hJ.2 (by simpa using hv) hc⟩
    leave := fun hG => ⟨tidy.leave hG.1, hG.2⟩
    part := fun hJ hd hps hcopies hv hc hr =>
      ⟨tidy.part hJ.1 hd hps hcopies (fun _ _ => trivial) hc hr,
        h.declare (hJ.edited.created hc) (h.create hJ.edited hJ.2 hv hc) (hJ.edited.op?_fresh hc)⟩
    memory := fun {_ _ _ _ m _ _ _ _} hJ hm hd hps hn hc => by
      refine ⟨tidy.memory hJ.1 hm hd hps hn hc, ?_⟩
      have hcreated := h.create hJ.edited hJ.2 (by simp) hc
      unfold Memory.forPart
      cases m.decl.sym with
      | none => exact hcreated
      | some base => exact h.declare (hJ.edited.created hc) hcreated (hJ.edited.op?_fresh hc)
    inst := fun hJ hb hi he hs hc part =>
      ⟨tidy.inst hJ.1 hb hi he hs hc part, h.create hJ.edited hJ.2 (by simp) hc⟩
    replace := fun hJ hne hv hw ⟨x, i, opx, hvx, hopx, hway, hz⟩ hsee hr =>
      ⟨tidy.replace hJ.1 hne hv hw ⟨x, i, opx, hvx, hopx, hway, trivial⟩ trivial hr,
        h.replace hJ.edited hJ.2 hne ⟨x, i, opx, hvx, hopx, hway, hz⟩ hsee hr⟩
    drop := fun hJ hf hx hread hd =>
      ⟨tidy.drop hJ.1 hf hx hread hd, h.drop hJ.edited hJ.2 hf hx hread hd⟩ }

/-- The property is kept when the operation is lowered by one layer and erased. -/
theorem step_runs {t : LowerState} (h : Upheld t.builder.body o op U Z X) (hb : t.builder.body.Coherent)
    (hop : t.builder.body.op? o = some op) (hblocks : op.kind.blocks = [])
    (hs : t.builder.body.slotsOf k = A ++ o :: B) (hp : t.builder.point = ⟨k, A.length⟩) (hX : X t.builder.body) :
    Runs False (Lower.step cx o op.kind) t fun replaced t' =>
      if replaced then Ends False (t'.builder.body.eraseOp o) fun b' =>
        X b' ∧ ∃ N, Succeeded t.builder.body o k A B N ⟨b', t'.builder.point⟩
      else t' = t := by
  have hedits : Edits cx t.builder.body o op (Front X t.builder.body o k A B) (Inside X t.builder.body o k A B)
      (fun s => U s.body) Z := h.edits hb hop hblocks
  have hk : (t.builder.body.block? k).isSome := by
    obtain ⟨blk, hblk⟩ := exists_block_of_mem_slotsOf (o := o) (b := t.builder.body) (k := k) (by simp [hs])
    rw [hblk]
    rfl
  have hstart : Front X t.builder.body o k A B [] t := ⟨⟨[], [], InFront.start hb hs hk hp, .refl hb⟩, hX⟩
  refine (hedits.step_runs hstart rfl).mono fun replaced t' hout => ?_
  cases replaced with
  | false => exact hout.same rfl
  | true =>
    obtain ⟨ps, hJ, -⟩ := hout.parts rfl
    have hplain : ∀ op', t'.builder.body.op? o = some op' → op'.kind.blocks = [] := fun op' hop' => by
      obtain ⟨op'', hop'', hk, -⟩ := hedits.persists hJ hop
      rw [Option.some.inj (hop'.symm.trans hop''), hk, hblocks]
    refine (Body.eraseOp_ends (hedits.coherent hJ) hplain nofun).mono fun b' herase => ?_
    obtain ⟨⟨H, N, hfront, hgrown⟩, hX'⟩ :=
      hedits.drop hJ rfl (fun hne => absurd rfl hne) (fun _ => herase.unread) herase.dropped
    refine ⟨hX', N, ⟨H, hfront⟩, hgrown, fun {op'} hop' => ?_⟩
    dsimp only at hop'
    rw [herase.dropped.op?] at hop'
    obtain ⟨op'', -, rfl⟩ := Option.map_eq_some_iff.1 hop'
    rw [if_pos rfl]

end Upheld

/-! ## The walk -/

/-- A property `S` of bodies with the operations that are pending and those that are done is kept by every
step of a walk. What is replaced is due to be. -/
structure Attends (cx : Context) (E : OpId → Prop) (S : Body → Symbols → List OpId → List OpId → Prop) :
    Prop where
  skip : ∀ {b y P D o op L}, b.Tidy E (P ++ o :: L) D → S b y (P ++ o :: L) D → b.op? o = some op →
    op.erased → Unfolds b (b.inner o) L → S b y P (o :: (L ++ D))
  pass : ∀ {b y P D o op L}, b.Tidy E (P ++ [o]) (L ++ D) → S b y (P ++ [o]) (L ++ D) →
    b.op? o = some op → op.kind.blocks ≠ [] → Unfolds b (b.inner o) L → S b y P (o :: (L ++ D))
  stay : ∀ {b y P D o op}, b.Tidy E (P ++ [o]) D → S b y (P ++ [o]) D → b.op? o = some op →
    S b y P (o :: D)
  step : ∀ {t : LowerState} {P D o op k A B}, t.builder.body.Tidy E (P ++ [o]) D →
    S t.builder.body t.symbols (P ++ [o]) D → t.builder.body.op? o = some op →
    t.builder.body.Walked o → op.kind.blocks = [] →
    t.builder.body.slotsOf k = A ++ o :: B → t.builder.point = ⟨k, A.length⟩ →
    ∃ (U : Body → ValueId → Prop) (Z : Body → OpId → Prop) (X : Body → Prop) (due : Prop),
      Upheld t.builder.body o op U Z X ∧ X t.builder.body ∧
      Runs False (Lower.step cx o op.kind) t (fun replaced _ => replaced = true → due) ∧
      ∀ {t' : LowerState} {N}, due → X t'.builder.body →
        Succeeded t.builder.body o k A B N t'.builder → S t'.builder.body t'.symbols (P ++ N) (o :: D)

/-- What attends to every step holds throughout the walk. -/
theorem Attends.stages {cx : Context} {E : OpId → Prop}
    {S : Body → Symbols → List OpId → List OpId → Prop} (h : Attends cx E S) :
    Stages False cx fun b y R P D => Tidy.stage E b y R P D ∧ S b y P D :=
  have tidy := Tidy.stages cx E
  { coherent := fun hI => tidy.coherent hI.1
    nodup := fun hI => tidy.nodup hI.1
    known := fun hI => tidy.known hI.1
    guards := by
      obtain ⟨E', hE⟩ := tidy.guards
      exact ⟨E', fun hI => hE hI.1⟩
    nested := fun hI => tidy.nested hI.1
    skip := fun hI hop he hL => ⟨tidy.skip hI.1 hop he hL, h.skip hI.1 hI.2 hop he hL⟩
    pass := fun hI hop hk hL => ⟨tidy.pass hI.1 hop hk hL, h.pass hI.1 hI.2 hop hk hL⟩
    step := fun {t R P D o op k A B} hI hop hw hblocks hs hp => by
      obtain ⟨U, Z, X, due, hupheld, hX, hdue, hend⟩ := h.step hI.1 hI.2 hop hw hblocks hs hp
      have hb := tidy.coherent hI.1
      refine (((tidy.step hI.1 hop hw hblocks hs hp).and (hupheld.step_runs hb hop hblocks hs hp hX)).and hdue).mono ?_
      rintro replaced t' ⟨⟨⟨H, N, R', hslots, hH, hlocal, hnew, hR, hlt, hstep⟩, hout⟩, hdue'⟩
      refine ⟨H, N, R', hslots, hH, hlocal, hnew, hR, hlt, ?_⟩
      cases replaced with
      | false =>
        obtain rfl : t' = t := hout
        -- nothing was made
        obtain rfl : H = [] := by simpa [hs] using hslots
        cases hH
        refine (hstep.and (Ends.ok (Q := fun b' => S b' t'.symbols (P ++ []) (o :: D)) ?_)).mono
          fun b' ⟨⟨houtlives, hI'⟩, hS'⟩ => ⟨houtlives, hI', hS'⟩
        rw [List.append_nil]
        exact h.stay hI.1 hI.2 hop
      | true =>
        refine (hstep.and hout).mono fun b' ⟨⟨houtlives, hI'⟩, hX', N', hsucceeded⟩ => ⟨houtlives, hI', ?_⟩
        obtain ⟨⟨H', hfront⟩, -⟩ := id hsucceeded
        -- the operations in front of `o` are the same whichever way they are counted
        have hsame : A ++ H' ++ o :: B = A ++ H ++ o :: B := by
          rw [← hfront.slots, ← hslots]
          exact houtlives.slotsOf k
        obtain rfl : H' = H := by simpa using hsame
        obtain rfl := (houtlives.unfolds hH).unique hfront.unfolds
        exact @hend ⟨⟨b', t'.builder.point⟩, t'.symbols⟩ _ (hdue' rfl) hX' hsucceeded }

end Scalarize
