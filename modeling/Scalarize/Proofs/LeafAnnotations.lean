import Scalarize.Lower.Ports
import Scalarize.Proofs.Region.Declaration

/-!
# Annotations and symbols of leaves

A declaration or a port of an aggregate type is split until its parts are ground. Each leaf then has the annotations that
its field ID and those of what encloses it give it, and a symbol where one is needed.

* `Port.Stands`, `Port.narrow_eq` : the port of a node, and of a part of it;
* `Lower.splitPort_leaves` : the ports into which a port is split;
* `Lower.leaves_carry` : what the leaves of declarations and ports carry.
-/

namespace Scalarize

open Body Lower

variable {must : Prop} {A : List Annotation} {S : Prop} {T c : Ty} {path : List Nat} {turned : Bool} {f m : Nat}
  {dir : Direction} {p : Port} {ps : List Part} {part : Part}

/-! ## Ports -/

/-- The port is that of the node at the end of a path, where the port of `T` has direction `dir`, the annotations `A`, and
a symbol if `S` holds. -/
structure Port.Stands (A : List Annotation) (S : Prop) (T : Ty) (dir : Direction) (path : List Nat) (turned : Bool)
    (c : Ty) (f m : Nat) (p : Port) : Prop where
  node : T.Node path c f m
  ty : p.ty = c
  direction : p.direction = dir.flipIf turned
  carried : Carried A S T path c f m p.annotations p.sym

/-- The port is that of a leaf. -/
structure Port.OfLeaf (A : List Annotation) (S : Prop) (T : Ty) (dir : Direction) (p : Port) (l : Leaf) : Prop where
  ty : p.ty = .ground l.ground
  direction : p.direction = dir.flipIf l.flip
  carried : CarriedByLeaf A S T l.path p.annotations p.sym

theorem Port.narrow_eq {r : Restricted} (hr : restrict p.annotations part = .ok r) (y : Symbols) : ∃ sym y',
    p.narrow part y = .ok (⟨p.name ++ part.suffix, part.ty, p.direction.flipIf part.flip, sym, r.annotations⟩, y') ∧
      (sym.isSome ↔ p.sym.isSome ∨ r.needsSym) := by
  unfold Port.narrow
  rw [hr]
  cases hs : p.sym with
  | some base => exact ⟨_, _, rfl, by simp⟩
  | none =>
    by_cases hn : r.needsSym = true
    · exact ⟨some (y.detached (some p.name) part.suffix).1, (y.detached (some p.name) part.suffix).2, by simp [hn],
        by simp [hn]⟩
    · exact ⟨none, y, by simp [hn], by simp [hn]⟩

/-- The port of a part stands for the part. -/
theorem Port.Stands.narrow (h : p.Stands A S T dir path turned c f m) (hA : ∀ a ∈ A, a.Movable T) (hps : c.PartsOf ps)
    (hpart : part ∈ ps) (y : Symbols) : ∃ n y' j, p.narrow part y = .ok (n, y') ∧
      n.Stands A S T dir (path ++ [part.index]) (turned ^^ part.flip) part.ty (f + part.fieldId) j := by
  obtain ⟨j, hsteps⟩ := Annotation.Steps.of_node h.node (hps.child_index hpart) (hps.fieldId_index hpart)
  obtain ⟨r, hr, hcarried⟩ := h.carried.restrict hps.aggregate hsteps hA
  obtain ⟨sym, y', hn, hsym⟩ := Port.narrow_eq hr y
  refine ⟨_, y', j, hn, hsteps.node, rfl, ?_, hcarried hsym⟩
  change p.direction.flipIf part.flip = _
  rw [h.direction, Direction.flipIf_flipIf]

/-- The port of a ground node is that of a leaf. -/
theorem Port.Stands.ofLeaf (h : p.Stands A S T dir path turned c f m) (hT : T.isGround = false) (hc : c.isGround) :
    List.Forall₂ (Port.OfLeaf A S T dir) [p] (c.leaves.map (Leaf.below path turned)) := by
  obtain ⟨hnode, hty, hdir, hcarried⟩ := h
  cases c with
  | ground g =>
    obtain rfl : m = 0 := Option.some.inj (hnode.last.symm.trans rfl)
    have hpath : path ≠ [] := by
      rintro rfl
      rw [Option.some.inj hnode.sub] at hT
      cases hT
    refine .cons ⟨hty, ?_, ?_⟩ .nil
    · simpa [Leaf.below] using hdir
    · simpa [Leaf.below] using hcarried.leaf hpath hnode.id
  | _ => cases hc

namespace Lower

/-- What is done with each of several ports stands for the leaves of all of them. -/
theorem splitEach_leaves {G : Part → Port → Prop} {ls : Part → List Leaf} {R : Port → Leaf → Prop} {i : Nat}
    {split : Port → Nat → StateT PortState (Except Failure) (List Port)} {new done : List Port} {l : List Leaf}
    {s : PortState} (hG : List.Forall₂ G ps new) (hdone : List.Forall₂ R done l) (hs : must → s.body = none)
    (hsplit : ∀ {part n j s}, part ∈ ps → G part n → (must → s.body = none) →
      Runs must (split n j) s fun new s' => List.Forall₂ R new (ls part) ∧ (must → s'.body = none)) :
    Runs must (new.foldlM (fun done port => do return done ++ (← split port (i + done.length))) done) s
      fun all s' => List.Forall₂ R all (l ++ ps.flatMap ls) ∧ (must → s'.body = none) := by
  induction hG generalizing done l s with
  | nil => exact .pure ⟨by simpa using hdone, hs⟩
  | @cons part n ps new hn _ ih =>
    rw [List.foldlM_cons, bind_assoc]
    refine (hsplit (by simp) hn hs).bind fun more s' ⟨hmore, hs'⟩ => ?_
    rw [pure_bind, List.flatMap_cons, ← List.append_assoc]
    exact ih (List.rel_append hdone hmore) hs' fun hpart => hsplit (List.mem_cons_of_mem _ hpart)

/-- Whatever happens to the arguments of the body, where there is one. -/
theorem splitBody_any {α : Type} {i : Nat} {types : List Ty} {s : PortState}
    {next : StateT PortState (Except Failure) α} {Q : α → PortState → Prop} (hs : must → s.body = none)
    (hnext : ∀ s', (must → s'.body = none) → Runs must next s' Q) :
    Runs must (do
      if let some b := (← get).body then
        let b ← b.splitArgument i types
        modify fun s => { s with body := some b }
      next) s Q := by
  refine Runs.bind (P := fun s' s'' => s = s' ∧ s = s'') (Runs.get ⟨rfl, rfl⟩) ?_
  rintro _ _ ⟨rfl, rfl⟩
  split
  next b hb =>
    have hm : ¬must := fun hm => by
      rw [hs hm] at hb
      cases hb
    refine Runs.bind (Runs.lift (Q := fun _ _ => True) (.intro (fun _ _ => trivial) fun h => absurd h hm)) fun b' s' _ => ?_
    exact Runs.bind (Runs.modify (Q := fun _ _ => True) trivial) fun _ s'' _ => hnext s'' fun h => absurd h hm
  next => exact hnext s hs

/-- A port of an aggregate type is split into ports of its leaves. -/
theorem splitPort_leaves (hA : ∀ a ∈ A, a.Movable T) (hT : T.isGround = false) (fuel : Nat) :
    ∀ {p : Port} {path : List Nat} {turned : Bool} {c : Ty} {f m i : Nat} {s : PortState},
      p.Stands A S T dir path turned c f m → c.depth ≤ fuel → (must → s.body = none) →
      Runs must (splitPort false fuel p i) s fun new s' =>
        List.Forall₂ (Port.OfLeaf A S T dir) new (c.leaves.map (Leaf.below path turned)) ∧ (must → s'.body = none) := by
  induction fuel with
  | zero =>
    intro p path turned c f m i s hp hd hs
    refine .pure ⟨hp.ofLeaf hT ?_, hs⟩
    by_contra hg
    have := Ty.depth_pos (Bool.eq_false_iff.2 hg)
    omega
  | succ fuel ih =>
    intro p path turned c f m i s hp hd hs
    unfold splitPort
    refine Runs.bind (Runs.lift (Q := fun r s' => s = s' ∧ _) ((Ty.peel_ends fun _ => ?_).mono fun r hr => ⟨rfl, hr⟩)) ?_
    · rw [hp.ty, hp.node.last]
      rfl
    rintro (_ | ps) _ ⟨rfl, hpeel⟩
    · exact .pure ⟨hp.ofLeaf hT (by simpa [hp.ty] using hpeel), hs⟩
    obtain ⟨hps, -⟩ := hpeel
    rw [hp.ty] at hps
    -- the ports of the parts, each with the symbol that it may need
    refine Runs.bind (Runs.mapM (fun done (new : List Port) (s' : PortState) => List.Forall₂ (fun part n => ∃ j,
      n.Stands A S T dir (path ++ [part.index]) (turned ^^ part.flip) part.ty (f + part.fieldId) j) done new ∧
        (must → s'.body = none)) ps ⟨.nil, hs⟩ ?_) ?_
    · rintro done part rest new s' hl ⟨hnew, hs'⟩
      obtain ⟨n, y', j, hn, hstands⟩ := hp.narrow hA hps (by simp [hl] : part ∈ ps) s'.symbols
      refine Runs.bind (P := fun s₁ s₂ => s' = s₁ ∧ s' = s₂) (Runs.get ⟨rfl, rfl⟩) ?_
      rintro _ _ ⟨rfl, rfl⟩
      refine Runs.bind (P := fun r s₁ => (n, y') = r ∧ s' = s₁) (Runs.lift (.of_eq_ok hn ⟨rfl, rfl⟩)) ?_
      rintro _ _ ⟨rfl, rfl⟩
      refine Runs.bind (Runs.modify (Q := fun _ s₁ => s₁ = ({ s' with symbols := y' } : PortState)) rfl) ?_
      rintro _ _ rfl
      exact .pure ⟨List.rel_append hnew (.cons ⟨j, hstands⟩ .nil), hs'⟩
    rintro new s₁ ⟨hnew, hs₁⟩
    rw [hps.leaves_below]
    refine splitBody_any hs₁ fun s₂ hs₂ => ?_
    refine splitEach_leaves hnew .nil hs₂ ?_
    rintro part n i s hpart ⟨j, hn⟩ hs
    refine ih hn ?_ hs
    have := hps.depth_lt hpart
    omega

end Lower

/-! ## Declarations -/

/-- In block `k`, between `L` and `B`, the operation `o` declares the value `v` of type `T`. The operations of the body are
shaped as the builder makes them, and read what is in scope. -/
structure Body.DeclaresAt (b : Body) (k : BlockId) (L : List OpId) (o : OpId) (B : List OpId) (op : Operation)
    (decl : Decl) (v : ValueId) (T : Ty) : Prop where
  coherent : b.Coherent
  inScope : b.InScope
  typed : b.Typed (OpKind.Shaped False)
  walked : b.Walked o
  slots : b.slotsOf k = L ++ o :: B
  op? : b.op? o = some op
  declares : op.kind.declaresValue = true
  decl : op.kind.decl? = some decl
  results : op.results = [v]
  ty : b.ty? v = some T

/-- `C` stands in front of `o` for the declaration of `T` that `o` was, which made `v`: one declaration of the kind for
each leaf, which whoever read the leaf reads now. -/
structure Body.SpreadOut (b : Body) (kind : OpKind) (T : Ty) (A : List Annotation) (S : Prop) (v : ValueId) (o : OpId)
    (k : BlockId) (L B C : List OpId) (b' : Body) : Prop where
  slots : b'.slotsOf k = L ++ C ++ o :: B
  leaves : List.Forall₂ (fun x l => ∃ u, b'.DeclaresLeaf kind T A S x l u) (C.filter b'.declares) T.leaves
  readers : ∀ {q : List Nat} {g : Scalarize.Ground} {u : ValueId} {y : OpId} {i : Nat}, b.At v q u → T.sub? q = some (.ground g) →
    b.Slot y i u → ∃ x ∈ C, ∃ l w, l.path = q ∧ b'.DeclaresLeaf kind T A S x l w ∧ b'.Slot y i w
  new : ∀ {x}, x ∈ C → b.op? x = none

namespace Lower

variable {t : LowerState} {k : BlockId} {L B : List OpId} {o : OpId} {op : Operation} {v : ValueId} {decl : Decl}

/-- A declaration of an aggregate is lowered to declarations of its leaves. -/
theorem declaration_leaves (hA : ∀ a ∈ A, a.Movable T) (hT : T.isGround = false) (hid : T.lastId?.isSome) (cx : Context)
    (fuel : Nat) (hkeep : cx.options.preserveAggregate = false)
    (h : t.builder.body.DeclaresAt k L o B op decl v T) (hdA : decl.annotations = A) :
    Runs (T.depth < fuel ∧ t.builder.body.ReadInParts v ∧ Suits True t.builder.body op.kind op.operands T)
      (lowerOp cx fuel k L.length) t fun _ t' => ∃ C,
        t.builder.body.SpreadOut op.kind T A decl.sym.isSome v o k L B C t'.builder.body := by
  obtain ⟨hb, hscope, htyped, hw, hs, hop, hk, hdecl, hres, hty⟩ := h
  set must := T.depth < fuel ∧ t.builder.body.ReadInParts v ∧ Suits True t.builder.body op.kind op.operands T with hmust
  have he := erased_of_stands hop hw.stands
  have hprod := OpKind.isProducer_of_declaresValue hk
  have hplain := OpKind.blocks_of_isProducer hprod
  have hmk : t.builder.body.Makes o op.kind op.operands [v] := ⟨op, hop, rfl, rfl, hres, he⟩
  obtain ⟨last, hlast⟩ := Option.isSome_iff_exists.1 hid
  have hsuits : Suits must t.builder.body op.kind op.operands T := by
    obtain ⟨ins, outs, hins, houts, hsh⟩ := htyped hop he
    rw [hres] at houts
    obtain rfl := houts.unique (.cons hty .nil)
    exact ⟨⟨ins, hins, hsh⟩, fun hm => hm.2.2.2 trivial⟩
  have hstart : Declaring must op.kind T A decl.sym.isSome v t.builder.body t.builder.body (fun _ => T.depth) [o] [] := by
    refine ⟨_, T.leaves, [], .start hb hmk (OpKind.fixedIndex?_eq_none (OpKind.isAccessor_of_isProducer hprod)) hty htyped
      (fun hm => hm.2.1) fun hu => hscope.not_at hb hw hmk hu, (List.append_nil _).symm, .single ?_, .nil⟩
    have hnode : Declares must op.kind T A decl.sym.isSome (t.builder.body.At v) (fun _ => T.depth) t.builder.body False o
        (T.leaves.map (Leaf.below [] false)) :=
      .node .self (.root hlast) hop (OpKind.eq_mapDecl_const hk hdecl) hres he (hdA ▸ .root hT Iff.rfl) hsuits (fun _ => Nat.le_refl _) False.elim
    simpa using hnode
  refine (Region.lowerOp_runs (Declaring.kept hk hkeep hA) hb hop hplain hw hs hstart fun hm => hm.1).mono ?_
  rintro - t' ⟨C, N, R', hC, hsem⟩
  have hb' := hC.region.coherent
  -- nothing that stands for leaves guards anything
  obtain rfl : N = C ++ [o] := hC.unfolds.eq_of_plain fun x hx op' hop' => by
    obtain ⟨_, m₁, m₂, -, -, -, hD⟩ := hsem
    obtain ⟨ls, hls⟩ := hD.exists_of_mem (hC.unfolds.subset hx)
    exact hls.plain hk hop'
  -- what the former declaration makes is no leaf
  have hroot : ∀ {l u}, ¬t'.builder.body.DeclaresLeaf op.kind T A decl.sym.isSome o l u := by
    rintro l u ⟨op', d, hop', -, -, hres', hty', -⟩
    obtain ⟨op'', hop'', -, hres'', -⟩ := hC.region.edited.op? hop
    obtain rfl : v = u := by
      rw [Option.some.inj (hop'.symm.trans hop''), hres'', hres] at hres'
      simpa using hres'
    rw [hC.region.edited.ty? hty, Option.some.injEq] at hty'
    rw [hty'] at hT
    cases hT
  have hnd := hC.region.tidy.nodup
  rw [List.nil_append, List.nodup_append] at hnd
  refine ⟨C, hC.slots, ?_, fun hp hg hslot => ?_, fun {x} hx => ?_⟩
  · have hleaves := hsem.leaves hk hT
    have hfilter : [o].filter t'.builder.body.declares = [] := by
      rw [List.filter_eq_nil_iff]
      intro x hx hdecl'
      obtain rfl := List.mem_singleton.1 hx
      obtain ⟨l, -, u, hleaf⟩ := exists_of_forall₂ hleaves.flip (List.mem_filter.2 ⟨by simp, hdecl'⟩)
      exact hroot hleaf
    rwa [List.filter_append, hfilter, List.append_nil] at hleaves
  · obtain ⟨x, hx, l, w, hl, hleaf, hslot'⟩ := hsem.slot hb' hk hT hp hg hslot
    refine ⟨x, (List.mem_append.1 hx).resolve_right fun hx => ?_, l, w, hl, hleaf, hslot'⟩
    rw [List.mem_singleton.1 hx] at hleaf
    exact hroot hleaf
  · refine (hC.region.new x (by simp [hx])).resolve_left ?_
    rintro rfl
    exact hnd.2.2 x hx x (by simp) rfl

/-- Splitting hands the annotations `A` of an aggregate on to its leaves, through any nesting. A wire, a register or a
node gives way to one declaration for each leaf, and a port to one port for each leaf, in pre-order. Of `A`, each of them
carries the annotations that belong to the leaf or to what encloses it, in the order of `A` and moved to the leaf. -/
theorem leaves_carry (hA : ∀ a ∈ A, a.Movable T) (hT : T.isGround = false) (hid : T.lastId?.isSome) :
    (∀ (cx : Context) (fuel : Nat) (t : LowerState) (k : BlockId) (L : List OpId) (o : OpId) (B : List OpId) (op : Operation)
      (decl : Decl) (v : ValueId), cx.options.preserveAggregate = false → t.builder.body.DeclaresAt k L o B op decl v T →
      decl.annotations = A →
      Runs (T.depth < fuel ∧ t.builder.body.ReadInParts v ∧ Suits True t.builder.body op.kind op.operands T)
        (lowerOp cx fuel k L.length) t fun _ t' => ∃ C,
          t.builder.body.SpreadOut op.kind T A decl.sym.isSome v o k L B C t'.builder.body) ∧
    ∀ (p : Port) (i : Nat) (s : PortState), p.ty = T → p.annotations = A →
      Runs (s.body = none) (splitPort false T.depth p i) s fun new _ =>
        List.Forall₂ (Port.OfLeaf A p.sym.isSome T p.direction) new T.leaves := by
  refine ⟨fun cx fuel t k L o B op decl v hkeep h hdA => declaration_leaves hA hT hid cx fuel hkeep h hdA,
    fun p i s hp hpA => ?_⟩
  obtain ⟨last, hlast⟩ := Option.isSome_iff_exists.1 hid
  have hstands : p.Stands A p.sym.isSome T p.direction [] false T 0 last :=
    ⟨.root hlast, hp, by cases p.direction <;> rfl, hpA ▸ .root hT Iff.rfl⟩
  refine (splitPort_leaves hA hT T.depth hstands (Nat.le_refl _) id).mono fun new s' h => ?_
  simpa using h.1

end Lower

/-! ### A field, and a vector of fields that flow the other way -/

def nestedTy : Ty := .bundle [⟨"a", false, .uint 1⟩, ⟨"b", true, .vector (.uint 2) 2⟩]

/-- A do-not-touch annotation of the vector, a signal driver for all, and an annotation of a leaf that is scoped to a
path. -/
def nestedAnnotations : List Annotation :=
  open Annotation in
  [⟨dontTouch, some 2, none, []⟩, ⟨signalDriver, none, none, [(fieldIdMember, .int 3)]⟩, ⟨"C", some 1, some "path", []⟩]

/-- A wire of that type, and a node that reads its first field. -/
def wireBody : Body where
  values := #[⟨nestedTy, .result ⟨0⟩ 0, [⟨⟨1⟩, 0⟩]⟩, ⟨.uint 1, .result ⟨1⟩ 0, [⟨⟨2⟩, 0⟩]⟩, ⟨.uint 1, .result ⟨2⟩ 0, []⟩]
  ops := #[⟨.wire { annotations := nestedAnnotations }, [], [⟨0⟩], Body.entry, false⟩,
    ⟨.subfield 0, [⟨0⟩], [⟨1⟩], Body.entry, false⟩, ⟨.node {}, [⟨1⟩], [⟨2⟩], Body.entry, false⟩]
  blocks := #[⟨[⟨0⟩, ⟨1⟩, ⟨2⟩], none⟩]
  args := []

theorem wireBody_built : Builder.Built [] ⟨wireBody, ⟨Body.entry, 3⟩⟩ :=
  .call (.node ⟨1⟩ {}) (.call (.subfield ⟨0⟩ 0) (.call (.wire nestedTy { annotations := nestedAnnotations })
    (.start ⟨Body.entry, 0⟩ rfl) rfl) rfl) rfl

theorem nestedAnnotations_movable : ∀ a ∈ nestedAnnotations, a.Movable nestedTy := by
  have hfits : ∀ a ∈ nestedAnnotations, a.held + 4 < UInt64.size ∧ a.fieldId ≠ some 0 := by decide
  exact fun a ha => Annotation.Fits.movable (fun _ => (hfits a ha).1) (fun _ => (hfits a ha).2) (by decide) (by decide)

theorem wireBody_declares : wireBody.DeclaresAt Body.entry [] ⟨0⟩ [⟨1⟩, ⟨2⟩]
    ⟨.wire { annotations := nestedAnnotations }, [], [⟨0⟩], Body.entry, false⟩ { annotations := nestedAnnotations } ⟨0⟩
    nestedTy where
  coherent := wireBody_built.reachable.coherent
  inScope := by
    intro x op v hw hop hv
    have hlt : x.index < 3 := lt_of_op? hop
    -- the accessor reads the wire, and the node reads what it reaches
    match x, hlt with
    | ⟨0⟩, _ =>
      obtain rfl := Option.some.inj hop
      cases hv
    | ⟨1⟩, _ =>
      obtain rfl := Option.some.inj hop
      obtain rfl := List.mem_singleton.1 hv
      exact .inr ⟨⟨0⟩, 0, rfl, by decide, .here (k := Body.entry) (by decide)⟩
    | ⟨2⟩, _ =>
      obtain rfl := Option.some.inj hop
      obtain rfl := List.mem_singleton.1 hv
      exact .inr ⟨⟨1⟩, 0, rfl, by decide, .here (k := Body.entry) (by decide)⟩
  typed := wireBody_built.sound.shaped False.elim
  walked := .entry (by decide) (by decide)
  slots := rfl
  op? := rfl
  declares := rfl
  decl := rfl
  results := rfl
  ty := rfl

theorem wireBody_readInParts : wireBody.ReadInParts ⟨0⟩ := by
  intro p u c x op _ hu hg hx hop
  have hlt : x.index < 3 := lt_of_op? hop
  obtain ⟨op', hop', hmem⟩ := hx
  obtain rfl := Option.some.inj (hop.symm.trans hop')
  match x, hlt with
  | ⟨0⟩, _ =>
    obtain rfl := Option.some.inj hop
    cases hmem
  | ⟨1⟩, _ =>
    obtain rfl := Option.some.inj hop
    rfl
  | ⟨2⟩, _ =>
    obtain rfl := Option.some.inj hop
    obtain rfl := List.mem_singleton.1 hmem
    obtain rfl := Option.some.inj hu
    cases hg

theorem Lower.leaves_carry_nested :
    (∃ r, (lowerOp ⟨{}, []⟩ 3 Body.entry 0).run ⟨⟨wireBody, ⟨Body.entry, 3⟩⟩, ⟨"M", {}, [], {}, [], 0⟩⟩ = .ok r ∧
      ∃ C, wireBody.SpreadOut (.wire { annotations := nestedAnnotations }) nestedTy nestedAnnotations False ⟨0⟩ ⟨0⟩
        Body.entry [] [⟨1⟩, ⟨2⟩] C r.2.builder.body) ∧
    ∃ r, (splitPort false 2 ⟨"p", nestedTy, .input, some "s", nestedAnnotations⟩ 0).run
      ⟨none, ⟨"M", {}, [], {}, [], 0⟩⟩ = .ok r ∧
        List.Forall₂ (Port.OfLeaf nestedAnnotations True nestedTy .input) r.1 nestedTy.leaves := by
  have hcarry := Lower.leaves_carry nestedAnnotations_movable rfl (by decide)
  refine ⟨?_, ?_⟩
  · -- the state is kept closed, so that nothing is run here
    generalize ht : (⟨⟨wireBody, _⟩, _⟩ : LowerState) = t
    have hb : t.builder.body = wireBody := ht ▸ rfl
    rw [← hb]
    have hdeclares : t.builder.body.DeclaresAt Body.entry [] ⟨0⟩ [⟨1⟩, ⟨2⟩]
        ⟨.wire { annotations := nestedAnnotations }, [], [⟨0⟩], Body.entry, false⟩ { annotations := nestedAnnotations } ⟨0⟩
        nestedTy := hb ▸ wireBody_declares
    have hends := hcarry.1 ⟨{}, []⟩ 3 t _ _ _ _ _ _ _ rfl hdeclares rfl
    have hsuits : Suits True t.builder.body (.wire { annotations := nestedAnnotations }) [] nestedTy :=
      ⟨⟨[], .nil, rfl, nestedTy, rfl⟩, fun _ {v j} hv => by simp at hv⟩
    obtain ⟨r, hr, C, hC⟩ := hends.exists_ok ⟨by decide, hb ▸ wireBody_readInParts, hsuits⟩
    exact ⟨r, hr, C, by simpa using hC⟩
  · generalize hp : (⟨"p", nestedTy, .input, some "s", nestedAnnotations⟩ : Port) = p
    generalize hs : (⟨none, _⟩ : PortState) = s
    have hends := hcarry.2 p 0 s (hp ▸ rfl) (hp ▸ rfl)
    have hsym : (p.sym.isSome = true) = True := hp ▸ eq_true rfl
    have hdir : p.direction = .input := hp ▸ rfl
    rw [hsym, hdir] at hends
    exact hends.exists_ok (hs ▸ rfl)

end Scalarize
