import Scalarize.Proofs.Annotation.Nodes
import Scalarize.Proofs.Region.Parts

/-!
# Declarations of aggregates

A wire, a register or a node of an aggregate type is lowered to one declaration of its kind for each leaf, with what the
leaf has of the annotations, and a symbol where it needs one.

* `Body.Suits` : the operands with which a node of the type is made;
* `Body.Declares` : the leaves for which an operation stands;
* `Body.Declaring` : what holds between two layers;
* `Body.Declares.split_runs`, `Body.Declaring.step_runs` : one layer;
* `Body.Declaring.leaves`, `Body.Declaring.slot` : the declarations that are left, and who reads them.
-/

namespace Scalarize

open Body Lower Grows

/-! ## Declarations of parts -/

namespace OpKind

/-- Declares a value that lowering splits. -/
def declaresValue : OpKind → Bool
  | wire _ | reg _ | regReset _ | node _ => true
  | _ => false

variable {K kind : OpKind}

theorem isProducer_of_declaresValue (h : K.declaresValue = true) : K.isProducer = true := by
  cases K <;> first | rfl | cases h

theorem isSome_decl?_of_declaresValue (h : K.declaresValue = true) : K.decl?.isSome := by
  cases K <;> first | rfl | cases h

/-- What a kind is with another declaration does not depend on the one it had. -/
theorem mapDecl_const_of_bare_eq (h : kind.bare = K.bare) (d : Decl) :
    (kind.mapDecl fun _ => d) = K.mapDecl fun _ => d := by
  cases kind <;> cases K <;> simp_all [bare, mapDecl]

theorem takesPart_mapDecl (f : Decl → Decl) (K : OpKind) : (K.mapDecl f).takesPart = K.takesPart := by
  funext j
  cases K <;> rfl

/-- A kind has the declaration that it carries. -/
theorem eq_mapDecl_const {d : Decl} (hK : K.declaresValue = true) (h : K.decl? = some d) : K = K.mapDecl fun _ => d := by
  cases K <;> simp_all [decl?, mapDecl, declaresValue]

theorem decl?_mapDecl_const (h : K.declaresValue = true) (d : Decl) : (K.mapDecl fun _ => d).decl? = some d := by
  cases K <;> first | rfl | cases h

end OpKind

theorem Decl.annotations_forPart (d : Decl) (part : Part) (r : Restricted) (y : Symbols) (x : OpId) :
    (d.forPart part r y x).1.annotations = r.annotations := by
  unfold forPart
  cases d.sym with
  | some base => rfl
  | none => cases hn : r.needsSym <;> simp

theorem Decl.isSome_sym_forPart (d : Decl) (part : Part) (r : Restricted) (y : Symbols) (x : OpId) :
    (d.forPart part r y x).1.sym.isSome ↔ d.sym.isSome ∨ r.needsSym := by
  unfold forPart
  cases d.sym with
  | some base => simp
  | none => cases hn : r.needsSym <;> simp

namespace Body

variable {must done : Prop} {cx : Context} {b₀ b b' : Body} {o x : OpId} {K kind : OpKind} {vs ws : List ValueId}
  {T c e : Ty} {A : List Annotation} {S : Prop} {C C' : List Nat → ValueId → Prop} {R R' : OpId → Nat} {k : BlockId}
  {L B P D N : List OpId} {ls : List Leaf} {op : Operation} {path : List Nat} {turned : Bool} {v u w : ValueId} {i : Nat}

/-! ## Operands -/

/-- An operation of the kind may make a value of the type from the operands. Operands of which parts are read are
structured like what is made, where failures are excluded. -/
def Suits (must : Prop) (b : Body) (K : OpKind) (vs : List ValueId) (c : Ty) : Prop :=
  (∃ ins, b.Types vs ins ∧ K.Shaped False ins [c]) ∧
    (must → ∀ {v j}, vs[j]? = some v → K.takesPart j = true → ∃ t, b.ty? v = some t ∧ t.Alike c)

theorem Suits.mono (h : Suits must b K vs c) (hty : ∀ {v t}, b.ty? v = some t → b'.ty? v = some t) :
    Suits must b' K vs c := by
  obtain ⟨⟨ins, hins, hsh⟩, hm⟩ := h
  refine ⟨⟨ins, hins.imp fun _ _ => hty, hsh⟩, fun hmust {v j} hv ht => ?_⟩
  obtain ⟨t, ht, halike⟩ := hm hmust hv ht
  exact ⟨t, hty ht, halike⟩

/-- The operands with which a part is made suit it. -/
theorem Suits.narrowed (h : Suits must b K vs c) (hK : K.declaresValue = true) (hg : c.isGround = false)
    (he : c.child? i = some e) (hn : b.Narrowed K i vs ws) : Suits must b K ws e := by
  obtain ⟨⟨ins, hins, hsh⟩, hm⟩ := h
  -- a part of an operand is structured like the part that is made
  have hpart : ∀ {v w j}, must → vs[j]? = some v → K.takesPart j = true → b.PartOf v i w →
      ∃ t, b.ty? w = some t ∧ t.Alike e := by
    intro v w j hmust hv htakes hw
    obtain ⟨t, ht, halike⟩ := hm hmust hv htakes
    obtain ⟨d, hd, halike'⟩ := halike.child he
    exact ⟨d, hw.ty? ht hd, halike'⟩
  unfold Narrowed at hn
  cases K with
  | wire d =>
    obtain ⟨rfl, -⟩ := hsh
    cases hins
    cases hn
    exact ⟨⟨[], .nil, rfl, e, rfl⟩, fun _ {v j} hv => by simp at hv⟩
  | reg d =>
    obtain ⟨t, c', rfl, -⟩ := hsh
    obtain ⟨clock, ht, rfl⟩ := hins.singleton
    cases hn with | cons hw hn =>
    cases hn
    obtain rfl := hw
    exact ⟨⟨[t], hins, t, e, rfl, rfl⟩, fun _ {v j} _ htakes => by simp [OpKind.takesPart] at htakes⟩
  | regReset d =>
    obtain ⟨t, t', t'', c', rfl, -⟩ := hsh
    obtain ⟨clock, reset, init, h₁, h₂, -, rfl⟩ := hins.triple
    cases hn with | cons hw₁ hn =>
    cases hn with | cons hw₂ hn =>
    cases hn with | cons hw₃ hn =>
    cases hn
    obtain rfl := hw₁
    obtain rfl := hw₂
    obtain ⟨-, _, d, -, -, hty⟩ := id hw₃
    refine ⟨⟨[t, t', d], .cons h₁ (.cons h₂ (.cons hty .nil)), t, t', d, e, rfl, rfl⟩, fun hmust {v j} hv htakes => ?_⟩
    obtain rfl : j = 2 := by simpa [OpKind.takesPart] using htakes
    obtain rfl : _ = v := by simpa using hv
    exact hpart (j := 2) hmust rfl rfl hw₃
  | node d =>
    obtain ⟨a, t, rfl, ht, hat⟩ := hsh
    obtain rfl : c = t := by simpa using ht
    obtain rfl := hat.symm.eq_of_not_isGround hg
    obtain ⟨input, hin, rfl⟩ := hins.singleton
    cases hn with | cons hw hn =>
    cases hn
    have hty := PartOf.ty? hw hin he
    refine ⟨⟨[e], .cons hty .nil, e, e, rfl, rfl, .refl e⟩, fun _ {v j} hv _ => ?_⟩
    obtain rfl : _ = v := by
      cases j with
      | zero => simpa using hv
      | succ j => simp at hv
    exact ⟨e, hty, .refl e⟩
  | _ => cases hK

/-! ## What operations stand for -/

/-- The leaves of `T` for which the operation stands: it declares the node at the end of a path, of which it carries
what a declaration of `T` with the annotations `A`, and with a symbol if `S` holds, leaves it. Accessors stand for
nothing. What is done declares leaves, or is erased. -/
inductive Declares (must : Prop) (K : OpKind) (T : Ty) (A : List Annotation) (S : Prop) (C : List Nat → ValueId → Prop)
    (R : OpId → Nat) (b : Body) (done : Prop) (x : OpId) : List Leaf → Prop
  | node {path : List Nat} {turned : Bool} {c : Ty} {f m : Nat} {u : ValueId} {d : Decl} {op : Operation} (hu : C path u)
      (hn : T.Node path c f m) (hop : b.op? x = some op) (hk : op.kind = K.mapDecl fun _ => d) (hres : op.results = [u])
      (he : op.erased = false) (hd : Carried A S T path c f m d.annotations d.sym)
      (hins : Suits must b K op.operands c) (hR : must → c.depth ≤ R x) (hdone : done → c.isGround) :
      Declares must K T A S C R b done x (c.leaves.map (Leaf.below path turned))
  | access {kind : OpKind} {i : Nat} {u w : ValueId} (hk : kind.fixedIndex? = some i) (hx : b.Makes x kind [u] [w]) :
      Declares must K T A S C R b done x []
  | erased {op : Operation} (hdone : done) (hop : b.op? x = some op) (hk : op.kind.bare = K.bare) (he : op.erased = true) :
      Declares must K T A S C R b done x []

namespace Declares

theorem of_accessors {xs : List OpId} (h : b.Accessors xs) :
    StandFor (Declares must K T A S C R b done) xs [] := .none fun x hx => by
  obtain ⟨kind, i, v, w, hk, hmk⟩ := h x hx
  exact .access hk hmk

/-- Where the operation is as it was, it stands for what it stood for. -/
theorem same (h : Declares must K T A S C R b done x ls) (hop : ∀ {op}, b.op? x = some op → b'.op? x = some op)
    (hty : ∀ {v t}, b.ty? v = some t → b'.ty? v = some t) (hC : ∀ {p u}, C p u → C' p u) (hR : must → R' x = R x) :
    Declares must K T A S C' R' b' done x ls := by
  cases h with
  | node hu hn hop' hk hres he hd hins hle hdone =>
    exact .node (hC hu) hn (hop hop') hk hres he hd (hins.mono hty) (fun hm => (hR hm) ▸ hle hm) hdone
  | access hk hx =>
    obtain ⟨op, hop', hrest⟩ := hx
    exact .access hk ⟨op, hop hop', hrest⟩
  | erased hdone hop' hk he => exact .erased hdone (hop hop') hk he

/-- What stands for something guards nothing. -/
theorem plain (h : Declares must K T A S C R b done x ls) (hK : K.declaresValue = true) (hop : b.op? x = some op) :
    op.kind.blocks = [] := by
  have hbare : ∀ {k : OpKind}, k.bare = K.bare → k.blocks = [] := fun h => by
    rw [OpKind.blocks_eq_of_bare_eq h, OpKind.blocks_of_isProducer (OpKind.isProducer_of_declaresValue hK)]
  cases h with
  | node hu hn hop' hk =>
    rw [Option.some.inj (hop.symm.trans hop'), hk]
    exact hbare (OpKind.bare_mapDecl _ K)
  | access hk hx =>
    obtain ⟨op', hop', hb, -⟩ := hx
    rw [← OpKind.fixedIndex?_eq_of_bare_eq hb, ← Option.some.inj (hop.symm.trans hop')] at hk
    cases hkind : op.kind <;> simp_all [OpKind.fixedIndex?, OpKind.blocks]
  | erased _ hop' hk =>
    rw [Option.some.inj (hop.symm.trans hop')]
    exact hbare hk

/-- What is pending stands. -/
theorem stands (h : Declares must K T A S C R b False x ls) (hop : b.op? x = some op) : op.erased = false := by
  cases h with
  | node _ _ hop' _ _ he => rw [Option.some.inj (hop.symm.trans hop'), he]
  | access _ hx =>
    obtain ⟨op', hop', -, -, -, he⟩ := hx
    rw [Option.some.inj (hop.symm.trans hop'), he]
  | erased hdone => cases hdone

end Declares

/-- The operations that are pending and those that are done stand for all leaves of `T`, in order, and the chart says who
reads what they make. -/
def Declaring (must : Prop) (K : OpKind) (T : Ty) (A : List Annotation) (S : Prop) (v : ValueId) (b₀ b : Body)
    (R : OpId → Nat) (P D : List OpId) : Prop :=
  ∃ C m₁ m₂, Charted must b₀ v T C b P D ∧ T.leaves = m₁ ++ m₂ ∧ StandFor (Declares must K T A S C R b False) P m₁ ∧
    StandFor (Declares must K T A S C R b True) D m₂

/-! ## One layer -/

/-- What was made for the first parts of a node, whose declaration `x` with the operands `vs` is split in block `k`. -/
structure Divided (must : Prop) (K : OpKind) (T : Ty) (A : List Annotation) (S : Prop) (C : List Nat → ValueId → Prop)
    (R : OpId → Nat) (vs : List ValueId) (b : Body) (x : OpId) (k : BlockId) (L B : List OpId) (path : List Nat)
    (turned : Bool) (parts : List Part) (values : List ValueId) (N : List OpId) (s : Builder) : Prop where
  placed : b.Prefixed x k L B N s
  grown : Charted.Grown (· ∈ vs) (partsAt path values) T b N s.body
  leaves : StandFor (Declares must K T A S (fun p u => C p u ∨ partsAt path values p u) R s.body False) N
    (parts.flatMap fun p => p.ty.leaves.map (Leaf.below (path ++ [p.index]) (turned ^^ p.flip)))
  length : values.length = parts.length
  produced : ∀ w ∈ values, ProducedIn T N s.body w

variable {t : LowerState} {ps parts rest : List Part} {part : Part} {values : List ValueId} {f m : Nat} {d : Decl}

/-- An operation of the kind is made for a part, and declares it. -/
theorem Divided.part_runs {clone : Part → Build ValueId}
    (hI : Divided must K T A S C R vs b x k L B path turned parts values N t.builder)
    (hK : K.declaresValue = true) (hA : ∀ a ∈ A, a.Movable T) (hn : T.Node path c f m) (hg : c.isGround = false)
    (hps : c.PartsOf ps) (hl : ps = parts ++ part :: rest) (hvs : Suits must b K vs c)
    (hd : Carried A S T path c f m d.annotations d.sym) (hR : must → ∀ y, b.op? y = none → c.depth ≤ R y + 1)
    (hclone : ∀ {V : ValueId → Prop} {M : Body → OpKind → List ValueId → List Ty → Prop} {A : OpKind → List Ty → Prop}
      {I : List OpId → Builder → Prop} {N : List OpId} {s : Builder} {p : Part}, Grows V M A I → c.isGround = false →
      Cloning must V M I N s (K.mapDecl fun _ => d) vs c p →
        Runs must (clone p) s (Clones I N s (K.mapDecl fun _ => d) vs p)) :
    Runs must (do
      let restricted ← restrict d.annotations part
      let value ← clone part
      declarePart d part restricted value
      return value : Lower ValueId) t fun w t' => ∃ N',
        Divided must K T A S C R vs b x k L B path turned (parts ++ [part]) (values ++ [w]) N' t'.builder := by
  have hmem : part ∈ ps := by simp [hl]
  have hchild := hps.child_index hmem
  obtain ⟨j, hsteps⟩ := Annotation.Steps.of_node hn hchild (hps.fieldId_index hmem)
  obtain ⟨r, hr, hcarried⟩ := hd.restrict hg hsteps hA
  refine Runs.bind_except (.of_eq_ok hr rfl) ?_
  rintro _ rfl
  have hvs' : Suits must t.builder.body K vs c := hvs.mono hI.grown.ext.ty?_some
  obtain ⟨⟨ins, hins, hsh⟩, halike⟩ := id hvs'
  have hgrows := Added.grows (· ∈ vs) b x k L B N t.builder.body
  have hstart : Added (· ∈ vs) b x k L B N t.builder.body [] t.builder := .start hI.placed
  have hcloning : Cloning must (· ∈ vs) (fun _ _ _ _ => True) (Added (· ∈ vs) b x k L B N t.builder.body) [] t.builder
      (K.mapDecl fun _ => d) vs c part :=
    { holds := hstart
      atHand := fun v hv => .inl hv
      shaped := ⟨ins, hins, OpKind.shaped_mapDecl _ hsh⟩
      child := hchild
      makesPart := fun _ _ _ _ _ _ _ => trivial
      makes := fun _ _ => trivial
      must := fun hmust {v j} hv htakes => by
        rw [OpKind.takesPart_mapDecl] at htakes
        obtain ⟨t, ht, halike⟩ := halike hmust hv htakes
        obtain ⟨e, he, -⟩ := halike.child hchild
        exact ⟨t, e, ht, he⟩ }
  refine Runs.bind_build (hclone hgrows hg hcloning) ?_
  rintro w s' ⟨xs, o, ws, hgrew, hxs, hmk, hty, hnarrow⟩
  rw [List.nil_append] at hgrew
  have hsb := hgrows.coherent hgrew.holds
  refine (Lower.declarePart_runs (t := ⟨s', t.symbols⟩) (hmk.origin? hsb rfl) d part r).bind ?_
  rintro _ _ rfl
  refine .pure ⟨N ++ (xs ++ [o]), ?_⟩
  let new := (d.forPart part r t.symbols o).1
  have hadded : Added (· ∈ vs) b x k L B N t.builder.body (xs ++ [o]) ⟨s'.body.modifyDecl o fun _ => new, s'.point⟩ :=
    hgrows.declare hgrew.holds (by simp) fun _ _ _ _ => trivial
  have hext : Extends s'.body (s'.body.modifyDecl o fun _ => new) := .modifyDecl _ _ _
  have hmk' := hmk.mono hext
  have hindex : part.index = values.length := by
    have hp : ps[parts.length]? = some part := by simp [hl]
    rw [hps.index hp, hI.length]
  have hlt : ∀ {u}, u ∈ vs → u.index < b.values.size := fun {u} => by
    obtain ⟨⟨_, hins, -⟩, -⟩ := hvs
    exact hins.lt u
  have hgrown := hI.grown.part hlt hadded hmk' hn.sub (hindex ▸ hchild) (hext.ty?_some hty)
  refine ⟨hadded.placed, hgrown, ?_, by simp [hI.length], ?_⟩
  · rw [List.flatMap_append, List.flatMap_singleton]
    refine (hI.leaves.mono fun y _ ls hls => hls.same hadded.kept hadded.ext.ty?_some ?_ fun _ => rfl).append ?_
    · rintro p u (hu | ⟨i, rfl, hi⟩)
      · exact .inl hu
      · exact .inr ⟨i, rfl, by rw [List.getElem?_append_left (List.getElem?_eq_some_iff.1 hi).1, hi]⟩
    refine (Declares.of_accessors (hxs.mono hext)).append (.single ?_)
    obtain ⟨op, hop, hbare, hops, hres, he⟩ := hmk
    have hkind : (op.kind.mapDecl fun _ => new) = K.mapDecl fun _ => new :=
      OpKind.mapDecl_const_of_bare_eq (hbare.trans ((OpKind.bare_mapDecl _ _).trans (OpKind.bare_mapDecl _ K))) new
    have hop' : (s'.body.modifyDecl o fun _ => new).op? o = some { op with kind := op.kind.mapDecl fun _ => new } := by
      rw [op?_modifyDecl, hop, Option.map_some, if_pos rfl]
    have hnarrow' : (s'.body.modifyDecl o fun _ => new).Narrowed K part.index vs ws := by
      have := hnarrow.mono hext
      unfold Narrowed at this ⊢
      rwa [OpKind.takesPart_mapDecl] at this
    refine .node (.inr ⟨values.length, by rw [hindex], by simp⟩) hsteps.node hop' hkind hres he ?_ ?_ (fun hmust => ?_)
      False.elim
    · rw [show new.annotations = r.annotations from d.annotations_forPart part r t.symbols o]
      exact hcarried (d.isSome_sym_forPart part r t.symbols o)
    · exact hops ▸ (hvs'.mono hadded.ext.ty?_some).narrowed hK hg hchild hnarrow'
    · have := hR hmust o (hgrown.fresh o (by simp))
      have := hps.depth_lt hmem
      omega
  · intro w' hw'
    rcases List.mem_append.1 hw' with hw' | hw'
    · exact (hI.produced w' hw').mono hadded.ext fun _ => List.mem_append_left _
    · rw [List.mem_singleton.1 hw']
      refine ⟨o, by simp, _, ws, fun _ => ?_, hmk'⟩
      rw [OpKind.fixedIndex?_bare, ← OpKind.fixedIndex?_bare, OpKind.bare_mapDecl, OpKind.fixedIndex?_bare]
      exact OpKind.fixedIndex?_eq_none (OpKind.isAccessor_of_isProducer (OpKind.isProducer_of_declaresValue hK))

/-- Once all parts are made, the readers of the node are handed over to them. -/
theorem Divided.layer_ends {s : Builder} {y : Symbols} {m₁ m₂ : List Leaf}
    (hI : Divided must K T A S C R' op.operands b x k L B path turned ps values N s) (hr : b₀.Region o b (P ++ [x]) D)
    (hch : Charted must b₀ v T C b (P ++ [x]) D) (hK : K.declaresValue = true) (hop : b.op? x = some op)
    (hk : op.kind.bare = K.bare) (hres : op.results = [u]) (hu : C path u) (hc : T.sub? path = some c)
    (hps : c.PartsOf ps) (hR : ∀ z, (b.op? z).isSome → R' z = R z) (hlt : must → ∀ z, b.op? z = none → R' z < R x)
    (hleaves : T.leaves = m₁ ++ c.leaves.map (Leaf.below path turned) ++ m₂)
    (hP : StandFor (Declares must K T A S C R b False) P m₁) (hD : StandFor (Declares must K T A S C R b True) D m₂) :
    Ends must (s.body.rewire u values) fun b' =>
      Layer must (Declaring must K T A S v b₀) b R x k L B P D ⟨⟨b', s.point⟩, y⟩ := by
  have hext := hI.grown.ext
  have hmem : ∀ z ∈ P ++ [x] ++ D, (b.op? z).isSome := hr.tidy.known
  have hfresh : ∀ z ∈ N, b.op? z = none := hI.grown.fresh
  have hkept : ∀ {z op}, b.op? z = some op → s.body.op? z = some op := hI.placed.op?_old hext
  have hgrown := hch.grown hI.grown fun {p u} hv hu => hch.apart (x := x) (by simp) hu ⟨op, hop, hv⟩
  have hfixed : op.kind.fixedIndex? = none := by
    rw [OpKind.fixedIndex?_eq_of_bare_eq hk]
    exact OpKind.fixedIndex?_eq_none (OpKind.isAccessor_of_isProducer (OpKind.isProducer_of_declaresValue hK))
  have hxP : x ∉ P ∧ x ∉ D := by
    have hnd := hr.tidy.nodup
    rw [List.append_assoc, List.singleton_append, List.nodup_middle, List.nodup_cons, List.mem_append, not_or] at hnd
    exact hnd.1
  refine hgrown.layer_ends hr hI.placed hext hop hfixed hres (.inl hu) hc hps hI.length (fun {i w} hi => ?_) hR
    (fun hmust z hz => hlt hmust z (hfresh z hz)) fun {b₂} hch₂ hbut => ?_
  · exact ⟨.inr ⟨i, rfl, hi⟩, hI.produced w (List.mem_of_getElem? hi)⟩
  -- what stood for leaves, and is not split, stands for them still
  have hold : ∀ {done : Prop} {l : List OpId} {m : List Leaf}, (∀ z ∈ l, z ∈ P ++ D) →
      StandFor (Declares must K T A S C R b done) l m →
      StandFor (Declares must K T A S (fun p u => C p u ∨ partsAt path values p u) R' b₂ done) l m := by
    intro done l m hl hm
    refine hm.mono fun z hz ls hls => hls.same (fun hop' => hbut.op? ?_ ?_ (hkept hop'))
      (fun hw => hbut.ty? (hext.ty?_some hw)) .inl fun _ => hR z (hmem z ?_)
    · have := hl z hz
      simp only [List.mem_append] at this ⊢
      tauto
    · rintro rfl
      exact (List.mem_append.1 (hl z hz)).elim hxP.1 hxP.2
    · have := hl z hz
      simp only [List.mem_append] at this ⊢
      tauto
  have hpieces := hI.leaves
  rw [← hps.leaves_below] at hpieces
  refine ⟨_, m₁ ++ c.leaves.map (Leaf.below path turned), m₂, hch₂, hleaves, (hold (fun _ => List.mem_append_left D) hP).append ?_,
    StandFor.skip ?_ (hold (fun _ => List.mem_append_right P) hD)⟩
  · refine hpieces.mono fun z hz ls hls => hls.same (fun hop' => hbut.op? (by simp [hz]) ?_ hop') hbut.ty? id fun _ => rfl
    rintro rfl
    rw [hfresh z hz] at hop
    cases hop
  · exact .erased trivial (hbut.erased (hkept hop)) hk rfl

/-- A declaration of an aggregate gives way to those of its parts, everything else is passed. -/
theorem Declaring.step_runs {opx : Operation} (hK : K.declaresValue = true) (hkeep : cx.options.preserveAggregate = false)
    (hA : ∀ a ∈ A, a.Movable T) (hr : b₀.Region o t.builder.body (P ++ [x]) D)
    (h : Declaring must K T A S v b₀ t.builder.body R (P ++ [x]) D) (hop : t.builder.body.op? x = some opx)
    (hs : t.builder.body.slotsOf k = L ++ x :: B) (hp : t.builder.point = ⟨k, L.length⟩) :
    Runs must (Lower.step cx x opx.kind) t fun replaced t' =>
      if replaced then Layer must (Declaring must K T A S v b₀) t.builder.body R x k L B P D t'
      else t'.builder.body = t.builder.body ∧ Declaring must K T A S v b₀ t.builder.body R P (x :: D) := by
  obtain ⟨C, m, m₂, hch, hT, hP, hD⟩ := h
  obtain ⟨m₁, ls, rfl, hP₁, hx⟩ := hP.of_append
  have hb := hr.coherent
  have hmem : ∀ z, z ∈ P ++ x :: D ↔ z ∈ P ++ [x] ++ D := fun z => by simp
  cases hx.of_single with
  | erased hdone => cases hdone
  | @access kind i u w hfix hmk =>
    have hk : opx.kind.fixedIndex? = some i := by
      obtain ⟨op', hop', hbare, -⟩ := hmk
      rw [Option.some.inj (hop.symm.trans hop'), OpKind.fixedIndex?_eq_of_bare_eq hbare, hfix]
    have hpassed : Declaring must K T A S v b₀ t.builder.body R P (x :: D) := by
      refine ⟨C, m₁, m₂, hch.perm hmem fun z hz hzD {p w' c j y} hw' hc hg ho => ?_, by simpa using hT, hP₁,
        .skip (.access hfix hmk) hD⟩
      obtain rfl := (List.mem_cons.1 hz).resolve_right hzD
      obtain ⟨op', hop', hw''⟩ := hb.origin ho
      obtain ⟨op'', hop'', -, -, hres, -⟩ := id hmk
      rw [Option.some.inj (hop'.symm.trans hop''), hres] at hw''
      obtain rfl : w = w' := by
        cases j with
        | zero => simpa using hw''
        | succ j => simp at hw''
      exact hch.not_reads_accessor hb (by simp) hfix hmk hw' hc hg
    cases hkind : opx.kind <;> rw [hkind] at hk <;> cases hk
    all_goals exact Runs.pure (a := false) ⟨rfl, hpassed⟩
  | @node path turned c f m u d op hu hn hop' hk hres he hd hins hR _ =>
    obtain rfl := Option.some.inj (hop.symm.trans hop')
    have hbare : opx.kind.bare = K.bare := hk ▸ OpKind.bare_mapDecl _ K
    have hprod : opx.kind.isProducer = true := by
      rw [← OpKind.isProducer_bare, hbare, OpKind.isProducer_bare, OpKind.isProducer_of_declaresValue hK]
    obtain ⟨c', hc', hty⟩ := hch.typed hu
    obtain rfl := Option.some.inj (hn.sub.symm.trans hc')
    have hstep : Lower.step cx x opx.kind = producer x cx.options.preserveAggregate opx.kind := by
      cases hkind : opx.kind <;> rw [hkind] at hprod <;> first | rfl | cases hprod
    have hdecl : opx.kind.decl?.getD {} = d := by rw [hk, OpKind.decl?_mapDecl_const hK]; rfl
    have hshaped : ∃ ins, t.builder.body.Types opx.operands ins ∧ opx.kind.Shaped False ins [c] := by
      obtain ⟨⟨ins, hins, hsh⟩, -⟩ := hins
      exact ⟨ins, hins, hk ▸ OpKind.shaped_mapDecl _ hsh⟩
    let R' : OpId → Nat := fun y => if (t.builder.body.op? y).isSome then R y else c.depth - 1
    have hnew : ∀ y, t.builder.body.op? y = none → R' y = c.depth - 1 := fun y hy => by simp [R', hy]
    rw [hstep, hkeep]
    refine producer_splits hop hprod hshaped fun clone hclone => ?_
    refine splitProducer_parts hop hres hty (fun _ => by rw [hn.last]; rfl) (fun hground => ?_)
      (J := fun done values t' => ∃ N, Divided must K T A S C R' opx.operands t.builder.body x k L B path turned done values
        N t'.builder) ⟨[], .start hb hs hp, .start _, .nil, rfl, by simp⟩ ?_ ?_
    · -- a leaf stays
      have hground : c.isGround := by simpa using hground
      refine ⟨rfl, C, m₁, c.leaves.map (Leaf.below path turned) ++ m₂, hch.perm hmem fun z hz hzD {p w c' j y} hw hc hg ho =>
        ?_, by simpa using hT, hP₁, (StandFor.single (.node hu hn hop hk hres he hd hins hR fun _ => hground)).append hD⟩
      obtain rfl := (List.mem_cons.1 hz).resolve_right hzD
      obtain ⟨op', hop', hw'⟩ := hb.origin ho
      rw [Option.some.inj (hop'.symm.trans hop), hres] at hw'
      obtain rfl : u = w := by
        cases j with
        | zero => simpa using hw'
        | succ j => simp at hw'
      obtain rfl := hch.unique hu hw
      rw [Option.some.inj (hc.symm.trans hn.sub), hground] at hg
      cases hg
    · rintro ps done p rest values t' hps hl ⟨N, hI⟩
      rw [hdecl]
      refine hI.part_runs hK hA hn hps.aggregate hps hl hins hd (fun _ y hy => ?_) fun hI hg hc => hk ▸ hclone hI hg (hk ▸ hc)
      rw [hnew y hy]
      omega
    · rintro ps values t' hps - ⟨N, hI⟩
      refine hI.layer_ends hr hch hK hop hbare hres hu hn.sub hps (fun z hz => if_pos hz) (fun hmust z hz => ?_)
        (by simpa using hT) hP₁ hD
      have := hR hmust
      have := Ty.depth_pos hps.aggregate
      rw [hnew z hz]
      omega

/-- Every layer keeps what the operations stand for. -/
theorem Declaring.kept (hK : K.declaresValue = true) (hkeep : cx.options.preserveAggregate = false)
    (hA : ∀ a ∈ A, a.Movable T) : KeptByLayers must cx b₀ o (Declaring must K T A S v b₀) where
  nested _ {b R P D x x'} h hx hx' := by
    obtain ⟨op, hop, k, hk, -⟩ := mem_inner.1 hx'
    obtain ⟨C, m₁, m₂, -, -, hP, -⟩ := h
    obtain ⟨ls, hls⟩ := hP.exists_of_mem hx
    rw [hls.plain hK hop] at hk
    cases hk
  settle {b R P D x opx} _ h hop hpass := by
    obtain ⟨C, m₁, m₂, -, -, hP, -⟩ := h
    obtain ⟨ls, hls⟩ := hP.exists_of_mem (a := x) (by simp)
    rcases hpass with he | hk
    · rw [hls.stands hop] at he
      cases he
    · exact absurd (hls.plain hK hop) hk
  step hr h hop _ _ hs hp := h.step_runs hK hkeep hA hr hop hs hp

/-! ## The end -/

/-- An operation that stands declares a value. -/
def declares (b : Body) (x : OpId) : Bool := (b.op? x).any fun op => !op.erased && op.kind.decl?.isSome

/-- The operation declares a leaf of `T`, of which it carries what the declaration of the whole leaves it. -/
def DeclaresLeaf (b : Body) (K : OpKind) (T : Ty) (A : List Annotation) (S : Prop) (x : OpId) (l : Leaf) (u : ValueId) :
    Prop :=
  ∃ op d, b.op? x = some op ∧ op.erased = false ∧ op.kind = (K.mapDecl fun _ => d) ∧ op.results = [u] ∧
    b.ty? u = some (.ground l.ground) ∧ CarriedByLeaf A S T l.path d.annotations d.sym

/-- What is done declares one leaf, or nothing. -/
theorem Declares.leaf (h : Declares must K T A S C R b True x ls) (hch : Charted must b₀ v T C b P D)
    (hK : K.declaresValue = true) (hT : T.isGround = false) :
    (b.declares x = true ∧ ∃ l u, ls = [l] ∧ b.DeclaresLeaf K T A S x l u ∧ C l.path u) ∨ b.declares x = false ∧ ls = [] := by
  cases h with
  | @node path turned c f m u d op hu hn hop hk hres he hd hins _ hdone =>
    left
    obtain ⟨c', hc', hty⟩ := hch.typed hu
    obtain rfl := Option.some.inj (hn.sub.symm.trans hc')
    obtain ⟨g, rfl⟩ : ∃ g, c = .ground g := by
      cases c with
      | ground g => exact ⟨g, rfl⟩
      | _ => cases hdone trivial
    obtain rfl : m = 0 := Option.some.inj (hn.last.symm.trans rfl)
    have hpath : path ≠ [] := by
      rintro rfl
      rw [Option.some.inj hn.sub] at hT
      cases hT
    refine ⟨by simp [declares, hop, he, hk, OpKind.decl?_mapDecl_const hK], Leaf.below path turned ⟨[], false, g⟩, u, rfl,
      ⟨op, d, hop, he, hk, hres, hty, ?_⟩, ?_⟩
    · simpa [Leaf.below] using hd.leaf hpath hn.id
    · simpa [Leaf.below] using hu
  | access hk hmk =>
    right
    obtain ⟨op, hop, hbare, -⟩ := hmk
    rw [← OpKind.fixedIndex?_eq_of_bare_eq hbare] at hk
    refine ⟨?_, rfl⟩
    cases hkind : op.kind <;> simp_all [declares, OpKind.decl?, OpKind.fixedIndex?]
  | erased _ hop _ he => exact .inr ⟨by simp [declares, hop, he], rfl⟩

/-- Once nothing is pending, there is one declaration for each leaf. -/
theorem Declaring.leaves (h : Declaring must K T A S v b₀ b R [] N) (hK : K.declaresValue = true)
    (hT : T.isGround = false) :
    List.Forall₂ (fun x l => ∃ u, b.DeclaresLeaf K T A S x l u) (N.filter b.declares) T.leaves := by
  obtain ⟨C, m₁, m₂, hch, hleaves, hP, hD⟩ := h
  rw [hP.of_nil, List.nil_append] at hleaves
  rw [hleaves]
  refine hD.filter fun x hx ls hls => ?_
  obtain ⟨hx, l, u, hl, hleaf, -⟩ | hx := hls.leaf hch hK hT
  · exact .inl ⟨hx, l, hl, u, hleaf⟩
  · exact .inr hx

/-- Whoever read a leaf reads what its declaration makes. -/
theorem Declaring.slot {p : List Nat} {y : OpId} {g : Scalarize.Ground} (h : Declaring must K T A S v b₀ b R [] N) (hb : b.Coherent)
    (hK : K.declaresValue = true) (hT : T.isGround = false) (hp : b₀.At v p u) (hg : T.sub? p = some (.ground g))
    (hs : b₀.Slot y i u) : ∃ x ∈ N, ∃ l w, l.path = p ∧ b.DeclaresLeaf K T A S x l w ∧ b.Slot y i w := by
  obtain ⟨C, m₁, m₂, hch, -, -, hD⟩ := h
  obtain ⟨w, hs', hw, x, hx, kind, vs, hfix, op, hop, hbare, -, hres, he⟩ := hch.slot_leaf hb hp hg hs
  obtain ⟨ls, hls⟩ := hD.exists_of_mem hx
  -- the operation that makes the value is no accessor and stands, so it declares a leaf
  have hdecl : b.declares x = true := by
    cases hls with
    | node _ _ hop' hk _ he' => simp [declares, hop', he', hk, OpKind.decl?_mapDecl_const hK]
    | access hk hmk =>
      obtain ⟨op', hop', hbare', -⟩ := hmk
      obtain rfl := Option.some.inj (hop.symm.trans hop')
      have hnone := hfix hT
      rw [OpKind.fixedIndex?_eq_of_bare_eq (hbare.symm.trans hbare'), hk] at hnone
      cases hnone
    | erased _ hop' _ he' =>
      rw [Option.some.inj (hop.symm.trans hop'), he'] at he
      cases he
  obtain ⟨-, l, u', -, hleaf, hu'⟩ | ⟨hno, -⟩ := hls.leaf hch hK hT
  · obtain ⟨op', d, hop', -, -, hres', -⟩ := id hleaf
    obtain rfl : w = u' := by
      rw [Option.some.inj (hop.symm.trans hop'), hres'] at hres
      simpa using hres.symm
    exact ⟨x, hx, l, w, hch.unique hu' hw, hleaf, hs'⟩
  · rw [hdecl] at hno
    cases hno

end Body

end Scalarize
