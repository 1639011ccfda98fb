import Scalarize.Proofs.Edits
import Scalarize.Proofs.Step.Access
import Scalarize.Proofs.Step.Instance
import Scalarize.Proofs.Step.Write

/-!
# Properties that lowering keeps

* `Decl.forPart`, `Memory.forPart`, `Instance.renamed` : the declarations of new operations, and the
  symbols once these have theirs;
* `Sight` : which values new operations may read meanwhile, and which operations stand behind;
* `Edits` : a property of bodies under way that is kept by every edit by which one operation is lowered;
* `Edits.step_runs` : it is kept when the operation is lowered by one layer.
-/

namespace Scalarize

open Body Lower

theorem Ty.parts_of_peel {t : Ty} {keep : Bool} {ps : List Part} (h : t.peel keep = .ok (some ps)) :
    t.parts = .ok ps := by
  unfold peel at h
  split at h
  · cases h
  · cases hp : t.parts with
    | error => rw [hp] at h; cases h
    | ok => rw [hp] at h; cases h; rfl

/-! ## New declarations -/

/-- The declaration of the operation that makes a part, and the symbols once it has its symbol. -/
def Decl.forPart (d : Decl) (part : Part) (r : Restricted) (y : Symbols) (x : OpId) : Decl × Symbols :=
  let new := { d.extendName part.suffix with annotations := r.annotations, sym := none }
  match d.sym with
  | some base =>
    let (sym, y) := y.derive base part.suffix part.ty.isGround (.operation x)
    ({ new with sym := some sym }, y)
  | none =>
    if r.needsSym then
      let (sym, y) := y.detached d.name part.suffix
      ({ new with sym := some sym }, y)
    else (new, y)

/-- An operation takes over the declaration of the whole. -/
theorem Lower.declarePart_runs {must : Prop} {t : LowerState} {v : ValueId} {x : OpId}
    (hv : t.builder.body.origin? v = some (.result x 0)) (d : Decl) (part : Part) (r : Restricted) :
    Runs must (declarePart d part r v) t fun _ t' =>
      t' = ⟨⟨t.builder.body.modifyDecl x fun _ => (d.forPart part r t.symbols x).1, t.builder.point⟩,
        (d.forPart part r t.symbols x).2⟩ := by
  unfold declarePart
  refine Runs.bind_body (P := (some x = ·)) (.of_eq_ok (definer_of_result hv) rfl) ?_
  rintro _ rfl
  have hchange : ∀ (t : LowerState) (f : Decl → Decl), Runs must (change fun b => return b.modifyDecl x f) t fun _ t' =>
      t' = ⟨⟨t.builder.body.modifyDecl x f, t.builder.point⟩, t.symbols⟩ := fun _ _ => .change (.pure rfl)
  unfold Decl.forPart
  cases d.sym with
  | some base => exact .bind_mint (hchange _ _)
  | none =>
    by_cases hn : r.needsSym = true
    · simp only [hn, if_true]
      exact .bind_mint (hchange _ _)
    · simp only [hn]
      exact hchange t _

/-- The memory of a part in a body, and the symbols once it has its symbol. -/
def Memory.forPart (m : Memory) (part : Part) (y : Symbols) (x : OpId) (b : Body) : Body × Symbols :=
  match m.decl.sym with
  | some base =>
    let (sym, y) := y.derive base part.suffix part.ty.isGround (.operation x)
    (b.modifyDecl x fun d => { d with sym := some sym }, y)
  | none => (b, y)

/-- The symbol of an instance that is made anew, and the symbols once it has it. -/
def Instance.renamed (i : Instance) (splits : List (ValueId × SplitPort)) (y : Symbols) :
    Option String × Symbols :=
  if i.decl.sym.isNone && splits.any (·.2.needsSym) then
    let (sym, y) := y.fresh ("sym" ++ i.decl.name.getD "")
    (some sym, y)
  else (i.decl.sym, y)

/-- The instance with the ports that its ports were split into. -/
def Instance.split (i : Instance) (splits : List (ValueId × SplitPort)) (sym : Option String) :
    Instance :=
  { i with decl := { i.decl with sym }, ports := splits.flatMap (·.2.ports) }

/-! ## What is split -/

/-- The parts that an operation is split into: those of the entries of a memory, or else those of its
one result, where declarations keep what `keep` lets them. An instance that is made anew counts as a part,
whatever it is. -/
def Body.Divides (keep : Bool) (b : Body) (op : Operation) (ps : List Part) : Prop :=
  match op.kind with
  | .inst _ => ps ≠ []
  | .mem m => m.dataType.peel false = .ok (some ps)
  | kind => ∃ r ty keep', op.results[0]? = some r ∧ b.ty? r = some ty ∧
    ty.peel keep' = .ok (some ps) ∧ (kind.decl?.isSome → keep' = keep)

/-- An operation of the kind, with a result of the type, stands for a part of the operation. -/
structure Body.Copies (b : Body) (op : Operation) (part : Part) (kind : OpKind) (ty : Ty) : Prop where
  plain : kind.Plain
  bare : op.kind.decl?.isSome → kind.bare = op.kind.bare
  decl? : op.kind.decl? = none → kind.decl? = none
  type : op.kind.decl?.isSome → (∀ d, op.kind ≠ .node d) → ty = part.ty
  node : ∀ d, op.kind = .node d → ∃ v t, op.operands[0]? = some v ∧ b.ty? v = some t ∧
    t.child? part.index = some ty

/-- What becomes of one port of an instance. -/
def Body.Splits (b : Body) (keep : Bool) (e : InstancePort × ValueId) (s : ValueId × SplitPort) : Prop :=
  s.1 = e.2 ∧ ∃ ty, b.ty? e.2 = some ty ∧ e.1.split ty keep = .ok s.2

/-! ## Edits -/

/-- New operations may read the values with `U`. At first these are the operands, and with a value also
what its operation reads. The results of operations with `Z` give way: of `o`, and of what reads its
results. -/
structure Sight (b₀ : Body) (o : OpId) (op : Operation) (J : List Part → LowerState → Prop)
    (G : List Part → Point → LowerState → Prop) (U : Builder → ValueId → Prop)
    (Z : Body → OpId → Prop) : Prop where
  operand : ∀ {t v}, J [] t → t.builder.body = b₀ → v ∈ op.operands → U t.builder v
  through : ∀ {ps t v d i opd w}, J ps t → U t.builder v →
    t.builder.body.origin? v = some (.result d i) → t.builder.body.op? d = some opd →
    w ∈ opd.operands → U t.builder w
  throughIn : ∀ {ps p t v d i opd w}, G ps p t → U t.builder v →
    t.builder.body.origin? v = some (.result d i) → t.builder.body.op? d = some opd →
    w ∈ opd.operands → U t.builder w
  see : ∀ {ps t kind vs tys x b}, J ps t →
    Created t.builder.body t.builder.point kind vs tys x b →
    (∀ v, U t.builder v → U (t.builder.after b) v) ∧
      ∀ v i, b.origin? v = some (.result x i) → U (t.builder.after b) v
  seeIn : ∀ {ps p t kind vs tys x b}, G ps p t →
    Created t.builder.body t.builder.point kind vs tys x b →
    (∀ v, U t.builder v → U (t.builder.after b) v) ∧
      ∀ v i, b.origin? v = some (.result x i) → U (t.builder.after b) v
  outer : ∀ {ps p t kind vs tys x b v}, G ps p t →
    Created t.builder.body t.builder.point kind vs tys x b → U ⟨t.builder.body, p⟩ v → U ⟨b, p⟩ v
  enter : ∀ {ps t k cond w b v}, J ps t →
    Created t.builder.body t.builder.point (.when k none) [cond] [] w b → U t.builder v →
    U ⟨b, ⟨k, 0⟩⟩ v
  declared : ∀ {s x f v}, U s v → U ⟨s.body.modifyDecl x f, s.point⟩ v
  replaced : ∀ {ps t v w b}, J ps t → Replaced t.builder.body v w b →
    (∀ u, U t.builder u → U ⟨b, t.builder.point⟩ u) ∧ ∀ x, Z t.builder.body x → Z b x
  dropped : ∀ {ps t x b}, J ps t → Z t.builder.body x →
    Dropped t.builder.body x (fun _ => true) b →
    (∀ u, U t.builder u → U ⟨b, t.builder.point⟩ u) ∧ ∀ x, Z t.builder.body x → Z b x
  self : ∀ b, Z b o
  reader : ∀ {ps t i v u}, J ps t → t.builder.body.origin? v = some (.result o i) →
    t.builder.body.Reads u v → Z t.builder.body u

/-- Any value may be read, and any operation may give way. -/
theorem Sight.blind {b₀ : Body} {o : OpId} {op : Operation} {J : List Part → LowerState → Prop}
    {G : List Part → Point → LowerState → Prop} :
    Sight b₀ o op J G (fun _ _ => True) fun _ _ => True := by
  constructor <;> intros <;> simp

/-- A property `J` of bodies under way, with the parts that were made so far, that every edit keeps by
which the operation `op`, with number `o` in `b₀`, is lowered by one layer; `G` is the property inside a
guard that was just made, behind which new operations go in at a point. New operations read values with
`U`, and only results of operations with `Z` give way. -/
structure Edits (cx : Context) (b₀ : Body) (o : OpId) (op : Operation)
    (J : List Part → LowerState → Prop) (G : List Part → Point → LowerState → Prop)
    (U : Builder → ValueId → Prop) (Z : Body → OpId → Prop) : Prop where
  sight : Sight b₀ o op J G U Z
  coherent₀ : b₀.Coherent
  op? : b₀.op? o = some op
  coherent : ∀ {ps t}, J ps t → t.builder.body.Coherent
  coherentIn : ∀ {ps p t}, G ps p t → t.builder.body.Coherent
  persists : ∀ {ps t}, J ps t → ∀ {x op}, b₀.op? x = some op →
    ∃ op', t.builder.body.op? x = some op' ∧ op'.kind = op.kind ∧ op'.results = op.results
  ty? : ∀ {ps t v ty}, J ps t → b₀.ty? v = some ty → t.builder.body.ty? v = some ty
  create : ∀ {ps t kind vs tys x b}, J ps t → kind.Plain → (∀ v ∈ vs, U t.builder v) →
    Created t.builder.body t.builder.point kind vs tys x b → J ps ⟨t.builder.after b, t.symbols⟩
  createIn : ∀ {ps p t kind vs tys x b}, G ps p t → kind.Plain → (∀ v ∈ vs, U t.builder v) →
    Created t.builder.body t.builder.point kind vs tys x b → G ps p ⟨t.builder.after b, t.symbols⟩
  enter : ∀ {ps t k cond w b}, J ps t → U t.builder cond →
    Created t.builder.body t.builder.point (.when k none) [cond] [] w b →
    G ps ⟨t.builder.point.block, t.builder.point.index + 1⟩ ⟨⟨b, ⟨k, 0⟩⟩, t.symbols⟩
  leave : ∀ {ps p t}, G ps p t → J ps ⟨⟨t.builder.body, p⟩, t.symbols⟩
  part : ∀ {ps ps' rest t kind vs ty x b part r}, J ps t → b₀.Divides cx.options.preserveAggregate op ps' →
    ps' = ps ++ part :: rest → t.builder.body.Copies op part kind ty →
    (∀ v ∈ vs, U t.builder v) → Created t.builder.body t.builder.point kind vs [ty] x b →
    restrict (op.kind.decl?.getD {}).annotations part = .ok r →
    J (ps ++ [part]) ⟨⟨b.modifyDecl x fun _ => ((op.kind.decl?.getD {}).forPart part r t.symbols x).1,
      (t.builder.after b).point⟩, ((op.kind.decl?.getD {}).forPart part r t.symbols x).2⟩
  memory : ∀ {ps ps' rest t m part m' x b}, J ps t → op.kind = .mem m →
    b₀.Divides cx.options.preserveAggregate op ps' → ps' = ps ++ part :: rest → m.narrow part = .ok m' →
    Created t.builder.body t.builder.point (.mem m') [] m'.portTypes x b →
    J (ps ++ [part]) ⟨⟨(m.forPart part t.symbols x b).1, (t.builder.after b).point⟩,
      (m.forPart part t.symbols x b).2⟩
  inst : ∀ {t i entry splits x b}, J [] t → t.builder.body = b₀ → op.kind = .inst i →
    cx.modules.get? i.moduleName = some entry →
    List.Forall₂ (b₀.Splits (cx.options.portsMayPreserve entry)) (i.ports.zip op.results) splits →
    Created t.builder.body t.builder.point (.inst (i.split splits (i.renamed splits t.symbols).1)) []
      (splits.flatMap (·.2.types)) x b →
    ∀ part, J [part] ⟨t.builder.after b, (i.renamed splits t.symbols).2⟩
  replace : ∀ {ps t v w b}, J ps t → v ≠ w → (t.builder.body.value? v).isSome →
    (t.builder.body.value? w).isSome → t.builder.body.Loose Z v → U t.builder w →
    Replaced t.builder.body v w b → J ps ⟨⟨b, t.builder.point⟩, t.symbols⟩
  drop : ∀ {ps t x f b}, J ps t → f true = true → (x ≠ o → f false = true ∧
    ∀ op, t.builder.body.op? x = some op → op.kind.isAccessor = true) →
    (f false = true → ¬t.builder.body.ResultRead x) → Dropped t.builder.body x f b →
    J ps ⟨⟨b, t.builder.point⟩, t.symbols⟩

namespace Edits

variable {cx : Context} {b₀ : Body} {o : OpId} {op : Operation} {J : List Part → LowerState → Prop}
  {G : List Part → Point → LowerState → Prop} {U : Builder → ValueId → Prop} {Z : Body → OpId → Prop}
  {t : LowerState} {s : Builder} {y : Symbols} {p : Point} {ps : List Part}

/-! ### Building -/

theorem keeps (h : Edits cx b₀ o op J G U Z) (ps : List Part) (y : Symbols) :
    Builder.Keeps (fun s => J ps ⟨s, y⟩) U where
  coherent := h.coherent
  create := h.create
  see := h.sight.see

/-- Inside a guard, what could be read in front of it stays readable behind it. -/
theorem keepsIn (h : Edits cx b₀ o op J G U Z) (ps : List Part) (p : Point) (y : Symbols)
    (s₀ : Builder) :
    Builder.Keeps (fun s => G ps p ⟨s, y⟩ ∧ ∀ w, U s₀ w → U ⟨s.body, p⟩ w) U where
  coherent hG := h.coherentIn hG.1
  create hG hk hv hc := ⟨h.createIn hG.1 hk hv hc, fun w hw => h.sight.outer hG.1 hc (hG.2 w hw)⟩
  see hG := h.sight.seeIn hG.1

/-! ### Reading one value in place of another -/

theorem rewires (h : Edits cx b₀ o op J G U Z) (ps : List Part) (p : Point) (y : Symbols) :
    Rewires (fun b => J ps ⟨⟨b, p⟩, y⟩) (fun b => U ⟨b, p⟩) Z where
  coherent := h.coherent
  replace := h.replace
  erase hJ hx hread hd := h.drop hJ rfl (fun _ => ⟨rfl, hx⟩) (fun _ => hread) hd
  replaced := h.sight.replaced
  dropped := h.sight.dropped

/-- What rewiring leaves of the body. -/
abbrev Rewired (J : List Part → LowerState → Prop) (U : Builder → ValueId → Prop) (Z : Body → OpId → Prop)
    (ps : List Part) (t : LowerState) (b : Body) : Prop :=
  Body.Rewired (fun b => J ps ⟨⟨b, t.builder.point⟩, t.symbols⟩) (fun b => U ⟨b, t.builder.point⟩) Z
    t.builder.body b

/-- A result gives way to a value. -/
theorem replaceAllUses_ends (h : Edits cx b₀ o op J G U Z) (hJ : J ps t) (hk : op.kind.givesWay = true)
    {v w : ValueId} {i : Nat} (hv : t.builder.body.origin? v = some (.result o i)) (hw : U t.builder w) :
    Ends False (t.builder.body.replaceAllUses v w) (Rewired J U Z ps t) := by
  obtain ⟨op', hop', hk', -⟩ := h.persists hJ h.op?
  exact (h.rewires ps _ _).replaceAllUses_ends hJ ⟨o, i, op', hv, hop', hk' ▸ hk, h.sight.self _⟩ hw

/-- The readers of a split result give way to its parts. -/
theorem rewire_ends (h : Edits cx b₀ o op J G U Z) (hJ : J ps t) {v : ValueId} {i : Nat}
    (hv : t.builder.body.origin? v = some (.result o i)) {parts : List ValueId}
    (hparts : ∀ w ∈ parts, U t.builder w) :
    Ends False (t.builder.body.rewire v parts) (Rewired J U Z ps t) :=
  (h.rewires ps _ _).rewire_ends hJ hparts fun _ hu => h.sight.reader hJ hv hu

/-- Results of the operation come from it, now as then. -/
theorem origin?_result (h : Edits cx b₀ o op J G U Z) (hJ : J ps t) {i : Nat} {r : ValueId}
    (hr : op.results[i]? = some r) : t.builder.body.origin? r = some (.result o i) := by
  obtain ⟨op', hop', -, hres⟩ := h.persists hJ h.op?
  exact (h.coherent hJ).result hop' (hres ▸ hr)

theorem ownResult_ends (h : Edits cx b₀ o op J G U Z) (hJ : J ps t) (i : Nat) :
    Ends False (t.builder.body.result o i) fun r => op.results[i]? = some r := by
  obtain ⟨op', hop', -, hres⟩ := h.persists hJ h.op?
  refine Body.result_ends (fun op'' r hop'' hr => ?_) nofun
  obtain rfl := Option.some.inj (hop'.symm.trans hop'')
  rwa [← hres]

/-! ### Parts of a producer -/

/-- A value stands for a part of the operation; the operation that makes it was made last. -/
def Cloned (J : List Part → LowerState → Prop) (U : Builder → ValueId → Prop) (op : Operation)
    (ps : List Part) (y : Symbols) (part : Part) (s₀ : Builder) (v : ValueId) (s : Builder) : Prop :=
  ∃ s₁ kind vs ty, Builder.Kept (fun s => J ps ⟨s, y⟩) U s₀ s₁ ∧ s₁.body.Copies op part kind ty ∧
    (∀ w ∈ vs, U s₁ w) ∧ s₁.Made kind vs ty v s

/-- What could be read before a part of the operation was made, and the part itself, can be read. -/
theorem see_cloned (h : Edits cx b₀ o op J G U Z) {part : Part} {s₀ : Builder} {v : ValueId}
    (hv : Cloned J U op ps y part s₀ v s) : (∀ w, U s₀ w → U s w) ∧ U s v := by
  obtain ⟨s₁, kind, vs, ty, hkept, -, -, x, b, hc, rfl, rfl⟩ := hv
  obtain ⟨hold, hnew⟩ := h.sight.see hkept.holds hc
  exact ⟨fun w hw => hold w (hkept.see hw), hnew _ 0 (hc.origin?_new 0)⟩

theorem declarePart_runs (h : Edits cx b₀ o op J G U Z) {ps' rest : List Part}
    (hd : b₀.Divides cx.options.preserveAggregate op ps') {part : Part} (hps : ps' = ps ++ part :: rest) {s₀ : Builder} {v : ValueId}
    (hv : Cloned J U op ps t.symbols part s₀ v t.builder)
    {r : Restricted} (hr : restrict (op.kind.decl?.getD {}).annotations part = .ok r) :
    Runs False (declarePart (op.kind.decl?.getD {}) part r v) t fun _ t' =>
      J (ps ++ [part]) t' ∧ ∀ w, U t.builder w → U t'.builder w := by
  obtain ⟨s₁, kind, vs, ty, hkept, hcopies, hvs, x, b, hc, hs, rfl⟩ := hv
  have hpart := h.part hkept.holds hd hps hcopies hvs hc hr
  obtain ⟨_, y⟩ := t
  obtain rfl : _ = s₁.after b := hs
  refine (Lower.declarePart_runs (t := ⟨s₁.after b, y⟩) (hc.origin?_new 0) _ part r).mono ?_
  rintro _ _ rfl
  exact ⟨hpart, fun w hw => h.sight.declared hw⟩

/-- The first result and its type are as they were at first. -/
theorem result_eq (h : Edits cx b₀ o op J G U Z) (hJ : J ps t) {r : ValueId}
    (hr : t.builder.body.result o 0 = .ok r) {ty : Ty} (hty : t.builder.body.typeOf r = .ok ty) :
    op.results[0]? = some r ∧ b₀.ty? r = some ty := by
  have hr' := (h.ownResult_ends hJ 0).of_ok hr
  have hty' : t.builder.body.ty? r = some ty :=
    (typeOf_ends (fun _ h => h) (nofun : False → _)).of_ok hty
  obtain ⟨x, hx, -⟩ := origin?_eq_some_iff.1 (h.coherent₀.result h.op? hr')
  have hx' : b₀.ty? r = some x.ty := ty?_eq_some_iff.2 ⟨x, hx, rfl⟩
  rw [h.ty? hJ hx'] at hty'
  rw [Option.some.inj hty'] at hx'
  exact ⟨hr', hx'⟩

theorem divides_iff (hmem : ∀ m, op.kind ≠ .mem m) (hinst : ∀ i, op.kind ≠ .inst i) {keep : Bool}
    {parts : List Part} : b₀.Divides keep op parts ↔ ∃ r ty keep', op.results[0]? = some r ∧
      b₀.ty? r = some ty ∧ ty.peel keep' = .ok (some parts) ∧ (op.kind.decl?.isSome → keep' = keep) := by
  unfold Divides
  split
  next i hk => exact absurd hk (hinst i)
  next m hk => exact absurd hk (hmem m)
  next => rfl

/-- What a producer is split into; it stays if its type stays whole. -/
def SplitInto (cx : Context) (b₀ : Body) (op : Operation) (J : List Part → LowerState → Prop) (keep : Bool)
    (t : LowerState) (replaced : Bool) (t' : LowerState) : Prop :=
  if replaced then ∃ ps, b₀.Divides cx.options.preserveAggregate op ps ∧ J ps t'
  else t' = t ∧ ∃ r ty, op.results[0]? = some r ∧ b₀.ty? r = some ty ∧ ty.peel keep = .ok none

/-- A producer is split, or stays. -/
theorem splitProducer_runs (h : Edits cx b₀ o op J G U Z) (hJ : J [] t)
    (hmem : ∀ m, op.kind ≠ .mem m) (hinst : ∀ i, op.kind ≠ .inst i) {keep : Bool}
    (hkeep : op.kind.decl?.isSome → keep = cx.options.preserveAggregate) {clone : Part → Build ValueId}
    (hclone : ∀ {ps s y part}, J ps ⟨s, y⟩ → (∀ w, U t.builder w → U s w) →
      Runs False (clone part) s (Cloned J U op ps y part s)) :
    Runs False (splitProducer o keep clone) t (SplitInto cx b₀ op J keep t) := by
  refine Runs.bind_any fun r hr => Runs.bind_any fun ty hty => ?_
  obtain ⟨hr₀, hty₀⟩ := h.result_eq hJ hr hty
  refine Runs.bind_except (P := fun ps? => ty.peel keep = .ok ps?) (.intro (fun _ h => h) nofun)
    fun ps? hpeel => ?_
  cases ps? with
  | none => exact .pure ⟨rfl, r, ty, hr₀, hty₀, hpeel⟩
  | some parts =>
    have hd : b₀.Divides cx.options.preserveAggregate op parts :=
      (divides_iff hmem hinst).2 ⟨r, ty, keep, hr₀, hty₀, hpeel, hkeep⟩
    obtain ⟨opo, hopo, hkind, -⟩ := h.persists hJ h.op?
    refine Body.bind_kindOf hopo ?_
    rw [hkind]
    refine Runs.bind (Runs.mapM (fun done vs t' => J done t' ∧ (∀ w, U t.builder w → U t'.builder w) ∧
      ∀ v ∈ vs, U t'.builder v) parts ⟨hJ, fun _ => id, by simp⟩ ?_) fun values t' ⟨hJ', _, hvalues⟩ => ?_
    · rintro done part rest vs t' hl ⟨hJ', hsee, hvs⟩
      refine Runs.bind_except (P := fun r => restrict (op.kind.decl?.getD {}).annotations part = .ok r)
        (.intro (fun _ h => h) nofun) fun r hr => ?_
      refine Runs.bind_build (hclone hJ' hsee) fun v s' hv => ?_
      obtain ⟨hold, hnew⟩ := h.see_cloned hv
      refine (h.declarePart_runs (t := ⟨s', t'.symbols⟩) hd hl hv hr).bind
        fun _ t'' ⟨hJ'', hdecl⟩ => .pure ⟨hJ'', fun w hw => hdecl w (hold w (hsee w hw)), fun w hw => ?_⟩
      rcases List.mem_append.1 hw with hw | hw
      · exact hdecl w (hold w (hvs w hw))
      · exact hdecl w (List.mem_singleton.1 hw ▸ hnew)
    · exact Runs.bind_change (h.rewire_ends hJ' (h.origin?_result hJ' hr₀) hvalues) fun b hb =>
        .pure ⟨parts, hd, hb.holds⟩

/-! ### Producers -/

/-- An operation without a declaration is made for a part of another one. -/
theorem copies_other {b : Body} {part : Part} {kind : OpKind} {ty : Ty} (hop : op.kind.decl? = none)
    (hk : kind.Plain) (hd : kind.decl? = none) : b.Copies op part kind ty where
  plain := hk
  bare h := by rw [hop] at h; cases h
  decl? _ := hd
  type h := by rw [hop] at h; cases h
  node d h := by rw [h] at hop; cases hop

/-- A declaration is made anew for a part of it. -/
theorem copies_decl {b : Body} {part : Part} {kind : OpKind} (hk : kind.Plain)
    (hb : kind.bare = op.kind.bare) (hd : kind.decl?.isSome) (hnode : ∀ d, op.kind ≠ .node d) :
    b.Copies op part kind part.ty where
  plain := hk
  bare _ := hb
  decl? h := by
    rw [isSome_decl?_of_bare_eq hb, h] at hd
    cases hd
  type _ _ := rfl
  node d h := absurd h (hnode d)

/-- What can be read, and where a property of the state holds, once parts of values were taken. -/
abbrev Kept (J : List Part → LowerState → Prop) (U : Builder → ValueId → Prop) (ps : List Part)
    (y : Symbols) (s s' : Builder) : Prop := Builder.Kept (fun s => J ps ⟨s, y⟩) U s s'

theorem create_cloned {part : Part} {s₀ : Builder} (hs : Kept J U ps y s₀ s) {kind : OpKind}
    {vs : List ValueId} {ty : Ty} (hk : kind.blocks = []) (hc : s.body.Copies op part kind ty)
    (hvs : ∀ v ∈ vs, U s v) :
    Runs False (Build.createValue kind vs ty) s (Cloned J U op ps y part s₀) :=
  (Build.createValue_any hk vs ty).mono fun _ _ hm => ⟨s, kind, vs, ty, hs, hc, hvs, hm⟩

/-- Parts of values are taken. -/
theorem parts_runs (h : Edits cx b₀ o op J G U Z) (hJ : J ps ⟨s, y⟩) {inputs : List ValueId}
    (hin : ∀ v ∈ inputs, U s v) (i : Nat) :
    Runs False (inputs.mapM (Build.part · i)) s fun vs s' => Kept J U ps y s s' ∧ ∀ v ∈ vs, U s' v := by
  refine Runs.mapM (fun _ vs s' => Kept J U ps y s s' ∧ ∀ v ∈ vs, U s' v) inputs ⟨.refl hJ, by simp⟩
    fun done v rest vs s' hl ⟨hs', hvs⟩ => ?_
  have hv : v ∈ inputs := hl ▸ List.mem_append_right _ List.mem_cons_self
  refine ((h.keeps ps y).part_runs hs'.holds (hs'.see (hin v hv)) i).mono fun w s'' hw =>
    ⟨hs'.trans hw.toKept, fun u hu => ?_⟩
  rcases List.mem_append.1 hu with hu | hu
  · exact hw.see (hvs u hu)
  · exact List.mem_singleton.1 hu ▸ hw.value

/-- A name for the part of a value. -/
theorem node_cloned (h : Edits cx b₀ o op J G U Z) {part : Part} (hJ : J ps ⟨s, y⟩) {d : Decl}
    (hk : op.kind = .node d) {input : ValueId} (hin : op.operands[0]? = some input) (hsee : U s input) :
    Runs False (do firstResult (Build.node (← Build.part input part.index) {})) s
      (Cloned J U op ps y part s) := by
  refine (Build.part_any input part.index).bind fun v s' hv => ?_
  have hs' := (h.keeps ps y).madePart hJ hsee hv
  obtain ⟨_, u, c, -, hu, hc, hm⟩ := hv
  have hmade : Runs False (firstResult (Build.node v {})) s' (s'.Made (.node {}) [v] c) := by
    refine Build.result_any (Build.typeOf_any fun t ht => ?_)
    obtain rfl := Option.some.inj (hm.ty?.symm.trans ht)
    exact Build.create_any rfl _ _
  refine hmade.mono fun w s'' hm' => ⟨s', _, _, _, hs'.toKept,
    ⟨by exact ⟨rfl, rfl⟩, fun _ => by rw [hk]; rfl, ?_, ?_, ?_⟩, by simpa using hs'.value, hm'⟩
  · intro hd
    rw [hk] at hd
    cases hd
  · exact fun _ hnode => absurd hk (hnode d)
  · exact fun _ _ => ⟨input, u, hin, hm.ty?_old hu, hc⟩

/-- An operand of the operation can be read. -/
theorem ownOperand_ends (h : Edits cx b₀ o op J G U Z) (hJ : J [] t) (hb : t.builder.body = b₀) (i : Nat) :
    Ends False (t.builder.body.operand o i) fun v => op.operands[i]? = some v ∧ U t.builder v := by
  refine Body.operand_ends (fun op' v hop' hv => ?_) nofun
  rw [hb] at hop'
  obtain rfl := Option.some.inj (h.op?.symm.trans hop')
  exact ⟨hv, h.sight.operand hJ hb (List.mem_of_getElem? hv)⟩

theorem producer_runs (h : Edits cx b₀ o op J G U Z) (hJ : J [] t) (hb : t.builder.body = b₀) :
    Runs False (producer o cx.options.preserveAggregate op.kind) t fun replaced t' =>
      if replaced then ∃ ps, b₀.Divides cx.options.preserveAggregate op ps ∧ J ps t' else t' = t := by
  have hsplit {clone : Part → Build ValueId} (hmem : (∀ m, op.kind ≠ .mem m) ∧ ∀ i, op.kind ≠ .inst i)
      (hclone : ∀ {ps s y part}, J ps ⟨s, y⟩ → (∀ w, U t.builder w → U s w) →
        Runs False (clone part) s (Cloned J U op ps y part s)) :
      Runs False (splitProducer o cx.options.preserveAggregate clone) t fun replaced t' =>
        if replaced then ∃ ps, b₀.Divides cx.options.preserveAggregate op ps ∧ J ps t' else t' = t :=
    (h.splitProducer_runs hJ hmem.1 hmem.2 (fun _ => rfl) hclone).mono fun replaced t' ht' => by
      cases replaced with
      | true => exact ht'
      | false => exact ht'.1
  have hop : t.builder.body.op? o = some op := hb ▸ h.op?
  have hpart {ps s y} (hJ' : J ps ⟨s, y⟩) {v : ValueId} (hv : U s v) (i : Nat) :=
    (h.keeps ps y).part_runs hJ' hv i
  have hoperand {Q : Bool → LowerState → Prop} (i : Nat) {f : ValueId → Lower Bool}
      (hf : ∀ v, op.operands[i]? = some v → U t.builder v → Runs False (f v) t Q) :
      Runs False (Lower.body (·.operand o i) >>= f) t Q :=
    Runs.bind_body (h.ownOperand_ends hJ hb i) fun v hv => hf v hv.1 hv.2
  cases hk : op.kind with
  | wire d =>
    refine hsplit (by simp [hk]) fun hJ' _ => create_cloned (.refl hJ') rfl ?_ (by simp)
    exact copies_decl ⟨rfl, rfl⟩ (by rw [hk]; rfl) rfl (by simp [hk])
  | reg d =>
    refine hoperand 0 fun clock _ hclock => ?_
    refine hsplit (by simp [hk]) fun hJ' hsee => create_cloned (.refl hJ') rfl ?_ (by simpa using hsee _ hclock)
    exact copies_decl ⟨rfl, rfl⟩ (by rw [hk]; rfl) rfl (by simp [hk])
  | regReset d =>
    refine hoperand 0 fun clock _ hclock => hoperand 1 fun reset _ hreset =>
      hoperand 2 fun init _ hinit => ?_
    refine hsplit (by simp [hk]) fun hJ' hsee => (hpart hJ' (hsee _ hinit) _).bind fun w s' hw =>
      create_cloned hw.toKept rfl ?_ ?_
    · exact copies_decl ⟨rfl, rfl⟩ (by rw [hk]; rfl) rfl (by simp [hk])
    · simp [hw.see (hsee _ hclock), hw.see (hsee _ hreset), hw.value]
  | node d =>
    exact hoperand 0 fun input hin hinput => hsplit (by simp [hk]) fun hJ' hsee =>
      h.node_cloned hJ' hk hin (hsee _ hinput)
  | invalid =>
    exact hsplit (by simp [hk]) fun hJ' _ => create_cloned (.refl hJ') rfl
      (copies_other (by rw [hk]; rfl) (by trivial) rfl) (by simp)
  | mux =>
    refine hoperand 0 fun sel _ hsel => hoperand 1 fun high _ hhigh => hoperand 2 fun low _ hlow => ?_
    refine hsplit (by simp [hk]) fun hJ' hsee => (hpart hJ' (hsee _ hhigh) _).bind fun v s₁ hv =>
      (hpart hv.holds (hv.see (hsee _ hlow)) _).bind fun w s₂ hw => (Build.mux_any sel v w).mono ?_
    have hw' := hv.yields hw
    rintro u s₃ ⟨ty, -, hm⟩
    refine ⟨s₂, _, _, ty, hw'.toKept, copies_other (by rw [hk]; rfl) (by trivial) rfl, ?_, hm⟩
    simp [hw'.see (hsee _ hsel), hw.see hv.value, hw.value]
  | multiMux =>
    refine Runs.bind_body (P := (op = ·)) (op_ends (fun op' hop' => Option.some.inj (hop.symm.trans hop'))
      nofun) ?_
    rintro _ rfl
    have hops : ∀ v ∈ op.operands, U t.builder v := fun v hv => h.sight.operand hJ hb hv
    split
    · exact .throw id
    next index inputs hl =>
      rw [hl, List.forall_mem_cons] at hops
      refine hsplit (by simp [hk]) fun hJ' hsee => (h.parts_runs hJ' (fun v hv => hsee v (hops.2 v hv)) _).bind
        fun vs s₁ ⟨hs₁, hvs⟩ => (Build.multiMux_any index vs).mono ?_
      rintro u s₂ ⟨first, ty, -, -, hm⟩
      exact ⟨s₁, _, _, ty, hs₁, copies_other (by rw [hk]; rfl) (by trivial) rfl,
        List.forall_mem_cons.2 ⟨hs₁.see (hsee index hops.1), hvs⟩, hm⟩
  | unrealizedCast =>
    refine hoperand 0 fun input _ hinput => ?_
    exact hsplit (by simp [hk]) fun hJ' hsee => (hpart hJ' (hsee _ hinput) _).bind fun w s' hw =>
      create_cloned hw.toKept rfl (copies_other (by rw [hk]; rfl) (by trivial) rfl)
        (by simpa using hw.value)
  | _ => exact .pure rfl

/-- What is known once the operation was lowered by one layer, from a state `t₀` on: it stays only if
nothing was changed, and an instance stays only if all its ports stay whole. -/
structure Outcome (cx : Context) (b₀ : Body) (op : Operation) (J : List Part → LowerState → Prop)
    (t₀ : LowerState) (replaced : Bool) (t : LowerState) : Prop where
  parts : replaced = true → ∃ ps, J ps t ∧
    (op.kind.decl?.isSome → b₀.Divides cx.options.preserveAggregate op ps)
  same : replaced = false → t = t₀
  whole : replaced = false → ∀ i, op.kind = .inst i → ∃ entry splits,
    cx.modules.get? i.moduleName = some entry ∧
    List.Forall₂ (b₀.Splits (cx.options.portsMayPreserve entry)) (i.ports.zip op.results) splits ∧
    ∀ s ∈ splits, s.2.changed = false

/-- The operation stays. -/
theorem Outcome.kept (hinst : ∀ i, op.kind ≠ .inst i) : Outcome cx b₀ op J t false t where
  parts := nofun
  same _ := rfl
  whole _ i hi := absurd hi (hinst i)

theorem Outcome.of_producer {replaced : Bool} {t' : LowerState} (hinst : ∀ i, op.kind ≠ .inst i)
    (h : if replaced then ∃ ps, b₀.Divides cx.options.preserveAggregate op ps ∧ J ps t' else t' = t) :
    Outcome cx b₀ op J t replaced t' := by
  cases replaced with
  | false =>
    obtain rfl : t' = t := h
    exact .kept hinst
  | true =>
    obtain ⟨ps, hd, hJ'⟩ := h
    exact ⟨fun _ => ⟨ps, hJ', fun _ => hd⟩, nofun, nofun⟩

/-- An operation without a declaration was replaced. -/
theorem Outcome.of_other {t' : LowerState} (hJ : J ps t') (hk : op.kind.decl? = none) :
    Outcome cx b₀ op J t true t' where
  parts _ := ⟨ps, hJ, fun hd => by rw [hk] at hd; cases hd⟩
  same := nofun
  whole := nofun

theorem not_inst_of_decl? (hk : op.kind.decl? = none) (i : Instance) : op.kind ≠ .inst i := by
  intro hi
  rw [hi] at hk
  cases hk

/-! ### Casts -/

theorem slice_cloned (h : Edits cx b₀ o op J G U Z) (hJ : J ps ⟨s, y⟩) (hop : op.kind.decl? = none)
    {flat : ValueId} (hflat : U s flat) (parts : List Part) (part : Part) :
    Runs False (slice flat parts part) s (Cloned J U op ps y part s) := by
  refine .bind_exceptBuild (P := fun _ => True) (.intro (fun _ _ => trivial) nofun) fun width _ => ?_
  split
  · exact create_cloned (.refl hJ) rfl (copies_other hop (by trivial) rfl) (by simp)
  dsimp only
  split
  · exact .bind_throw id
  refine (Build.bits_any flat _ _).bind fun v s' hv => ?_
  obtain ⟨p, w, hm⟩ := hv
  split
  · exact .pure ⟨s, _, _, _, .refl hJ, copies_other hop (by trivial) rfl, by simpa using hflat, hm⟩
  · have hv := (h.keeps ps y).made hJ (by trivial) (by simpa using hflat) hm
    exact create_cloned hv.toKept rfl (copies_other hop (by trivial) rfl) (by simpa using hv.value)

/-- The result gives way to a value that was made for it. -/
theorem giveWay_runs (h : Edits cx b₀ o op J G U Z) (hdecl : op.kind.decl? = none)
    (hk : op.kind.givesWay = true) {t' : LowerState} (hJ : J [] t') {result w : ValueId}
    (hr : op.results[0]? = some result) (hw : U t'.builder w) :
    Runs False (do change (·.replaceAllUses result w); return true) t' (Outcome cx b₀ op J t) :=
  Runs.bind_change (h.replaceAllUses_ends hJ hk (h.origin?_result hJ hr) hw) fun _ hb =>
    .pure (.of_other hb.holds hdecl)

theorem bitcast_runs (h : Edits cx b₀ o op J G U Z) (hJ : J [] t) (hb : t.builder.body = b₀)
    (hk : op.kind = .bitcast) : Runs False (bitcast o) t (Outcome cx b₀ op J t) := by
  have hdecl : op.kind.decl? = none := by rw [hk]; rfl
  have hway : op.kind.givesWay = true := by rw [hk]; rfl
  refine Runs.bind_body (h.ownOperand_ends hJ hb 0) fun input ⟨_, hinput⟩ =>
    Runs.bind_any fun result hresult => Runs.bind_any fun inputTy _ =>
    Runs.bind_any fun resultTy hresultTy => ?_
  obtain ⟨hr, hty⟩ := h.result_eq hJ hresult hresultTy
  split
  · exact .pure (.kept (not_inst_of_decl? hdecl))
  refine Runs.bind_build (Builder.Keeps.flatten_runs (h.keeps [] t.symbols) hJ hinput) fun flat s hs => ?_
  refine Runs.bind_except (P := fun parts? => resultTy.peel false = .ok parts?)
    (.intro (fun _ h => h) nofun) fun parts? hpeel => ?_
  split
  next parts =>
    refine (h.splitProducer_runs (t := ⟨s, t.symbols⟩) hs.holds (by simp [hk]) (by simp [hk])
      (by simp [hdecl]) fun hJ'' hsee => h.slice_cloned hJ'' hdecl (hsee flat hs.value) parts _).mono fun replaced t' ht' => ?_
    cases replaced with
    | true =>
      obtain ⟨ps, -, hJ''⟩ := ht'
      exact .of_other hJ'' hdecl
    | false =>
      -- the result still has the type that was found to have parts
      obtain ⟨-, r, ty, hr', hty', hnone⟩ := ht'
      obtain rfl := Option.some.inj (hr.symm.trans hr')
      obtain rfl := Option.some.inj (hty.symm.trans hty')
      rw [hpeel] at hnone
      cases hnone
  next =>
    split
    · refine Runs.bind_build (P := fun w s' => ∃ ty, s.Made (.prim .asSInt) [flat] ty w s')
        (Build.knownWidth_any fun _ => Build.prim_any.mono fun _ _ hm => ⟨_, hm⟩) ?_
      rintro w s' ⟨ty, hm⟩
      have hw := (h.keeps [] t.symbols).made hs.holds (by trivial) (by simpa using hs.value) hm
      exact h.giveWay_runs hdecl hway hw.holds hr hw.value
    · exact Runs.bind_build ((h.keeps [] t.symbols).castTo_runs hs.holds resultTy hs.value) fun w s' hw =>
        h.giveWay_runs hdecl hway hw.holds hr hw.value

/-! ### Reads at computed positions -/

theorem subaccess_runs (h : Edits cx b₀ o op J G U Z) (hJ : J [] t) (hb : t.builder.body = b₀)
    (hk : op.kind = .subaccess) : Runs False (subaccess o) t (Outcome cx b₀ op J t) := by
  have hdecl : op.kind.decl? = none := by rw [hk]; rfl
  have hway : op.kind.givesWay = true := by rw [hk]; rfl
  refine Runs.bind_body (h.ownOperand_ends hJ hb 0) fun input ⟨_, hinput⟩ =>
    Runs.bind_body (h.ownOperand_ends hJ hb 1) fun index ⟨_, hindex⟩ =>
    Runs.bind_body (h.ownResult_ends hJ 0) fun result hr => Runs.bind_any fun en _ => ?_
  have hkeeps := h.keeps [] t.symbols
  dsimp only
  split
  · refine Runs.bind_build (Build.createValue_any rfl _ _) fun w s hm => ?_
    have hw := hkeeps.made hJ (by trivial) (by simp) hm
    exact h.giveWay_runs hdecl hway hw.holds hr hw.value
  refine Runs.bind_any fun literal _ => ?_
  cases literal with
  | some literal =>
    refine Runs.bind_build (Build.subindex_any input _) fun w s hm => ?_
    have hw := hkeeps.madePart hJ hinput hm
    exact h.giveWay_runs hdecl hway hw.holds hr hw.value
  | none =>
    refine Runs.bind (Runs.mapM (fun _ vs t' => J [] t' ∧ (∀ w, U t.builder w → U t'.builder w) ∧
      ∀ v ∈ vs, U t'.builder v) _ ⟨hJ, fun _ => id, by simp⟩ fun _ i _ vs t' _ ⟨hJ', hsee, hvs⟩ =>
      Runs.build ((Build.subindex_any input i).mono fun w s' hm => ?_)) fun inputs t' ⟨hJ', hsee, hvs⟩ => ?_
    · have hw := (h.keeps [] t'.symbols).madePart hJ' (hsee _ hinput) hm
      refine ⟨hw.holds, fun v hv => hw.see (hsee v hv), fun v hv => ?_⟩
      rcases List.mem_append.1 hv with hv | hv
      · exact hw.see (hvs v hv)
      · exact List.mem_singleton.1 hv ▸ hw.value
    refine Runs.bind_build (Build.multiMux_any index inputs) ?_
    rintro w s ⟨first, ty, -, -, hm⟩
    have hw := (h.keeps [] t'.symbols).made hJ' (by trivial)
      (List.forall_mem_cons.2 ⟨hsee _ hindex, hvs⟩) hm
    exact h.giveWay_runs hdecl hway hw.holds hr hw.value

/-! ### Connections -/

/-- An accessor with a result that can be read. -/
def Accessed (U : Builder → ValueId → Prop) (s : Builder) (x : OpId) : Prop :=
  ∃ (op : Operation) (i : Nat) (v : ValueId), s.body.op? x = some op ∧ op.kind.isAccessor = true ∧
    op.results[i]? = some v ∧ U s v

/-- Accessors of the former body can be read as long as their results can. -/
theorem accessed (h : Edits cx b₀ o op J G U Z) {s₀ : Builder} (hb : s₀.body = b₀)
    (hJ : J ps ⟨⟨s.body, p⟩, y⟩) (hsee : ∀ w, U s₀ w → U s w) {x : OpId} (hx : Accessed U s₀ x) :
    Accessed U s x := by
  obtain ⟨opx, i, v, hop, hacc, hv, hs⟩ := hx
  obtain ⟨opx', hop', hk, hres⟩ := h.persists hJ (hb ▸ hop)
  exact ⟨opx', i, v, hop', by rwa [hk], by rwa [hres], hsee v hs⟩

/-- With an access, what it accesses can be read. -/
theorem operand_of_accessed (h : Edits cx b₀ o op J G U Z) (hJ : J ps t) {x : OpId}
    (hx : Accessed U t.builder x) (i : Nat) :
    Ends False (t.builder.body.operand x i) fun v => U t.builder v := by
  obtain ⟨opx, j, w, hop, -, hw, hs⟩ := hx
  refine Body.operand_ends (fun op' v hop' hv => ?_) nofun
  obtain rfl := Option.some.inj (hop.symm.trans hop')
  exact h.sight.through hJ hs ((h.coherent hJ).result hop hw) hop (List.mem_of_getElem? hv)

/-- Inside a guard, with all that could be read in front of it readable behind it. -/
abbrev KeptIn (G : List Part → Point → LowerState → Prop) (U : Builder → ValueId → Prop) (ps : List Part)
    (p : Point) (y : Symbols) (s₀ : Builder) (s : Builder) (v : ValueId) (s' : Builder) : Prop :=
  Builder.Yields (fun s => G ps p ⟨s, y⟩ ∧ ∀ w, U s₀ w → U ⟨s.body, p⟩ w) U s v s'

/-- An access is made anew on another value. -/
theorem reaccess_runs (h : Edits cx b₀ o op J G U Z) {s₀ : Builder} {x : OpId} {input : ValueId}
    (hG : G ps p t) (hsee : ∀ w, U s₀ w → U ⟨t.builder.body, p⟩ w) (hx : Accessed U t.builder x)
    (hin : U t.builder input) :
    Runs False (reaccess x input) t fun v t' => t'.symbols = t.symbols ∧
      KeptIn G U ps p t.symbols s₀ t.builder v t'.builder := by
  have hkeeps := h.keepsIn ps p t.symbols s₀
  refine Runs.bind_any fun kind _ => ?_
  split
  · exact Runs.build ((Build.subfield_any input _).mono fun _ _ hm =>
      ⟨rfl, hkeeps.madePart ⟨hG, hsee⟩ hin hm⟩)
  · exact Runs.build ((Build.subindex_any input _).mono fun _ _ hm =>
      ⟨rfl, hkeeps.madePart ⟨hG, hsee⟩ hin hm⟩)
  · obtain ⟨opx, i, v, hop, -, hv, hs⟩ := hx
    refine Runs.bind_body (P := fun index => U t.builder index)
      (Body.operand_ends (fun op' index hop' hindex => ?_) nofun) fun index hindex =>
      Runs.build ((Build.subaccess_any input index).mono ?_)
    · obtain rfl := Option.some.inj (hop.symm.trans hop')
      exact h.sight.throughIn hG hs ((h.coherentIn hG).result hop hv) hop (List.mem_of_getElem? hindex)
    · rintro v s ⟨e, n, -, hm⟩
      exact ⟨rfl, hkeeps.made ⟨hG, hsee⟩ (by trivial) (by simp [hin, hindex]) hm⟩
  · exact .throw id

theorem guardedWrite_runs (h : Edits cx b₀ o op J G U Z) {s₀ : Builder} (hb : s₀.body = b₀)
    (hJ : J ps t) (hsee : ∀ w, U s₀ w → U t.builder w) (strict : Bool) {vector index src : ValueId}
    (hvector : U s₀ vector) (hindex : U s₀ index) (hsrc : U s₀ src) (width : Nat) {inner : List OpId}
    (hinner : ∀ x ∈ inner, Accessed U s₀ x) (element : Nat) :
    Runs False (guardedWrite strict vector index src width inner element) t fun _ t' =>
      J ps t' ∧ ∀ w, U s₀ w → U t'.builder w := by
  have hkeeps := h.keeps ps t.symbols
  refine Runs.bind_build (Build.createValue_any rfl _ _) fun position s₁ hm₁ => ?_
  have h₁ := hkeeps.made hJ (by trivial) (by simp) hm₁
  refine Runs.bind_build Build.prim_any fun cond s₂ hm₂ => ?_
  have h₂ := h₁.yields (hkeeps.made h₁.holds (by trivial)
    (by simp [h₁.see (hsee _ hindex), h₁.value]) hm₂)
  refine Runs.bind_build (when_runs s₂ cond false nofun) ?_
  rintro ⟨w, k, e⟩ s₃ ⟨hc, hp, he⟩
  obtain rfl : e = none := by simpa using he
  have hG := h.enter h₂.holds h₂.value hc
  have hin (u : ValueId) (hu : U s₀ u) : U ⟨s₃.body, ⟨k, 0⟩⟩ u :=
    h.sight.enter h₂.holds hc (h₂.see (hsee u hu))
  have hout (u : ValueId) (hu : U s₀ u) : U ⟨s₃.body, ⟨s₂.point.block, s₂.point.index + 1⟩⟩ u :=
    (h.sight.see h₂.holds hc).1 u (h₂.see (hsee u hu))
  refine Runs.bind_point (Runs.bind_moveTo ?_)
  rw [hp]
  have hkeepsIn := h.keepsIn ps ⟨s₂.point.block, s₂.point.index + 1⟩ t.symbols s₀
  refine Runs.bind_build (Build.subindex_any vector element) fun leaf s₄ hm₄ => ?_
  have h₄ := hkeepsIn.madePart ⟨hG, hout⟩ (hin _ hvector) hm₄
  -- the accesses behind the computed one are made anew, the one next to it first
  refine Runs.bind (Runs.foldlM (fun _ leaf t' => t'.symbols = t.symbols ∧
    KeptIn G U ps ⟨s₂.point.block, s₂.point.index + 1⟩ t.symbols s₀ ⟨s₃.body, ⟨k, 0⟩⟩ leaf t'.builder)
    inner.reverse ⟨rfl, h₄⟩ fun _ x rest leaf t' hl ⟨hy, h'⟩ => ?_) ?_
  · obtain ⟨s', y'⟩ := t'
    obtain rfl : y' = t.symbols := hy
    have hx : x ∈ inner := List.mem_reverse.1 (hl ▸ List.mem_append_right _ List.mem_cons_self)
    have hacc := h.accessed hb (h.leave h'.holds.1) (fun u hu => h'.see (hin u hu)) (hinner x hx)
    exact (h.reaccess_runs (t := ⟨s', t.symbols⟩) h'.holds.1 h'.holds.2 hacc h'.value).mono
      fun _ _ ⟨hy', h''⟩ => ⟨hy', h'.toKept.yields h''⟩
  rintro leaf ⟨s', y'⟩ ⟨hy, h'⟩
  obtain rfl : y' = t.symbols := hy
  refine Runs.bind_build (hkeepsIn.connect_runs h'.holds strict h'.value (h'.see (hin _ hsrc)))
    fun _ s₅ h₅ => ?_
  exact Runs.build (.moveTo ⟨h.leave h₅.holds.1, h₅.holds.2⟩)

/-- One part of a connection. -/
theorem connectPart_runs (h : Edits cx b₀ o op J G U Z) (hJ : J ps ⟨s, y⟩) (strict : Bool)
    {dest src : ValueId} (hdest : U s dest) (hsrc : U s src) (part : Part) :
    Runs False (connectPart strict dest src part) s fun _ s' => Kept J U ps y s s' := by
  have hkeeps := h.keeps ps y
  refine (hkeeps.part_runs hJ hsrc _).bind fun v s₁ hv => ?_
  refine (hkeeps.part_runs hv.holds (hv.see hdest) _).bind fun w s₂ hw => ?_
  have hboth := hv.toKept.trans hw.toKept
  split
  · exact (hkeeps.connect_runs hw.holds strict (hw.see hv.value) hw.value).bind fun _ _ h₃ =>
      .pure (hboth.trans h₃)
  · exact (hkeeps.connect_runs hw.holds strict hw.value (hw.see hv.value)).bind fun _ _ h₃ =>
      .pure (hboth.trans h₃)

/-! ### Writes at computed positions -/

theorem accessChain_ends (h : Edits cx b₀ o op J G U Z) (hJ : J ps t) (fuel : Nat) {v : ValueId}
    (hv : U t.builder v) : Ends False (t.builder.body.accessChain fuel v) fun path =>
      ∀ x ∈ path, Accessed U t.builder x := by
  induction fuel generalizing v with
  | zero => exact .pure (by simp)
  | succ fuel ih =>
    refine Ends.bind (P := fun d? => ∀ d, d? = some d → ∃ i, t.builder.body.origin? v = some (.result d i))
      (definer_ends (fun _ => by simp) (fun d i hdi => by simpa using ⟨i, hdi⟩) nofun) fun d? hd => ?_
    cases d? with
    | none => exact .pure (by simp)
    | some d =>
      obtain ⟨i, hdi⟩ := hd d rfl
      obtain ⟨opd, hop, hres⟩ := (h.coherent hJ).origin hdi
      refine Ends.bind (P := fun kind => opd.kind = kind)
        (kindOf_ends (fun op' hop' => by rw [Option.some.inj (hop.symm.trans hop')]) nofun) ?_
      rintro _ rfl
      split
      next hacc =>
        have hd : Accessed U t.builder d := ⟨opd, i, v, hop, hacc, hres, hv⟩
        refine Ends.bind (h.operand_of_accessed hJ hd 0) fun w hw => ?_
        exact (ih hw).bind fun path hpath => .pure (List.forall_mem_cons.2 ⟨hd, hpath⟩)
      next => exact .pure (by simp)

/-- The path of a write is made of accessors. -/
theorem writePath_ends (h : Edits cx b₀ o op J G U Z) (hJ : J [] t) (hb : t.builder.body = b₀) :
    Ends False (t.builder.body.writePath o) fun path => ∀ x ∈ path, Accessed U t.builder x := by
  refine Ends.bind (h.ownOperand_ends hJ hb 0) fun v hv => ?_
  exact (h.accessChain_ends hJ _ hv.2).bind fun chain hchain => (trimStatic_kept _ chain).mono
    fun _ hkept x hx => hchain x (hkept.1.subset hx)

theorem writePath_runs (h : Edits cx b₀ o op J G U Z) (hJ : J [] t) (hb : t.builder.body = b₀)
    (strict : Bool) : Runs False (writePath o strict) t fun written t' =>
      if written then J [] t' else t' = t := by
  refine Runs.bind_body (h.writePath_ends hJ hb) fun path hpath => ?_
  split
  next access hlast =>
    have haccess := hpath access (List.mem_of_getLast? hlast)
    refine Runs.bind_body (h.operand_of_accessed hJ haccess 0) fun vector hvector =>
      Runs.bind_body (h.operand_of_accessed hJ haccess 1) fun index hindex =>
      Runs.bind_body (h.ownOperand_ends hJ hb 1) fun src ⟨_, hsrc⟩ => Runs.bind_any fun en _ => ?_
    refine Runs.bind (Runs.forM (fun _ t' => J [] t' ∧ ∀ w, U t.builder w → U t'.builder w) _
      ⟨hJ, fun _ => id⟩ fun _ i _ t' _ ⟨hJ', hsee⟩ =>
      h.guardedWrite_runs hb hJ' hsee strict hvector hindex hsrc _
        (fun x hx => hpath x (List.dropLast_subset _ hx)) i) fun _ t' ⟨hJ', _⟩ => ?_
    refine Runs.bind_change (P := fun b => J [] ⟨⟨b, t'.builder.point⟩, t'.symbols⟩)
      ((dropOperands_ends nofun).mono fun b hd => h.drop hJ' rfl (fun hne => absurd rfl hne) (fun hf => by cases hf) hd) fun b hJ₁ => ?_
    refine Runs.bind_change ((h.rewires [] _ _).eraseUnread_ends hJ₁ fun x hx op₁ hop₁ => ?_)
      fun _ hJ₂ => .pure hJ₂
    obtain ⟨op', -, -, hop', hacc, -⟩ := hpath x hx
    obtain ⟨op'', hop'', hk', -⟩ := h.persists hJ₁ (hb ▸ hop')
    rw [Option.some.inj (hop₁.symm.trans hop''), hk', hacc]
  next => exact .pure rfl

theorem connect_runs (h : Edits cx b₀ o op J G U Z) (hJ : J [] t) (hb : t.builder.body = b₀)
    (hk : ∃ strict, op.kind = .connect strict) (strict : Bool) :
    Runs False (connect o strict) t (Outcome cx b₀ op J t) := by
  have hdecl : op.kind.decl? = none := by
    obtain ⟨strict, hk⟩ := hk
    rw [hk]
    rfl
  refine (h.writePath_runs hJ hb strict).bind fun written t₁ hJ₁ => ?_
  cases written with
  | true => exact .pure (.of_other hJ₁ hdecl)
  | false =>
    obtain rfl : t₁ = t := hJ₁
    refine Runs.bind_body (h.ownOperand_ends hJ hb 0) fun dest ⟨_, hdest⟩ =>
      Runs.bind_body (h.ownOperand_ends hJ hb 1) fun src ⟨_, hsrc⟩ => Runs.bind_any fun ty _ => ?_
    refine Runs.bind_except (P := fun _ => True) (.intro (fun _ _ => trivial) nofun) fun parts? _ => ?_
    split
    next parts =>
      refine Runs.bind (Runs.forM (fun _ t' => J [] t' ∧ ∀ w, U t₁.builder w → U t'.builder w) parts
        ⟨hJ, fun _ => id⟩ fun _ part _ t' _ ⟨hJ', hsee⟩ => Runs.build
          ((h.connectPart_runs hJ' strict (hsee _ hdest) (hsee _ hsrc) part).mono
            fun _ _ hs => ⟨hs.holds, fun w hw => hs.see (hsee w hw)⟩)) fun _ t' ⟨hJ', _⟩ => ?_
      exact .pure (.of_other hJ' hdecl)
    next => exact .pure (.kept (not_inst_of_decl? hdecl))

/-! ### Memories -/

/-- The results of the operation can be read. -/
def Shows (U : Builder → ValueId → Prop) (s : Builder) (x : OpId) : Prop :=
  ∃ op, s.body.op? x = some op ∧ ∀ v ∈ op.results, U s v

theorem Shows.kept {x : OpId} {s' : Builder} (hx : Shows U s x)
    (hop : ∀ {x op}, s.body.op? x = some op → ∃ op', s'.body.op? x = some op' ∧ op'.results = op.results)
    (hsee : ∀ w, U s w → U s' w) : Shows U s' x := by
  obtain ⟨opx, hopx, hs⟩ := hx
  obtain ⟨op', hop', hres⟩ := hop hopx
  exact ⟨op', hop', fun v hv => hsee v (hs v (hres ▸ hv))⟩

theorem Shows.result_ends {x : OpId} (hx : Shows U s x) (i : Nat) :
    Ends False (s.body.result x i) fun v => U s v := by
  obtain ⟨opx, hopx, hs⟩ := hx
  refine Body.result_ends (fun op' v hop' hv => ?_) nofun
  obtain rfl := Option.some.inj (hopx.symm.trans hop')
  exact hs v (List.mem_of_getElem? hv)

/-- A new operation shows its results. -/
theorem shows_created (h : Edits cx b₀ o op J G U Z) (hJ : J ps t) {kind : OpKind} {vs : List ValueId}
    {tys : List Ty} {x : OpId} {b : Body} (hc : Created t.builder.body t.builder.point kind vs tys x b) :
    Shows U (t.builder.after b) x := by
  have hb := (h.coherent hJ).created hc
  refine ⟨_, hc.op?_self, fun v hv => ?_⟩
  obtain ⟨i, hi⟩ := List.mem_iff_getElem?.1 hv
  exact (h.sight.see hJ hc).2 v i (hb.result hc.op?_self hi)

/-- New plain operations leave results of operations readable. -/
theorem keepsShown (h : Edits cx b₀ o op J G U Z) (ps : List Part) (y : Symbols) (s₀ : Builder)
    (os : List OpId) :
    Builder.Keeps (fun s => J ps ⟨s, y⟩ ∧ (∀ w, U s₀ w → U s w) ∧ ∀ x ∈ os, Shows U s x) U where
  coherent hJ := h.coherent hJ.1
  create hJ hk hv hc := by
    have hold := (h.sight.see hJ.1 hc).1
    refine ⟨h.create hJ.1 hk hv hc, fun w hw => hold w (hJ.2.1 w hw), fun x hx => ?_⟩
    exact (hJ.2.2 x hx).kept (fun hop => ⟨_, hc.op?_old hop, rfl⟩) hold
  see hJ := h.sight.see hJ.1

/-- The wire of a port takes over its readers. -/
theorem portWire_runs (h : Edits cx b₀ o op J G U Z) (hJ : J ps t) (hk : op.kind.givesWay = true) (ty : Ty)
    (name : String) (i : Nat) :
    Runs False (do
      let wire ← (Build.wire ty { name := some name } : Lower OpId)
      let value ← body (·.result wire 0)
      change fun b => do b.replaceAllUses (← b.result o i) value
      return value) t fun v t' => J ps t' ∧ (∀ w, U t.builder w → U t'.builder w) ∧ U t'.builder v := by
  refine Runs.bind_build (Build.create_any rfl _ _) ?_
  rintro wire s ⟨b, hc, rfl⟩
  have hJ' := h.create hJ (by exact ⟨rfl, rfl⟩) (by simp) hc
  have hold := (h.sight.see hJ hc).1
  refine Runs.bind_body ((h.shows_created hJ hc).result_ends 0) fun value hvalue => ?_
  refine Runs.bind_change (P := Rewired J U Z ps ⟨t.builder.after b, t.symbols⟩) ?_ fun b hr =>
    .pure ⟨hr.holds, fun w hw => hr.values w (hold w hw), hr.values _ hvalue⟩
  refine Ends.bind (h.ownResult_ends hJ' i) fun r hr => ?_
  exact h.replaceAllUses_ends hJ' hk (h.origin?_result hJ' hr) hvalue

theorem portWires_runs (h : Edits cx b₀ o op J G U Z) (hJ : J ps t) (hk : op.kind.givesWay = true)
    (m : Memory) :
    Runs False (portWires o m) t fun wires t' => J ps t' ∧ ∀ v ∈ wires, U t'.builder v :=
  Runs.mapM (fun _ wires t' => J ps t' ∧ ∀ v ∈ wires, U t'.builder v) _ ⟨hJ, by simp⟩
    fun _ e _ wires t' _ ⟨hJ', hwires⟩ => (h.portWire_runs hJ' hk _ _ e.2).mono
      fun v _ ⟨hJ'', hsee, hv⟩ => ⟨hJ'', fun w hw => by
        rcases List.mem_append.1 hw with hw | hw
        · exact hsee w (hwires w hw)
        · exact List.mem_singleton.1 hw ▸ hv⟩

/-- The memory of one part. -/
theorem narrowMemory_runs (h : Edits cx b₀ o op J G U Z) (hJ : J ps t) {m : Memory} (hk : op.kind = .mem m)
    {ps' rest : List Part} {part : Part} (hd : b₀.Divides cx.options.preserveAggregate op ps') (hps : ps' = ps ++ part :: rest)
    {os : List OpId} (hos : ∀ x ∈ os, Shows U t.builder x) :
    Runs False (narrowMemory m part) t fun x t' => J (ps ++ [part]) t' ∧
      (∀ w, U t.builder w → U t'.builder w) ∧ ∀ x' ∈ os ++ [x], Shows U t'.builder x' := by
  refine Runs.bind_except (P := fun m' => m.narrow part = .ok m') (.intro (fun _ h => h) nofun)
    fun m' hm' => ?_
  refine Runs.bind_build (Build.create_any rfl _ _) ?_
  rintro x s ⟨b, hc, rfl⟩
  have hJ' := h.memory hJ hk hd hps hm' hc
  have hold := (h.sight.see hJ hc).1
  have hshow : ∀ x' ∈ os ++ [x], Shows U (t.builder.after b) x' := fun x' hx' => by
    rcases List.mem_append.1 hx' with hx' | hx'
    · exact (hos x' hx').kept (fun hop => ⟨_, hc.op?_old hop, rfl⟩) hold
    · exact List.mem_singleton.1 hx' ▸ h.shows_created hJ hc
  unfold Memory.forPart at hJ'
  split
  next base hsym =>
    rw [hsym] at hJ'
    refine Runs.bind (Runs.mint (Q := fun sym t' =>
      sym = (t.symbols.derive base part.suffix part.ty.isGround (.operation x)).1 ∧
      t' = ⟨t.builder.after b,
        (t.symbols.derive base part.suffix part.ty.isGround (.operation x)).2⟩) ⟨rfl, rfl⟩) ?_
    rintro _ _ ⟨rfl, rfl⟩
    refine Runs.bind (Runs.change (.pure ⟨hJ', fun w hw => h.sight.declared (hold w hw), fun x' hx' => ?_⟩))
      fun _ _ h => .pure h
    refine (hshow x' hx').kept (fun hop => ?_) fun _ => h.sight.declared
    obtain ⟨kind, hop', -⟩ := op?_modifyDecl_some hop
    exact ⟨_, hop', rfl⟩
  next hsym =>
    cases hs : m.decl.sym with
    | some base => exact absurd hs (hsym base)
    | none =>
      rw [hs] at hJ'
      exact .pure ⟨hJ', hold, hshow⟩

/-- A field of the wire of a port is connected with the new memories, which show their results. -/
theorem joinField_runs (h : Edits cx b₀ o op J G U Z) {memories : List (Part × OpId)} {s₀ : Builder}
    (hJ : J ps t) (hsee : ∀ w, U s₀ w → U t.builder w)
    (hshow : ∀ x ∈ memories.map (·.2), Shows U t.builder x) {wire : ValueId} (hwire : U s₀ wire) (port : Nat)
    (field : Field) (position : Nat) :
    Runs False (joinField wire port memories field position) t fun _ t' => J ps t' ∧
      (∀ w, U s₀ w → U t'.builder w) ∧ ∀ x ∈ memories.map (·.2), Shows U t'.builder x := by
  have hkeeps := h.keepsShown ps t.symbols s₀ (memories.map (·.2))
  have hfield {s : Builder} (hI) {v : ValueId} (hv : U s v) :=
    (Build.subfield_any v position).mono fun _ _ hm => hkeeps.madePart (s := s) hI hv hm
  refine Runs.bind_build (hfield (s := t.builder) ⟨hJ, hsee, hshow⟩ (hsee _ hwire)) fun whole s₁ hwhole => ?_
  refine (Runs.forM (fun _ t' => t'.symbols = t.symbols ∧ Builder.Kept (fun s => J ps ⟨s, t.symbols⟩ ∧
      (∀ w, U s₀ w → U s w) ∧ ∀ x ∈ memories.map (·.2), Shows U s x) U s₁ t'.builder) memories
    ⟨rfl, .refl hwhole.holds⟩ fun done e rest t' hl ⟨hy, hs'⟩ => ?_).mono fun _ t' ⟨hy, hs'⟩ => ?_
  · obtain ⟨s', y'⟩ := t'
    obtain rfl : y' = t.symbols := hy
    exact hs'.holds
  · obtain ⟨s', y'⟩ := t'
    obtain rfl : y' = t.symbols := hy
    have he : e.2 ∈ memories.map (·.2) :=
      List.mem_map_of_mem (hl ▸ List.mem_append_right _ List.mem_cons_self)
    dsimp only
    split
    · refine Runs.bind_build (hkeeps.part_runs hs'.holds (hs'.see hwhole.value) _) fun leaf s₂ hleaf => ?_
      refine Runs.bind_body ((hleaf.holds.2.2 _ he).result_ends port) fun newPort hport => ?_
      refine Runs.bind_build (hfield hleaf.holds hport) fun newField s₃ hnew => ?_
      have hboth := (hs'.trans hleaf.toKept).trans hnew.toKept
      split
      · exact Runs.bind_build (hkeeps.connect_runs hnew.holds true (hnew.see hleaf.value) hnew.value)
          fun _ _ hlast => .pure ⟨rfl, hboth.trans hlast⟩
      · exact Runs.bind_build (hkeeps.connect_runs hnew.holds true hnew.value (hnew.see hleaf.value))
          fun _ _ hlast => .pure ⟨rfl, hboth.trans hlast⟩
    · refine Runs.bind_body ((hs'.holds.2.2 _ he).result_ends port) fun newPort hport => ?_
      refine Runs.bind_build (hfield hs'.holds hport) fun newField s₃ hnew => ?_
      exact Runs.bind_build (hkeeps.connect_runs hnew.holds true hnew.value
        (hnew.see (hs'.see hwhole.value))) fun _ _ hlast =>
          .pure ⟨rfl, (hs'.trans hnew.toKept).trans hlast⟩

theorem memory_runs (h : Edits cx b₀ o op J G U Z) (hJ : J [] t) {m : Memory} (hk : op.kind = .mem m) :
    Runs False (Lower.memory o m) t (Outcome cx b₀ op J t) := by
  have hinst : ∀ i, op.kind ≠ .inst i := by simp [hk]
  refine Runs.bind_except (P := fun ps? => m.dataType.peel false = .ok ps?) (.intro (fun _ h => h) nofun)
    fun ps? hpeel => ?_
  split
  next parts =>
    have hd : b₀.Divides cx.options.preserveAggregate op parts := by
      rw [Divides, hk]
      exact hpeel
    refine (h.portWires_runs hJ (by rw [hk]; rfl) m).bind fun wires t₁ ⟨hJ₁, hwires⟩ => ?_
    refine Runs.bind (Runs.mapM (fun done (memories : List (Part × OpId)) t' => J done t' ∧
      (∀ w, U t₁.builder w → U t'.builder w) ∧ ∀ x ∈ memories.map (·.2), Shows U t'.builder x) parts
      ⟨hJ₁, fun _ => id, by simp⟩ fun done part rest memories t' hl ⟨hJ', hsee, hshow⟩ =>
      (h.narrowMemory_runs hJ' hk hd hl hshow).bind fun x t'' ⟨hJ'', hsee', hshow'⟩ =>
        .pure ⟨hJ'', fun w hw => hsee' w (hsee w hw), by simpa using hshow'⟩)
      fun memories t₂ ⟨hJ₂, hsee₂, hshow₂⟩ => ?_
    refine Runs.bind (Runs.forM (fun _ t' => J parts t' ∧ (∀ w, U t₁.builder w → U t'.builder w) ∧
      ∀ x ∈ memories.map (·.2), Shows U t'.builder x) _ ⟨hJ₂, hsee₂, hshow₂⟩ fun _ e _ t' hl h' =>
      Runs.forM (fun _ t' => J parts t' ∧ (∀ w, U t₁.builder w → U t'.builder w) ∧
        ∀ x ∈ memories.map (·.2), Shows U t'.builder x) _ h' fun _ f _ t'' _ h'' =>
        h.joinField_runs h''.1 h''.2.1 h''.2.2 (hwires e.1.1 ?_) e.2 f.1 f.2) fun _ t₃ h₃ => ?_
    · have he : e.1 ∈ wires.zip m.ports := (List.mem_zipIdx' (hl ▸ List.mem_append_right _ List.mem_cons_self)).2 ▸ List.getElem_mem _
      exact (List.of_mem_zip (a := e.1.1) (b := e.1.2) he).1
    · exact .pure ⟨fun _ => ⟨parts, h₃.1, fun _ => hd⟩, nofun, nofun⟩
  next => exact .pure (.kept hinst)

/-! ### Instances -/

theorem handOver_ends (h : Edits cx b₀ o op J G U Z) (hk : op.kind.givesWay = true)
    {splits : List (ValueId × SplitPort)}
    (hsplits : ∀ e ∈ splits, ∃ i : Nat, op.results[i]? = some e.1) :
    ∀ {new : List ValueId} {t : LowerState}, J ps t → (∀ v ∈ new, U t.builder v) →
    Ends False (handOver splits new t.builder.body) fun b => J ps ⟨⟨b, t.builder.point⟩, t.symbols⟩ := by
  induction splits with
  | nil => exact fun hJ _ => .pure hJ
  | cons e splits ih =>
    obtain ⟨old, s⟩ := e
    intro new t hJ hnew
    obtain ⟨i, hold⟩ := hsplits _ List.mem_cons_self
    have horigin := h.origin?_result hJ hold
    have hmine : ∀ v ∈ new.take s.types.length, U t.builder v := fun v hv => hnew v (List.take_subset _ _ hv)
    rw [handOver]
    dsimp only
    have hrest : ∀ b, Rewired J U Z ps t b → Ends False
        (handOver splits (new.drop s.types.length) b) fun b => J ps ⟨⟨b, t.builder.point⟩, t.symbols⟩ :=
      fun b hb => ih (fun e he => hsplits e (List.mem_cons_of_mem _ he))
        (t := ⟨⟨b, t.builder.point⟩, t.symbols⟩) hb.holds
        fun v hv => hb.values v (hnew v (List.drop_subset _ _ hv))
    split
    next v hv =>
      refine Ends.bind (P := fun _ => True) (.intro (fun _ _ => trivial) False.elim) fun ty _ => ?_
      split
      · exact (h.replaceAllUses_ends hJ hk horigin (hmine v (hv ▸ List.mem_singleton_self v))).bind hrest
      · exact (h.rewire_ends hJ horigin hmine).bind hrest
    next => exact (h.rewire_ends hJ horigin hmine).bind hrest

theorem inst_runs (h : Edits cx b₀ o op J G U Z) (hJ : J [] t) (hb : t.builder.body = b₀) {i : Instance}
    (hk : op.kind = .inst i) : Runs False (Lower.inst cx o i) t (Outcome cx b₀ op J t) := by
  have hop : t.builder.body.op? o = some op := hb ▸ h.op?
  unfold Lower.inst
  split
  next entry hentry =>
    refine Body.bind_op hop ?_
    refine Runs.bind (Runs.mapM (fun done splits t' => t' = t ∧
      List.Forall₂ (b₀.Splits (cx.options.portsMayPreserve entry)) done splits) _ ⟨rfl, .nil⟩ ?_) ?_
    · rintro done ⟨p, v⟩ rest splits _ - ⟨rfl, hdone⟩
      refine Runs.bind_body (P := fun ty => b₀.ty? v = some ty)
        (typeOf_ends (fun _ hty => hb ▸ hty) nofun) fun ty hty => ?_
      refine Runs.bind_except (P := fun s => p.split ty _ = .ok s) (.intro (fun _ h => h) nofun)
        fun s hs => .pure ⟨rfl, ?_⟩
      exact List.rel_append hdone (.cons ⟨rfl, ty, hty, hs⟩ .nil)
    rintro splits t ⟨rfl, hsplits⟩
    have hown : ∀ e ∈ splits, ∃ i : Nat, op.results[i]? = some e.1 := fun e he => by
      obtain ⟨⟨_, v⟩, hv, hs, -⟩ := exists_of_forall₂ hsplits he
      exact hs ▸ List.mem_iff_getElem?.1 (List.of_mem_zip hv).2
    split
    next hany =>
      refine .pure ⟨nofun, fun _ => rfl, fun _ i' hi' => ?_⟩
      obtain rfl : i = i' := by rw [hk] at hi'; cases hi'; rfl
      refine ⟨entry, splits, hentry, hsplits, fun s hs => ?_⟩
      simp only [Bool.not_eq_true', List.any_eq_false, Bool.not_eq_true] at hany
      exact hany s hs
    next =>
      -- whatever the symbol is, the instance is made in the same way
      have hmake : ∀ sym y, i.renamed splits t.symbols = (sym, y) → Runs False (do
          let new ← (Build.inst (i.split splits sym) (splits.flatMap (·.2.types)) : Lower OpId)
          let newResults := (← body (·.op new)).results
          change (Body.handOver splits newResults)
          return true) ⟨t.builder, y⟩ (Outcome cx b₀ op J t) := by
        rintro sym y hy
        refine Runs.bind_build (Build.create_any rfl _ _) ?_
        rintro x s ⟨b, hc, rfl⟩
        have hc' : Created t.builder.body t.builder.point
            (.inst (i.split splits (i.renamed splits t.symbols).1)) [] (splits.flatMap (·.2.types)) x b := by
          rw [hy]
          exact hc
        have hJ' := h.inst hJ hb hk hentry hsplits hc' ⟨.clock, 0, 0, "", false⟩
        rw [hy] at hJ'
        refine Runs.bind_body (P := fun opx => ∀ v ∈ opx.results, U (t.builder.after b) v)
          (op_ends (fun opx hopx => ?_) nofun) fun opx hnew => ?_
        · obtain ⟨opx', hopx', hshow⟩ := h.shows_created hJ hc'
          exact Option.some.inj (hopx'.symm.trans hopx) ▸ hshow
        refine Runs.bind_change (h.handOver_ends (by rw [hk]; rfl) hown hJ' hnew) fun b hb => .pure ?_
        exact ⟨fun _ => ⟨_, hb, fun _ => by rw [Divides, hk]; exact List.cons_ne_nil _ _⟩, nofun, nofun⟩
      dsimp only
      split
      next hsym => exact .bind_mint (hmake _ _ (by unfold Instance.renamed; rw [if_pos hsym]))
      next hsym => exact hmake _ _ (by unfold Instance.renamed; rw [if_neg hsym])
  next => exact .throw id

/-! ### Any operation -/

/-- The operation is lowered by one layer. -/
theorem step_runs (h : Edits cx b₀ o op J G U Z) (hJ : J [] t) (hb : t.builder.body = b₀) :
    Runs False (Lower.step cx o op.kind) t (Outcome cx b₀ op J t) := by
  have hproducer (hinst : ∀ i, op.kind ≠ .inst i) :
      Runs False (producer o cx.options.preserveAggregate op.kind) t (Outcome cx b₀ op J t) :=
    (h.producer_runs hJ hb).mono fun _ _ => Outcome.of_producer hinst
  cases hk : op.kind with
  | bitcast => exact h.bitcast_runs hJ hb hk
  | subaccess => exact h.subaccess_runs hJ hb hk
  | connect strict => exact h.connect_runs hJ hb ⟨strict, hk⟩ strict
  | mem m => exact h.memory_runs hJ hk
  | inst i => exact h.inst_runs hJ hb hk
  | _ =>
    rw [hk] at hproducer
    exact hproducer (by simp)

end Edits

end Scalarize
