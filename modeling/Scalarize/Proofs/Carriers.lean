import Scalarize.Proofs.Completeness
import Scalarize.Proofs.Edits.Standing

/-!
# Carriers of symbols

Ports and declarations carry inner symbols and annotations. What an edit does to a body matters here only
as far as its declarations go.

* `Carrier`, `Carrier.Splits` : a port or a declaration, and whether it gives way to its parts;
* `Module.carriers` : all carriers of a module; `Module.syms_eq` : their symbols are those of the module;
* `Body.carrier?` : the declaration that an operation carries, and what each edit does to it.
-/

namespace Scalarize

open Body

/-- A port, or a declaration that stands. -/
structure Carrier where
  place : TargetKind
  sym : Option String
  annotations : List Annotation
  /-- Type of what it holds; an instance holds nothing of its own. -/
  ty : Option Ty
  /-- Aggregates that may be kept are kept here. -/
  keep : Bool

namespace Carrier

/-- It holds a ground value. -/
def ground (e : Carrier) : Bool := e.ty.any Ty.isGround

/-- It holds an aggregate that is not kept, and gives way to its parts. -/
def Splits (e : Carrier) : Prop := ∃ t, e.ty = some t ∧ t.isGround = false ∧ ¬(e.keep = true ∧ t.preservable)

theorem Splits.not_ground {e : Carrier} (h : e.Splits) : e.ground = false := by
  obtain ⟨t, ht, hg, -⟩ := h
  rw [ground, ht, Option.any_some, hg]

end Carrier

/-- A port as a carrier. -/
def Port.carrier (keep : Bool) (p : Port) : Carrier := ⟨.port, p.sym, p.annotations, some p.ty, keep⟩

/-- Type of what a declaration holds, given the type of the first result. -/
def OpKind.holds? (first : Option Ty) : OpKind → Option Ty
  | .inst _ => none
  | .mem m => some m.dataType
  | _ => first

/-- Memories are always split, other declarations only if nothing is kept. -/
def OpKind.keeps (keep : Bool) : OpKind → Bool
  | .mem _ => false
  | _ => keep

theorem OpKind.holds?_mapDecl (f : Decl → Decl) (k : OpKind) (first : Option Ty) :
    (k.mapDecl f).holds? first = k.holds? first := by cases k <;> rfl

theorem OpKind.keeps_mapDecl (f : Decl → Decl) (k : OpKind) (keep : Bool) :
    (k.mapDecl f).keeps keep = k.keeps keep := by cases k <;> rfl

/-- A declaration as a carrier, given the type of the first result. -/
def OpKind.carrier? (keep : Bool) (x : OpId) (first : Option Ty) (k : OpKind) : Option Carrier :=
  k.decl?.map fun d => ⟨.operation x, d.sym, d.annotations, k.holds? first, k.keeps keep⟩

/-- The declaration that an operation carries that stands. -/
def Body.carrier? (keep : Bool) (b : Body) (x : OpId) : Option Carrier :=
  (b.op? x).bind fun op =>
    if op.erased then none else op.kind.carrier? keep x (op.results[0]?.bind b.ty?)

/-- The ports of a module, then its declarations. -/
def Module.carriers (options : Options) (m : Module) : List Carrier :=
  m.ports.map (Port.carrier (options.portsMayPreserve m.entry)) ++
    match m.body with
    | some b => b.walk.filterMap (b.carrier? options.preserveAggregate)
    | none => []

namespace Body

variable {keep : Bool} {b b' : Body} {x x' : OpId} {e : Carrier}

theorem carrier?_eq_some_iff : b.carrier? keep x = some e ↔ ∃ op d, b.op? x = some op ∧ op.erased = false ∧
    op.kind.decl? = some d ∧
    e = ⟨.operation x, d.sym, d.annotations, op.kind.holds? (op.results[0]?.bind b.ty?), op.kind.keeps keep⟩ := by
  unfold carrier? OpKind.carrier?
  constructor
  · intro h
    obtain ⟨op, hop, h⟩ := Option.bind_eq_some_iff.1 h
    cases he : op.erased with
    | true => simp [he] at h
    | false =>
      rw [he, if_neg Bool.false_ne_true] at h
      obtain ⟨d, hd, rfl⟩ := Option.map_eq_some_iff.1 h
      exact ⟨op, d, hop, he, hd, rfl⟩
  · rintro ⟨op, d, hop, he, hd, rfl⟩
    rw [hop, Option.bind_some, he, hd]
    rfl

theorem carrier?_of_op? {op : Operation} (h : b.op? x = some op) (he : op.erased = false) :
    b.carrier? keep x = op.kind.carrier? keep x (op.results[0]?.bind b.ty?) := by
  rw [carrier?, h, Option.bind_some, he]
  rfl

/-- A carrier knows its operation. -/
theorem place_of_carrier? (h : b.carrier? keep x = some e) : e.place = .operation x := by
  obtain ⟨op, d, -, -, -, rfl⟩ := carrier?_eq_some_iff.1 h
  rfl

theorem stands_of_carrier? (h : b.carrier? keep x = some e) : b.stands x := by
  obtain ⟨op, d, hop, he, -⟩ := carrier?_eq_some_iff.1 h
  rw [stands_eq, hop]
  simp [he]

/-! ### Edits -/

/-- Old operations carry what they carried, if their kinds, their results and the types are as before. -/
theorem carrier?_congr (hop : (b'.op? x).map (fun op => (op.kind, op.results, op.erased)) =
    (b.op? x).map fun op => (op.kind, op.results, op.erased))
    (hty : ∀ op v, b.op? x = some op → op.results[0]? = some v → b'.ty? v = b.ty? v) :
    b'.carrier? keep x = b.carrier? keep x := by
  unfold carrier?
  cases hx : b.op? x with
  | none =>
    rw [hx, Option.map_none, Option.map_eq_none_iff] at hop
    rw [hop]
    rfl
  | some op =>
    rw [hx, Option.map_some, Option.map_eq_some_iff] at hop
    obtain ⟨op', hop', heq⟩ := hop
    obtain ⟨hk, hr, he⟩ : op'.kind = op.kind ∧ op'.results = op.results ∧ op'.erased = op.erased := by
      simpa using heq
    rw [hop', Option.bind_some, Option.bind_some, hk, hr, he]
    cases hres : op.results[0]? with
    | none => rfl
    | some v => rw [Option.bind_some, Option.bind_some, hty op v hx hres]

/-- A new operation carries its declaration, changed or not. -/
theorem Created.carrier?_declared {p : Point} {kind : OpKind} {vs : List ValueId} {tys : List Ty}
    (hb : b.Coherent) (h : Created b p kind vs tys x b') (f : Decl → Decl) (x' : OpId) :
    (b'.modifyDecl x f).carrier? keep x' =
      if x' = x then (kind.mapDecl f).carrier? keep x tys[0]? else b.carrier? keep x' := by
  split
  next heq =>
    subst heq
    have hop : (b'.modifyDecl x' f).op? x' = some ⟨kind.mapDecl f, vs,
        (List.range tys.length).map fun j => ⟨b.values.size + j⟩, p.block, false⟩ := by
      rw [op?_modifyDecl, h.op?_self, Option.map_some, if_pos rfl]
    rw [carrier?_of_op? hop rfl]
    congr 1
    dsimp only
    cases tys with
    | nil => rfl
    | cons ty tys =>
      have hfirst := h.ty?_new 0
      rw [Nat.add_zero, List.getElem?_cons_zero] at hfirst
      simp [List.range_succ_eq_map, ty?_modifyDecl, hfirst]
  next hne =>
    refine carrier?_congr ?_ fun op v hop hv => ?_
    · rw [op?_modifyDecl, h.op?, if_neg hne]
      cases b.op? x' <;> simp [hne]
    · obtain ⟨y, hy, -⟩ := origin?_eq_some_iff.1 (hb.result hop hv)
      rw [ty?_modifyDecl, h.ty?_old (lt_of_value? hy)]

/-- A new operation carries its declaration. -/
theorem Created.carrier? {p : Point} {kind : OpKind} {vs : List ValueId} {tys : List Ty}
    (hb : b.Coherent) (h : Created b p kind vs tys x b') (x' : OpId) :
    b'.carrier? keep x' = if x' = x then kind.carrier? keep x tys[0]? else b.carrier? keep x' := by
  have hid : b'.carrier? keep x' = (b'.modifyDecl x fun d => d).carrier? keep x' := by
    refine (carrier?_congr ?_ fun op v _ _ => ty?_modifyDecl ..).symm
    rw [op?_modifyDecl]
    cases b'.op? x' <;> simp [OpKind.mapDecl_id]
  rw [hid, h.carrier?_declared hb, OpKind.mapDecl_id]

theorem Replaced.carrier? {v w : ValueId} (h : Replaced b v w b') (x : OpId) :
    b'.carrier? keep x = b.carrier? keep x :=
  carrier?_congr (by rw [h.op?]; cases b.op? x <;> rfl) fun _ v _ _ => h.outlives.ty? v

/-- Only the operation that loses its operands may stand no more. -/
theorem Dropped.carrier? {f : Bool → Bool} (hf : f true = true) (h : Dropped b x f b')
    (hx : x' = x → f false = true → ∀ op, b.op? x = some op → op.kind.decl? = none) :
    b'.carrier? keep x' = b.carrier? keep x' := by
  by_cases hcase : x' = x ∧ f false = true
  · obtain ⟨rfl, hff⟩ := hcase
    have hnone : ∀ {c : Body}, (∀ op, c.op? x' = some op → op.kind.decl? = none) → c.carrier? keep x' = none := by
      intro c hc
      unfold Body.carrier? OpKind.carrier?
      cases hop : c.op? x' with
      | none => rfl
      | some op => simp [hc op hop]
    rw [hnone (hx rfl hff), hnone fun op hop => ?_]
    rw [h.op?] at hop
    obtain ⟨op₀, hop₀, rfl⟩ := Option.map_eq_some_iff.1 hop
    rw [if_pos rfl]
    exact hx rfl hff op₀ hop₀
  · refine carrier?_congr ?_ fun _ v _ _ => (h.outlives hf).ty? v
    rw [h.op?]
    cases hop : b.op? x' with
    | none => rfl
    | some op =>
      by_cases heq : x' = x
      · have hff : f false = false := by
          cases hff : f false with
          | false => rfl
          | true => exact absurd ⟨heq, hff⟩ hcase
        cases he : op.erased <;> simp [heq, he, hf, hff]
      · simp [heq]

theorem Rearranged.carrier? (h : Rearranged b b') (hb : b.Coherent) (x : OpId) :
    b'.carrier? keep x = b.carrier? keep x := by
  cases hop : b.op? x with
  | none =>
    have hnone : b'.op? x = none := by
      cases hop' : b'.op? x with
      | none => rfl
      | some op' => simpa [hop] using h.old hop'
    simp [Body.carrier?, hop, hnone]
  | some op =>
    obtain ⟨op', hop', hk, hr, -, -, hacc⟩ := h.op? hop
    cases ha : op.kind.isAccessor with
    | false =>
      refine carrier?_congr (by rw [hop, hop', Option.map_some, Option.map_some, hk, hr, hacc ha]) ?_
      intro op₁ v hop₁ hv
      obtain ⟨y, hy, -⟩ := origin?_eq_some_iff.1 (hb.result hop₁ hv)
      have hty : b.ty? v = some y.ty := ty?_eq_some_iff.2 ⟨y, hy, rfl⟩
      rw [hty, h.ty? hty]
    | true =>
      have hd : op.kind.decl? = none := by
        revert ha
        cases op.kind <;> simp [OpKind.isAccessor, OpKind.decl?]
      simp [Body.carrier?, OpKind.carrier?, hop, hop', hk, hd]

@[simp] theorem carrier?_compact (b : Body) (x : OpId) : b.compact.carrier? keep x = b.carrier? keep x := rfl

end Body

/-! ## The carriers of a module -/

/-- Nothing is kept where aggregates are not preserved. -/
theorem Module.keep_eq_false {options : Options} {m : Module} {e : Carrier} (h : options.preserveAggregate = false)
    (he : e ∈ m.carriers options) : e.keep = false := by
  unfold carriers at he
  rcases List.mem_append.1 he with he | he
  · obtain ⟨p, -, rfl⟩ := List.mem_map.1 he
    simp [Port.carrier, Options.portsMayPreserve, h]
  · cases hb : m.body with
    | none => rw [hb] at he; cases he
    | some b =>
      rw [hb] at he
      obtain ⟨x, -, hx⟩ := List.mem_filterMap.1 he
      obtain ⟨op, d, -, -, -, rfl⟩ := carrier?_eq_some_iff.1 hx
      dsimp only
      rw [h]
      cases op.kind <;> rfl

/-- The symbols of a module are those of its carriers. -/
theorem Module.syms_eq {m : Module} (hm : ∀ b, m.body = some b → b.Coherent) (options : Options) :
    m.syms = (m.carriers options).filterMap (·.sym) := by
  unfold syms carriers
  rw [List.filterMap_append, List.filterMap_map]
  congr 1
  cases hb : m.body with
  | none => rfl
  | some b =>
    dsimp only
    rw [List.filterMap_filterMap]
    refine List.filterMap_congr fun x hx => ?_
    have hs := ((hm b hb).mem_walk_iff.1 hx).stands
    cases hop : b.op? x with
    | none => simp [stands_eq, hop] at hs
    | some op =>
      have hk : b.kind? x = some op.kind := congrArg (Option.map fun op : Operation => op.kind) hop
      rw [hk, carrier?_of_op? hop (erased_of_stands hop hs), Option.bind_some]
      unfold OpKind.carrier?
      cases op.kind.decl? <;> rfl

end Scalarize
