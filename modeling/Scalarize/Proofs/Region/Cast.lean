import Scalarize.Proofs.Region.Parts
import Scalarize.Proofs.Step.Cast

/-!
# Casts of aggregates

A cast is lowered to operations on bits, which it reads from the leaves of its operand, and which leave every bit in place.

* `Body.CastStep` : the operations that a cast gives way to; `Body.AddedSteps`, `AddedSteps.grows` : such operations are made;
* `Body.Casting` : what holds between two layers, `Casting.pass` : an operation stays;
* `Body.Relaid`, `Casting.relaid` : an operation gives way to others.
-/

namespace Scalarize

open Body Lower Grows

namespace Body

variable {must done : Prop} {cx : Context} {b₀ b b' : Body} {o y z : OpId} {kind : OpKind} {vs us ws : List ValueId}
  {S T c e t : Ty} {C : List Nat → ValueId → Prop} {R R' : OpId → Nat} {k : BlockId} {L B P D M N : List OpId}
  {op : Operation} {p q : List Nat} {a r u v w x : ValueId} {i m n : Nat} {f : ValueId → ValueId}
  {Q Q' : ValueId → Prop}

/-! ## Operations -/

/-- A selection of bits selects some that the operand has. -/
def InRange (b : Body) : Prim → List ValueId → Prop
  | .bits hi lo, vs => lo ≤ hi ∧ ∃ v t n, vs = [v] ∧ b.ty? v = some t ∧ t.width = some n ∧ hi < n
  | _, _ => True

/-- What a cast gives way to: operations on bits, casts and values of width zero, where the latter two nest at most `n`
deep, and make only those aggregates that `Q` allows. What is done is not replaced, unless it is erased. -/
inductive CastStep (must : Prop) (Q : ValueId → Prop) (b : Body) (n : Nat) (done : Prop) (z : OpId) : Prop
  | accessor {kind : OpKind} {i : Nat} {u w : ValueId} (hk : kind.fixedIndex? = some i) (hz : b.Makes z kind [u] [w])
  | constant {value : Nat} {w : ValueId} {t : Ty} (hz : b.Makes z (.constant value) [] [w]) (hw : b.ty? w = some t)
      (hg : t.isGround)
  | prim {p : Prim} {vs : List ValueId} {w : ValueId} {t : Ty} (hz : b.Makes z (.prim p) vs [w]) (hw : b.ty? w = some t)
      (hg : t.isGround) (hp : b.InRange p vs)
  | cast {v w : ValueId} {s t : Ty} {m : Nat} (hz : b.Makes z .bitcast [v] [w]) (hv : b.ty? v = some s)
      (hw : b.ty? w = some t) (hs : s.width = some m) (ht : t.width = some m) (hm : m < UInt32.size)
      (hids : s.lastId?.isSome) (hidt : t.lastId?.isSome) (hn : must → s.depth + t.depth ≤ n)
      (hQ : t.isGround = false → Q w) (hdone : done → s.isGround ∧ t.isGround)
  | invalid {w : ValueId} {t : Ty} (hz : b.Makes z .invalid [] [w]) (hw : b.ty? w = some t) (ht : t.width = some 0)
      (hid : t.lastId?.isSome) (hn : must → t.depth ≤ n) (hQ : t.isGround = false → Q w) (hdone : done → t.isGround)
  | erased {op : Operation} (hdone : done) (hop : b.op? z = some op) (hk : op.kind = .bitcast ∨ op.kind = .invalid)
      (he : op.erased = true)

/-- An operation makes one thing. -/
theorem Makes.same {kind' : OpKind} {vs' : List ValueId} (hz : b.Makes z kind vs [u]) (hz' : b.Makes z kind' vs' [w]) :
    kind'.bare = kind.bare ∧ vs' = vs ∧ w = u := by
  obtain ⟨op, hop, hbare, hops, hres, -⟩ := hz'
  obtain ⟨op', hop', hbare', hops', hres', -⟩ := hz
  obtain rfl := Option.some.inj (hop.symm.trans hop')
  exact ⟨hbare.symm.trans hbare', hops.symm.trans hops', by simpa [hres] using hres'⟩

namespace CastStep

/-- A step stays one where its operands are exchanged for values of the same types. -/
theorem carried (h : b.CastStep must Q n done z) (hop : ∀ {op}, b.op? z = some op → ∃ op', b'.op? z = some op' ∧
      op'.kind.bare = op.kind.bare ∧ op'.operands = op.operands.map f ∧ op'.results = op.results ∧ op'.erased = op.erased)
    (hty : ∀ {v t}, b.ty? v = some t → b'.ty? v = some t) (hf : ∀ {v t}, b.ty? v = some t → b'.ty? (f v) = some t)
    {n' : Nat} (hn : must → n ≤ n') (hQ : ∀ {w}, Q w → Q' w) : b'.CastStep must Q' n' done z := by
  have hmk : ∀ {kind vs us}, b.Makes z kind vs us → b'.Makes z kind (vs.map f) us := by
    rintro kind vs us ⟨op, hz, hbare, rfl, rfl, he⟩
    obtain ⟨op', hz', hbare', hops, hres, he'⟩ := hop hz
    exact ⟨op', hz', hbare'.trans hbare, hops, hres, he'.trans he⟩
  cases h with
  | accessor hk hz => exact .accessor hk (by simpa using hmk hz)
  | constant hz hw hg => exact .constant (by simpa using hmk hz) (hty hw) hg
  | @prim p vs w t hz hw hg hp =>
    refine .prim (hmk hz) (hty hw) hg ?_
    cases p with
    | bits hi lo =>
      obtain ⟨hle, v, s, n, rfl, hv, hs, hlt⟩ := hp
      exact ⟨hle, f v, s, n, rfl, hf hv, hs, hlt⟩
    | _ => trivial
  | cast hz hv hw hs ht hm hids hidt hle hq hdone =>
    exact .cast (by simpa using hmk hz) (hf hv) (hty hw) hs ht hm hids hidt (fun h => Nat.le_trans (hle h) (hn h))
      (fun h => hQ (hq h)) hdone
  | invalid hz hw ht hid hle hq hdone =>
    exact .invalid (by simpa using hmk hz) (hty hw) ht hid (fun h => Nat.le_trans (hle h) (hn h)) (fun h => hQ (hq h)) hdone
  | erased hdone hz hk he =>
    obtain ⟨op', hz', hbare, -, -, he'⟩ := hop hz
    refine .erased hdone hz' ?_ (he'.trans he)
    rcases hk with hk | hk <;> rw [hk] at hbare
    · exact .inl (OpKind.eq_of_bare_eq hbare.symm rfl).symm
    · exact .inr (OpKind.eq_of_bare_eq hbare.symm rfl).symm

theorem mono (h : b.CastStep must Q n done z) (hb : Extends b b') (hQ : ∀ {w}, Q w → Q' w) :
    b'.CastStep must Q' n done z := by
  refine h.carried (f := id) (fun {op} hop => ?_) hb.ty?_some hb.ty?_some (fun _ => Nat.le_refl n) hQ
  obtain ⟨op', hop', hbare, hops, hres, -, he⟩ := hb.op? hop
  exact ⟨op', hop', hbare, by simpa using hops, hres, he⟩

/-- What is made may be another aggregate, unless it is none. -/
theorem narrow (h : b.CastStep must Q n done z) (hz : b.Makes z kind vs [u]) (hu : Q' u ∨ ∃ p, kind = .prim p) :
    b.CastStep must Q' n done z := by
  have hallowed : ∀ {kind' vs' w}, (∀ p, kind'.bare ≠ .prim p) → b.Makes z kind' vs' [w] → Q' w := by
    intro kind' vs' w hk hz'
    obtain ⟨hbare, -, rfl⟩ := hz.same hz'
    rcases hu with hu | ⟨p, rfl⟩
    · exact hu
    · exact absurd hbare (hk p)
  cases h with
  | accessor hk hz => exact .accessor hk hz
  | constant hz hw hg => exact .constant hz hw hg
  | prim hz hw hg hp => exact .prim hz hw hg hp
  | cast hz hv hw hs ht hm hids hidt hle _ hdone =>
    exact .cast hz hv hw hs ht hm hids hidt hle (fun _ => hallowed (fun _ h => by cases h) hz) hdone
  | invalid hz hw ht hid hle _ hdone => exact .invalid hz hw ht hid hle (fun _ => hallowed (fun _ h => by cases h) hz) hdone
  | erased hdone hop hk he => exact .erased hdone hop hk he

/-- A step that is done makes a ground value, or is an accessor. -/
theorem isGround_or_accessor (h : b.CastStep must Q n True z) (hz : b.Makes z kind vs [u]) (hu : b.ty? u = some t) :
    t.isGround ∨ ∃ i a, kind.fixedIndex? = some i ∧ vs = [a] := by
  cases h with
  | accessor hfix hz' =>
    obtain ⟨hbare, rfl, -⟩ := hz.same hz'
    exact .inr ⟨_, _, OpKind.fixedIndex?_eq_of_bare_eq hbare ▸ hfix, rfl⟩
  | constant hz' hw hg | prim hz' hw hg =>
    obtain ⟨-, -, rfl⟩ := hz.same hz'
    exact .inl (Option.some.inj (hw.symm.trans hu) ▸ hg)
  | cast hz' _ hw _ _ _ _ _ _ _ hdone =>
    obtain ⟨-, -, rfl⟩ := hz.same hz'
    exact .inl (Option.some.inj (hw.symm.trans hu) ▸ (hdone trivial).2)
  | invalid hz' hw _ _ _ _ hdone =>
    obtain ⟨-, -, rfl⟩ := hz.same hz'
    exact .inl (Option.some.inj (hw.symm.trans hu) ▸ hdone trivial)
  | erased _ hop _ he =>
    obtain ⟨op', hop', -, -, -, he'⟩ := hz
    rw [Option.some.inj (hop.symm.trans hop'), he'] at he
    cases he

/-- A cast that is done is one of ground values. -/
theorem ground_of_cast (h : b.CastStep must Q n True z) (hz : b.Makes z .bitcast [v] [w]) :
    ∃ s t, b.ty? v = some s ∧ b.ty? w = some t ∧ s.isGround ∧ t.isGround := by
  cases h with
  | cast hz' hv hw _ _ _ _ _ _ _ hdone =>
    obtain ⟨-, hvs, rfl⟩ := hz.same hz'
    obtain rfl := List.singleton_inj.1 hvs
    exact ⟨_, _, hv, hw, hdone trivial⟩
  | accessor hk hz' =>
    rw [OpKind.fixedIndex?_eq_of_bare_eq (hz.same hz').1] at hk
    cases hk
  | constant hz' | prim hz' | invalid hz' => cases (hz.same hz').1
  | erased _ hop _ he =>
    obtain ⟨op', hop', -, -, -, he'⟩ := hz
    rw [Option.some.inj (hop.symm.trans hop'), he'] at he
    cases he

/-- Nothing is guarded. -/
theorem plain (h : b.CastStep must Q n done z) (hop : b.op? z = some op) : op.kind.blocks = [] := by
  have hmakes : ∀ {kind vs w}, kind.blocks = [] → b.Makes z kind vs [w] → op.kind.blocks = [] := by
    rintro kind vs w hk ⟨op', hop', hbare, -⟩
    rw [Option.some.inj (hop.symm.trans hop'), OpKind.blocks_eq_of_bare_eq hbare, hk]
  cases h with
  | accessor hk hz => exact hmakes (OpKind.blocks_of_isAccessor (OpKind.isAccessor_of_fixedIndex? hk)) hz
  | constant hz | prim hz | cast hz | invalid hz => exact hmakes rfl hz
  | erased _ hop' hk =>
    rw [Option.some.inj (hop.symm.trans hop')]
    rcases hk with hk | hk <;> rw [hk] <;> rfl

/-- What is pending stands, and makes one value. -/
theorem pending (h : b.CastStep must Q n False z) (hop : b.op? z = some op) :
    op.erased = false ∧ ∃ w, b.Makes z op.kind op.operands [w] := by
  have hmakes : ∀ {kind vs w}, b.Makes z kind vs [w] → op.erased = false ∧ ∃ w, b.Makes z op.kind op.operands [w] := by
    rintro kind vs w ⟨op', hop', -, -, hres, he⟩
    obtain rfl := Option.some.inj (hop.symm.trans hop')
    exact ⟨he, w, op, hop, rfl, rfl, hres, he⟩
  cases h with
  | accessor _ hz | constant hz | prim hz | cast hz | invalid hz => exact hmakes hz
  | erased hdone => cases hdone

/-- Bits are selected within their operand. -/
theorem inRange {p : Prim} (h : b.CastStep must Q n done z) (hop : b.op? z = some op) (hk : op.kind = .prim p) :
    b.InRange p op.operands := by
  have hother : ∀ {kind vs w}, kind.bare ≠ .prim p → ¬b.Makes z kind vs [w] := by
    rintro kind vs w hne ⟨op', hop', hbare, -⟩
    rw [Option.some.inj (hop'.symm.trans hop), hk] at hbare
    exact hne hbare.symm
  cases h with
  | prim hz _ _ hp =>
    obtain ⟨op', hop', hbare, rfl, -⟩ := hz
    obtain rfl := Option.some.inj (hop'.symm.trans hop)
    rw [hk] at hbare
    cases hbare
    exact hp
  | @accessor kind i u w hfix hz =>
    refine absurd hz (hother fun he => ?_)
    cases kind <;> cases hfix <;> cases he
  | constant hz | cast hz | invalid hz => exact absurd hz (hother fun he => by cases he)
  | erased _ hop' hk' =>
    rw [Option.some.inj (hop'.symm.trans hop), hk] at hk'
    rcases hk' with hk' | hk' <;> cases hk'

end CastStep

/-! ## What may be made -/

/-- What is made of a kind is a step of a cast, now and later. -/
def Castable (must : Prop) (Q : ValueId → Prop) (n : Nat) (b : Body) (kind : OpKind) (vs : List ValueId) (tys : List Ty) :
    Prop :=
  ∀ {b' z us}, Extends b b' → b'.Makes z kind vs us → b'.Types us tys → b'.CastStep must Q n False z

namespace Castable

theorem part (b : Body) (v : ValueId) (i : Nat) : MakesPart (Castable must Q n) b v i :=
  fun t c kind _ hr {b' z us} _ hz hus => by
    obtain ⟨w, hw, rfl⟩ := hus.singleton
    exact .accessor hr.fixedIndex? hz

theorem prim {p : Prim} (hg : t.isGround) (hp : ∀ {b'}, Extends b b' → b'.InRange p vs) :
    Castable must Q n b (.prim p) vs [t] := fun {b' z us} hb hz hus => by
  obtain ⟨w, hw, rfl⟩ := hus.singleton
  exact .prim hz hw hg (hp hb)

theorem cast (hv : b.ty? v = some S) (hS : S.width = some m) (ht : t.width = some m) (hm : m < UInt32.size)
    (hidS : S.lastId?.isSome) (hidt : t.lastId?.isSome) (hn : must → S.depth + t.depth ≤ n)
    (hQ : t.isGround = false → ∀ w, Q w) : Castable must Q n b .bitcast [v] [t] := fun {b' z us} hb hz hus => by
  obtain ⟨w, hw, rfl⟩ := hus.singleton
  exact .cast hz (hb.ty?_some hv) hw hS ht hm hidS hidt hn (fun h => hQ h w) False.elim

theorem invalid (ht : t.width = some 0) (hid : t.lastId?.isSome) (hn : must → t.depth ≤ n)
    (hQ : t.isGround = false → ∀ w, Q w) : Castable must Q n b .invalid [] [t] := fun {b' z us} hb hz hus => by
  obtain ⟨w, hw, rfl⟩ := hus.singleton
  exact .invalid hz hw ht hid hn (fun h => hQ h w) False.elim

/-- What the parts of a value are strung together with. -/
theorem strings (hid : S.lastId?.isSome) (hn : must → S.depth ≤ n + 1) : Strings (Castable must Q n) S where
  prim {b p vs ins t} _ _ ht hp := prim ht fun _ => by
    cases p with
    | bits hi lo => exact absurd rfl (hp hi lo)
    | _ => trivial
  constant {b w i b' z us} _ hz hus := by
    obtain ⟨u, hu, rfl⟩ := hus.singleton
    exact .constant hz hu rfl
  cast {b v c i w} hc hv hw hlt := by
    refine cast hv hw rfl hlt (Ty.isSome_lastId?_child hid hc) rfl (fun hm => ?_) nofun
    have hdepth := Ty.depth_lt_of_child? hc
    have hle := hn hm
    rw [Ty.depth_of_isGround (t := .uint w) rfl]
    omega

end Castable

/-- What was made in front of `z`, since `s₀`, are steps of a cast. -/
structure AddedSteps (must : Prop) (Q : ValueId → Prop) (n : Nat) (V : ValueId → Prop) (b : Body) (z : OpId) (k : BlockId)
    (L B M : List OpId) (s₀ : Body) (N : List OpId) (s : Builder) : Prop where
  added : Added V b z k L B M s₀ N s
  steps : ∀ y ∈ N, s.body.CastStep must Q n False y

namespace AddedSteps

variable {V : ValueId → Prop} {s s₀ : Builder}

theorem start (h : b.Prefixed z k L B M s) : AddedSteps must Q n V b z k L B M s.body [] s := ⟨.start h, by simp⟩

theorem grows (must : Prop) (Q : ValueId → Prop) (n : Nat) (V : ValueId → Prop) (b : Body) (z : OpId) (k : BlockId)
    (L B M : List OpId) (s₀ : Body) : Grows V (Castable must Q n) (fun _ _ => True) (AddedSteps must Q n V b z k L B M s₀) where
  coherent h := h.added.placed.coherent
  place h := (Added.grows V b z k L B M s₀).place h.added
  make {N s kind vs ins tys y b'} h hk hc hv hins hsh hM := by
    refine ⟨(Added.grows V b z k L B M s₀).make h.added hk hc hv hins hsh trivial, fun d hd => ?_⟩
    rcases List.mem_append.1 hd with hd | hd
    · exact (h.steps d hd).mono hc.extended id
    · rw [List.mem_singleton.1 hd]
      exact hM hc.extended ⟨_, hc.op?_self, rfl, rfl, rfl, rfl⟩ hc.types_results
  declare {N s y f} h hy hA :=
    ⟨(Added.grows V b z k L B M s₀).declare h.added hy fun _ _ _ _ => trivial, fun d hd =>
      (h.steps d hd).mono (.modifyDecl _ _ _) id⟩

end AddedSteps

/-! ## Between two layers -/

/-- Operations `P` are pending and `D` are done of a cast of `x`, of `m` bits, to `v` of type `T`. Where the chart has what an
operation of them makes, this holds the bits of its node, as soon as `x` holds all bits; and it has something in front of
every leaf. Below the root, only ground values are cast. -/
structure Casting (must : Prop) (T : Ty) (v x : ValueId) (m : Nat) (C : List Nat → ValueId → Prop) (b₀ b : Body)
    (R : OpId → Nat) (P D : List OpId) : Prop where
  chart : Charted must b₀ v T C b P D
  pending : ∀ z ∈ P, b.CastStep must (fun w => ∃ p, C p w) (R z) False z
  done : ∀ z ∈ D, b.CastStep must (fun w => ∃ p, C p w) (R z) True z
  known : (b.ty? x).isSome
  free : ∀ {z kind vs}, z ∈ P ++ D → ¬b.Makes z kind vs [x]
  holds : ∀ {p u c n bits}, C p u → ProducedIn T (P ++ D) b u → T.sub? p = some c → c.width = some n → n ≠ 0 →
    bits.length = m → b.Evaluates (Holding x bits) (· ∈ P ++ D) u (cut bits (T.offset p) n)
  covers : ∀ l ∈ T.leaves, ∃ p u, p <+: l.path ∧ C p u ∧ ∃ z ∈ P ++ D, ∃ kind vs,
    (T.isGround = false → kind.fixedIndex? = none) ∧ b.Makes z kind vs [u] ∧ (z ∈ D → p = l.path)
  unpacked : ∀ {p u z a}, C p u → p ≠ [] → z ∈ P → b.Makes z .bitcast [a] [u] → ∃ t, b.ty? a = some t ∧ t.isGround
  source : ∀ {z op}, z ∈ P ++ D → (b₀.op? z).isSome → b.op? z = some op → op.erased = false → op.operands = [x]

/-- The same, whatever stands for the nodes. -/
def Recast (must : Prop) (T : Ty) (v x : ValueId) (m : Nat) (b₀ b : Body) (R : OpId → Nat) (P D : List OpId) : Prop :=
  ∃ C, Casting must T v x m C b₀ b R P D

theorem Charted.sub? (h : Charted must b₀ v T C b P D) (hu : C p u) (hc : b.ty? u = some c) : T.sub? p = some c := by
  obtain ⟨c', hc', hty⟩ := h.typed hu
  rwa [Option.some.inj (hc.symm.trans hty)]

namespace Casting

/-- What is cast is none of what the region makes. -/
theorem ne_of_makes (h : Casting must T v x m C b₀ b R P D) (hz : z ∈ P ++ D) (hmk : b.Makes z kind vs [u]) : x ≠ u := by
  rintro rfl
  exact h.free hz hmk

/-- The operand of a cast that is in the chart holds the same bits. -/
theorem operand_holds (h : Casting must T v x m C b₀ b R P D) (hb : b.Coherent) (hz : z ∈ P ++ D)
    (hmk : b.Makes z .bitcast [a] [u]) (hu : C p u) (hc : T.sub? p = some c) (hw : c.width = some n) (hn : n ≠ 0)
    {bits : List Bool} (hlen : bits.length = m) :
    ∃ S, b.ty? a = some S ∧ S.width = some (cut bits (T.offset p) n).length ∧
      b.Evaluates (Holding x bits) (· ∈ P ++ D) a (cut bits (T.offset p) n) :=
  (h.holds hu ⟨z, hz, _, _, fun _ => rfl, hmk⟩ hc hw hn hlen).of_cast hb hmk fun _ hg => h.ne_of_makes hz hmk hg.1.symm

/-- A ground node that leads to a leaf is the leaf. -/
theorem path_eq {l : Leaf} (hl : l ∈ T.leaves) (hp : p <+: l.path) (hc : T.sub? p = some c) (hg : c.isGround) :
    p = l.path := by
  obtain ⟨q, hq⟩ := hp
  have hsub := (Ty.mem_leaves.1 hl).1
  rw [← hq, Ty.sub?_append, hc, Option.bind_some] at hsub
  cases q with
  | nil => simpa using hq
  | cons i q =>
    cases c with
    | ground g => cases hsub
    | _ => cases hg

/-- Where a step may be done, it is passed. -/
theorem pass (h : Casting must T v x m C b₀ b R (P ++ [z]) D) (hb : b.Coherent) 
    (hz : b.CastStep must (fun w => ∃ p, C p w) (R z) True z) :
    Casting must T v x m C b₀ b R P (z :: D) := by
  have hmem : ∀ y, y ∈ P ++ z :: D ↔ y ∈ P ++ [z] ++ D := fun y => by simp
  have hin : ∀ {u}, ProducedIn T (P ++ z :: D) b u → ProducedIn T (P ++ [z] ++ D) b u := fun ⟨y, hy, hmk⟩ =>
    ⟨y, (hmem y).1 hy, hmk⟩
  refine ⟨h.chart.perm hmem fun y hy hyD {p u c i y'} hu hc hg ho => ?_, fun y hy => h.pending y (by simp [hy]),
    List.forall_mem_cons.2 ⟨hz, h.done⟩, h.known, fun hy => h.free ((hmem _).1 hy),
    fun hu hp hc hw hn hbits => (h.holds hu (hin hp) hc hw hn hbits).mono (.refl b) fun y => (hmem y).2, fun l hl => ?_,
    fun hu hp hy => h.unpacked hu hp (by simp [hy]), fun hy => h.source ((hmem _).1 hy)⟩
  · -- what makes an aggregate and is done is an accessor, whose value is not read
    obtain rfl : y = z := (List.mem_cons.1 hy).resolve_right hyD
    obtain ⟨op, hop, -⟩ := hb.origin ho
    obtain ⟨-, w, hw⟩ := (h.pending y (by simp)).pending hop
    obtain rfl := hw.eq_of_origin? hb ho
    obtain ⟨c', hc', hty⟩ := h.chart.typed hu
    obtain rfl := Option.some.inj (hc.symm.trans hc')
    rcases hz.isGround_or_accessor hw hty with hground | ⟨j, a, hfix, ha⟩
    · rw [hground] at hg
      cases hg
    · exact h.chart.not_reads_accessor hb (by simp) hfix (ha ▸ hw) hu hc hg
  · obtain ⟨p, u, hpre, hu, y, hy, kind, vs, hk, hmk, hdone⟩ := h.covers l hl
    refine ⟨p, u, hpre, hu, y, (hmem y).2 hy, kind, vs, hk, hmk, fun hyD => ?_⟩
    rcases List.mem_cons.1 hyD with rfl | hyD
    · obtain ⟨c, hc, hty⟩ := h.chart.typed hu
      refine path_eq hl hpre hc ?_
      rcases hz.isGround_or_accessor hmk hty with hground | ⟨i, a, hfix, -⟩
      · exact hground
      · by_contra hg
        rw [hk (Ty.isGround_of_sub? hc (by simpa using hg))] at hfix
        cases hfix
    · exact hdone hyD

end Casting

/-! ## What one layer leaves -/

/-- The operation that is replaced is none of the others. -/
theorem Region.ne_of_mem (h : b₀.Region o b (P ++ [z]) D) (hN : ∀ y ∈ N, b.op? y = none) (hy : y ∈ P ++ D ++ N) :
    y ≠ z := by
  rintro rfl
  rcases List.mem_append.1 hy with hy | hy
  · have hnd := h.tidy.nodup
    rw [List.append_assoc, List.singleton_append, List.nodup_middle, List.nodup_cons] at hnd
    exact hnd.1 hy
  · have := h.tidy.known y (by simp)
    rw [hN y hy] at this
    cases this

/-- In front of `z`, which made `u`, of a region with `P` pending and `D` done in `b`, the operations `N` were made up to `s`.
In `b'`, `z` is erased and all others read `f v` for `v`. -/
structure Relaid (b₀ : Body) (o : OpId) (b : Body) (z : OpId) (op : Operation) (u : ValueId) (k : BlockId)
    (L B P D N : List OpId) (s : Builder) (f : ValueId → ValueId) (b' : Body) : Prop where
  region : b₀.Region o b (P ++ [z]) D
  placed : b.Prefixed z k L B N s
  ext : Extends b s.body
  op? : b.op? z = some op
  stands : op.erased = false
  results : op.results = [u]
  ops : ∀ {y op'}, y ∈ P ++ D ++ N → s.body.op? y = some op' →
    b'.op? y = some { op' with operands := op'.operands.map f }
  types : ∀ {w t}, s.body.ty? w = some t → b'.ty? w = some t ∧ s.body.ty? (f w) = some t
  erased : b'.op? z = some { op with operands := [], erased := true }

namespace Relaid

variable {s : Builder}

theorem known (h : b₀.Relaid o b z op u k L B P D N s f b') (hy : y ∈ P ++ [z] ++ D) : (b.op? y).isSome :=
  h.region.tidy.known _ hy

theorem not_new (h : b₀.Relaid o b z op u k L B P D N s f b') (hy : y ∈ P ++ [z] ++ D) : y ∉ N := fun hyN => by
  have := h.known hy
  rw [h.placed.fresh y hyN] at this
  cases this

theorem ne (h : b₀.Relaid o b z op u k L B P D N s f b') (hy : y ∈ P ++ D ++ N) : y ≠ z :=
  h.region.ne_of_mem h.placed.fresh hy

theorem op?_old (h : b₀.Relaid o b z op u k L B P D N s f b') {op' : Operation} (hy : b.op? y = some op') :
    s.body.op? y = some op' :=
  h.placed.op?_old h.ext hy

/-- What `z` made is `u`. -/
theorem makes (h : b₀.Relaid o b z op u k L B P D N s f b') : s.body.Makes z op.kind op.operands [u] :=
  ⟨op, h.op?_old h.op?, rfl, rfl, h.results, h.stands⟩

theorem mem_of_ne (hy : y ∈ P ++ N ++ z :: D) (hne : y ≠ z) : y ∈ P ++ D ++ N := by
  simp only [List.mem_append, List.mem_cons] at hy ⊢
  tauto

/-- All other operations make what they made. -/
theorem makes_iff (h : b₀.Relaid o b z op u k L B P D N s f b') (hy : y ∈ P ++ D ++ N) {op' : Operation}
    (hop : s.body.op? y = some op') :
    b'.Makes y kind vs us ↔ vs = op'.operands.map f ∧ s.body.Makes y kind op'.operands us := by
  constructor
  · rintro ⟨op'', hop'', hbare, rfl, rfl, he⟩
    obtain rfl := Option.some.inj ((h.ops hy hop).symm.trans hop'')
    exact ⟨rfl, op', hop, hbare, rfl, rfl, he⟩
  · rintro ⟨rfl, op'', hop'', hbare, -, rfl, he⟩
    obtain rfl := Option.some.inj (hop.symm.trans hop'')
    exact ⟨_, h.ops hy hop, hbare, rfl, rfl, he⟩

theorem makes_of (h : b₀.Relaid o b z op u k L B P D N s f b') (hy : y ∈ P ++ D ++ N) (hmk : s.body.Makes y kind vs us) :
    b'.Makes y kind (vs.map f) us := by
  obtain ⟨op', hop, hbare, rfl, hrest⟩ := hmk
  exact (h.makes_iff hy hop).2 ⟨rfl, op', hop, hbare, rfl, hrest⟩

theorem of_makes (h : b₀.Relaid o b z op u k L B P D N s f b') (hy : y ∈ P ++ N ++ z :: D) (hmk : b'.Makes y kind vs us) :
    y ∈ P ++ D ++ N ∧ ∃ vs', vs = vs'.map f ∧ s.body.Makes y kind vs' us := by
  have hne : y ≠ z := by
    rintro rfl
    obtain ⟨op', hop', -, -, -, he⟩ := hmk
    obtain rfl := Option.some.inj (h.erased.symm.trans hop')
    cases he
  have hy' := mem_of_ne hy hne
  refine ⟨hy', ?_⟩
  have hsome : (s.body.op? y).isSome := by
    rcases List.mem_append.1 hy' with hy | hy
    · obtain ⟨op', hop'⟩ := Option.isSome_iff_exists.1
        (h.known (y := y) (by simp only [List.mem_append] at hy ⊢; tauto))
      rw [h.op?_old hop']
      rfl
    · exact h.placed.known y hy
  obtain ⟨op', hop'⟩ := Option.isSome_iff_exists.1 hsome
  exact ⟨_, (h.makes_iff hy' hop').1 hmk⟩

/-- What makes a former value was there. -/
theorem makes_old (h : b₀.Relaid o b z op u k L B P D N s f b') (hy : y ∈ P ++ D ++ N) (hmk : s.body.Makes y kind vs [w])
    (hlt : w.index < b.values.size) : y ∈ P ++ D ∧ b.Makes y kind vs [w] := by
  have ho := hmk.origin? h.placed.coherent (i := 0) rfl
  rw [h.ext.origin? hlt] at ho
  obtain ⟨op₀, hop₀, -⟩ := h.region.coherent.origin ho
  obtain ⟨op', hop', hrest⟩ := hmk
  obtain rfl := Option.some.inj ((h.op?_old hop₀).symm.trans hop')
  refine ⟨(List.mem_append.1 hy).resolve_right fun hyN => ?_, _, hop₀, hrest⟩
  rw [h.placed.fresh y hyN] at hop₀
  cases hop₀

/-- What was there makes former values. -/
theorem lt_of_makes (h : b₀.Relaid o b z op u k L B P D N s f b') (hy : y ∈ P ++ [z] ++ D)
    (hmk : s.body.Makes y kind vs [w]) : w.index < b.values.size := by
  obtain ⟨op₀, hop₀⟩ := Option.isSome_iff_exists.1 (h.known hy)
  obtain ⟨op', hop', -, -, hres, -⟩ := hmk
  obtain rfl := Option.some.inj ((h.op?_old hop₀).symm.trans hop')
  exact isSome_value?.1 (isSome_of_origin? (h.region.coherent.result hop₀ (i := 0) (by rw [hres]; rfl)))

theorem step (h : b₀.Relaid o b z op u k L B P D N s f b') (hy : y ∈ P ++ D ++ N) (hstep : s.body.CastStep must Q m done y)
    (hle : m ≤ n) : b'.CastStep must Q n done y :=
  hstep.carried (fun hop' => ⟨_, h.ops hy hop', rfl, rfl, rfl, rfl⟩) (fun hw => (h.types hw).1)
    (fun hw => (h.types (h.types hw).2).1) (fun _ => hle) id

end Relaid

namespace Casting

variable {s : Builder} {C' : List Nat → ValueId → Prop}

/-- A cast, or a value of width zero, gives way to steps of casts. What is charted anew holds what it should, and stands in
front of the leaves in front of which the former result stood. -/
theorem relaid (h : Casting must T v x m C b₀ b R (P ++ [z]) D) (hl : b₀.Relaid o b z op u k L B P D N s f b')
    (hk : op.kind = .bitcast ∨ op.kind = .invalid) (hch : Charted must b₀ v T C' b' (P ++ N) (z :: D))
    (hsteps : ∀ y ∈ N, s.body.CastStep must (fun w => ∃ p, C' p w) n False y) (hR : ∀ y, (b.op? y).isSome → R' y = R y)
    (hnew : ∀ y, b.op? y = none → n ≤ R' y) (hold : ∀ {p u}, C p u → C' p u)
    (hlt : ∀ {p w}, C' p w → ¬C p w → b.values.size ≤ w.index)
    (hf : ∀ {w l bits}, w ≠ u → s.body.Evaluates (Holding x bits) (· ∈ P ++ [z] ++ D ++ N) w l →
      b'.Evaluates (Holding x bits) (· ∈ P ++ N ++ z :: D) w l)
    (hholds : ∀ {p w c n bits}, C' p w → ¬C p w → T.sub? p = some c → c.width = some n → n ≠ 0 → bits.length = m →
      s.body.Evaluates (Holding x bits) (· ∈ P ++ [z] ++ D ++ N) w (cut bits (T.offset p) n))
    (hcovers : ∀ {p}, C p u → ∀ l ∈ T.leaves, p <+: l.path → ∃ q w, q <+: l.path ∧ C' q w ∧ ∃ y ∈ N, ∃ kind vs,
      (T.isGround = false → kind.fixedIndex? = none) ∧ s.body.Makes y kind vs [w])
    (hunpacked : ∀ {p w y a}, C' p w → ¬C p w → p ≠ [] → y ∈ N → s.body.Makes y .bitcast [a] [w] →
      ∃ t, s.body.ty? a = some t ∧ t.isGround) (hfx : f x = x) : Casting must T v x m C' b₀ b' R' (P ++ N) (z :: D) where
  chart := hch
  pending y hy := by
    rcases List.mem_append.1 hy with hy | hy
    · have hsome := hl.known (y := y) (by simp [hy])
      have hstep := (h.pending y (by simp [hy])).mono hl.ext (Exists.imp fun _ => hold)
      exact hl.step (by simp [hy]) hstep (Nat.le_of_eq (hR y hsome).symm)
    · exact hl.step (by simp [hy]) (hsteps y hy) (hnew y (hl.placed.fresh y hy))
  done y hy := by
    rcases List.mem_cons.1 hy with rfl | hy
    · exact .erased trivial hl.erased hk rfl
    · have hsome := hl.known (y := y) (by simp [hy])
      exact hl.step (by simp [hy]) ((h.done y hy).mono hl.ext (Exists.imp fun _ => hold)) (Nat.le_of_eq (hR y hsome).symm)
  known := by
    obtain ⟨t, ht⟩ := Option.isSome_iff_exists.1 h.known
    rw [(hl.types (hl.ext.ty?_some ht)).1]
    rfl
  free {y kind vs} hy hmk := by
    obtain ⟨hy', vs', -, hmk'⟩ := hl.of_makes hy hmk
    obtain ⟨hy'', hmk''⟩ := hl.makes_old hy' hmk' (isSome_ty?.1 h.known)
    exact h.free (by simp only [List.mem_append] at hy'' ⊢; tauto) hmk''
  holds {p w c n bits} hw hp hc hn hne hlen := by
    by_cases hwC : C p w
    · obtain ⟨y, hy, kind, vs, hfix, hmk⟩ := hp
      obtain ⟨hy', vs', -, hmk'⟩ := hl.of_makes hy hmk
      obtain ⟨hy'', hmk''⟩ := hl.makes_old hy' hmk' (h.chart.isSome hwC)
      have hyP : y ∈ P ++ [z] ++ D := by
        simp only [List.mem_append] at hy'' ⊢
        tauto
      refine hf ?_ ((h.holds hwC ⟨y, hyP, kind, vs', hfix, hmk''⟩ hc hn hne hlen).mono hl.ext fun y hy =>
        List.mem_append_left N hy)
      rintro rfl
      exact hl.ne hy' (hmk'.unique hl.makes hl.placed.coherent).1
    · refine hf ?_ (hholds hw hwC hc hn hne hlen)
      rintro rfl
      exact absurd (hlt hw hwC) (Nat.not_le.2 (hl.lt_of_makes (by simp) hl.makes))
  covers l hleaf := by
    obtain ⟨p, w, hpre, hw, y, hy, kind, vs, hfix, hmk, hdone⟩ := h.covers l hleaf
    by_cases hyz : y = z
    · subst hyz
      obtain rfl : w = u := (hl.makes.eq_of_origin? hl.placed.coherent
        ((hmk.mono hl.ext).origin? hl.placed.coherent (i := 0) rfl))
      obtain ⟨q, w', hq, hw', y', hy', kind', vs', hfix', hmk'⟩ := hcovers hw l hleaf hpre
      have hmem : y' ∈ P ++ D ++ N := by simp [hy']
      refine ⟨q, w', hq, hw', y', by simp [hy'], kind', _, hfix', hl.makes_of hmem hmk', fun hyD => ?_⟩
      rcases List.mem_cons.1 hyD with rfl | hyD
      · exact absurd rfl (hl.ne hmem)
      · exact absurd hy' (hl.not_new (by simp [hyD]))
    · have hmem : y ∈ P ++ D ++ N := by
        simp only [List.mem_append, List.mem_singleton] at hy ⊢
        tauto
      refine ⟨p, w, hpre, hold hw, y, ?_, kind, _, hfix, hl.makes_of hmem (hmk.mono hl.ext), fun hyD => ?_⟩
      · simp only [List.mem_append, List.mem_cons] at hmem ⊢
        tauto
      · exact hdone ((List.mem_cons.1 hyD).resolve_left hyz)
  unpacked {p w y a} hw hp hy hmk := by
    obtain ⟨hy', vs, hvs, hmk'⟩ := hl.of_makes (by simp only [List.mem_append, List.mem_cons] at hy ⊢; tauto) hmk
    obtain ⟨a', rfl, rfl⟩ : ∃ a', vs = [a'] ∧ f a' = a := by simpa [eq_comm] using hvs
    have hground : ∃ t, s.body.ty? a' = some t ∧ t.isGround := by
      by_cases hwC : C p w
      · obtain ⟨hy'', hmk''⟩ := hl.makes_old hy' hmk' (h.chart.isSome hwC)
        have hyP : y ∈ P ++ [z] := by
          refine List.mem_append_left _ ((List.mem_append.1 hy).resolve_right fun hyN => ?_)
          exact hl.not_new (by simp only [List.mem_append] at hy'' ⊢; tauto) hyN
        obtain ⟨t, ht, hg⟩ := h.unpacked hwC hp hyP hmk''
        exact ⟨t, hl.ext.ty?_some ht, hg⟩
      · refine hunpacked hw hwC hp ((List.mem_append.1 hy).resolve_left fun hyP => ?_) hmk'
        exact absurd (hlt hw hwC) (Nat.not_le.2 (hl.lt_of_makes (by simp [hyP]) hmk'))
    obtain ⟨t, ht, hg⟩ := hground
    exact ⟨t, (hl.types (hl.types ht).2).1, hg⟩
  source {y op'} hy hy₀ hop' he := by
    have hne : y ≠ z := by
      rintro rfl
      rw [Option.some.inj (hop'.symm.trans hl.erased)] at he
      cases he
    have hmem := Relaid.mem_of_ne hy hne
    obtain ⟨op₀, hop₀⟩ := Option.isSome_iff_exists.1 hy₀
    obtain ⟨op₁, hop₁, -⟩ := hl.region.edited.op? hop₀
    have hyb : y ∈ P ++ [z] ++ D := by
      rcases List.mem_append.1 hmem with hmem | hmem
      · simp only [List.mem_append] at hmem ⊢
        tauto
      · rw [hl.placed.fresh y hmem] at hop₁
        cases hop₁
    obtain rfl := Option.some.inj (hop'.symm.trans (hl.ops hmem (hl.op?_old hop₁)))
    change op₁.operands.map f = [x]
    rw [h.source hyb hy₀ hop₁ he, List.map_singleton, hfx]

end Casting

end Body

end Scalarize
