import Scalarize.Proofs.Distribution.Pieces

/-!
# Pieces in front of the operation that gives way

While an operation is lowered by one layer, operations that stand for shares are made in front of it.

* `Ty.passive_child`, `Memory.passive_of_portField`, `Memory.nodeTy?_field`, `Memory.exists_linkTy?` : the fields of
  ports, none of which changes the direction inside;
* `Body.Dealt` : what was made so far, and for which shares it stands; `Dealt.made`, `Dealt.rooted`, `Dealt.replaced`,
  `Dealt.rewired` : what is done next;
* `Dealt.finished` : the operation itself is erased in the end;
* `Body.SharesOut`, `Piece.wire_runs`, `Piece.link_runs` : wires and connections give way to those of the parts.
-/

namespace Scalarize

open Body Lower

/-! ## Fields of ports -/

namespace Ty

variable {t c : Ty} {i : Nat} {ps : List Part} {p : Part}

theorem passive_child (h : t.passive) (hc : t.child? i = some c) : c.passive := by
  cases t with
  | ground g => cases hc
  | bundle fs =>
    obtain ⟨f, hf, rfl⟩ := Option.map_eq_some_iff.1 hc
    have hall : ∀ f ∈ fs, f.flip = false ∧ f.ty.passive := by simpa [passive] using h
    exact (hall f (List.mem_of_getElem? hf)).2
  | vector e n =>
    simp only [child?] at hc
    split at hc
    next => exact Option.some.inj hc ▸ h
    next => cases hc

theorem passive_mask (t : Ty) : t.mask.passive := by
  induction t with
  | ground g => rfl
  | bundle fs ih => simpa [mask, passive] using ih
  | vector e n ih => exact ih

/-- The leaves of an aggregate lie below its parts. -/
theorem PartsOf.map_path_leaves {α : Type} (h : PartsOf t ps) (g : List Nat → α) :
    (t.leaves.map fun l => g l.path) = ps.flatMap fun p => p.ty.leaves.map fun l => g (p.index :: l.path) := by
  rw [h.leaves_eq, List.map_flatMap]
  refine List.flatMap_congr fun p _ => ?_
  rw [List.map_map]
  rfl

/-- No part is turned round. -/
theorem PartsOf.flip_eq_false (h : PartsOf t ps) (ht : t.passive) (hp : p ∈ ps) : p.flip = false := by
  have hi := h.getElem?_index hp
  cases t with
  | ground g => cases h.aggregate
  | bundle fs =>
    have hall : ∀ f ∈ fs, f.flip = false ∧ f.ty.passive := by simpa [passive] using ht
    obtain ⟨f, hf, he⟩ := Option.map_eq_some_iff.1 (h.flip hi rfl)
    rw [← he, (hall f (List.mem_of_getElem? hf)).1]
  | vector e n => exact h.noFlip hi rfl

end Ty

namespace Memory

variable {m m' : Memory} {depth pos j i : Nat} {data c : Ty} {kind : PortKind} {f : Field} {ℓ : List Nat} {port : MemPort}

theorem passive_of_portField (h : data.passive) (hf : (portFields depth data kind)[pos]? = some f) : f.ty.passive := by
  have hmem := List.mem_of_getElem? hf
  have hmask := Ty.passive_mask data
  cases kind with
  | read =>
    obtain rfl | rfl | rfl | rfl : f = _ ∨ f = _ ∨ f = _ ∨ f = _ := by simpa [portFields] using hmem
    all_goals first | rfl | exact h
  | write =>
    obtain rfl | rfl | rfl | rfl | rfl : f = _ ∨ f = _ ∨ f = _ ∨ f = _ ∨ f = _ := by simpa [portFields] using hmem
    all_goals first | rfl | exact h | exact hmask
  | readWrite =>
    obtain rfl | rfl | rfl | rfl | rfl | rfl | rfl : f = _ ∨ f = _ ∨ f = _ ∨ f = _ ∨ f = _ ∨ f = _ ∨ f = _ := by
      simpa [portFields] using hmem
    all_goals first | rfl | exact h | exact hmask

/-- The field of a port is the node at its position. -/
theorem nodeTy?_field (hc : m.dataType.sub? ℓ = some c) (hp : m.ports[i]? = some port)
    (hf : (portFields m.depth c port.kind)[pos]? = some f) : m.nodeTy? ⟨ℓ, i⟩ [pos] = some f.ty := by
  simp [nodeTy?, hc, hp, portType, Ty.sub?, Ty.child?, hf]

/-- A field of a port has the type in which it meets the memory of a part there. -/
theorem exists_linkTy? (hf : (portFields depth data kind)[pos]? = some f) (hj : data.child? j = some c) :
    ∃ t, linkTy? f j = some t ∧ (portFields depth c kind)[pos]? = some { f with ty := t } := by
  have hcases := portField_cases hf
  unfold linkTy?
  split
  next hfollows =>
    rw [if_pos hfollows] at hcases
    obtain ⟨g, hgc, -, hgty, hgf⟩ := hcases
    exact ⟨g c, by rw [hgty, hgc, hj]; rfl, hgf c⟩
  next hfollows =>
    rw [if_neg hfollows] at hcases
    exact ⟨f.ty, rfl, by cases f; exact hcases.2 c⟩

end Memory

/-! ## What is made in front -/

namespace Body

/-- Handing readers over makes nothing and erases no guard. -/
theorem Grown.rearranged {b₀ b b' : Body} {N : List OpId} (h : b₀.Grown N b) (hr : Rearranged b b') : b₀.Grown N b' where
  edited := h.edited.trans hr.edited
  nodup := h.nodup
  sorted := h.sorted
  recent {x} hx hx' := by
    obtain ⟨op', hop'⟩ := Option.isSome_iff_exists.1 hx'
    exact h.recent hx (hr.old hop')
  guards {x op'} hop' he hk := by
    obtain ⟨op, hop⟩ := Option.isSome_iff_exists.1 (hr.old hop')
    obtain ⟨op₁, hop₁, hkind, -, -, -, hsame⟩ := hr.op? hop
    obtain rfl := Option.some.inj (hop'.symm.trans hop₁)
    have hacc : op.kind.isAccessor = false := by
      cases hacc : op.kind.isAccessor with
      | false => rfl
      | true => exact absurd (hkind ▸ OpKind.blocks_of_isAccessor hacc) hk
    exact h.guards hop (hsame hacc ▸ he) (hkind ▸ hk)

theorem Prefixed.rearranged {b₀ b' : Body} {o : OpId} {k : BlockId} {A B N : List OpId} {s : Builder}
    (h : b₀.Prefixed o k A B N s) (hr : Rearranged s.body b') (hout : Outlives s.body b') :
    b₀.Prefixed o k A B N ⟨b', s.point⟩ := by
  obtain ⟨⟨H, hH⟩, hg⟩ := h
  exact ⟨⟨H, hH.outlives hout⟩, hg.rearranged hr⟩

/-- Operations `N` were made in front of `x` since `b`, where values stood for nodes as `R` says, and stand for the shares
`ss`. Now values stand for nodes as `R'` says; operations in `P` or `N` make them, and those in `E` are erased. -/
structure Dealt (m : Memory) (R : ValueId → Face → List Nat → Prop) (b : Body) (x : OpId) (k : BlockId) (A B : List OpId)
    (P E : OpId → Prop) (R' : ValueId → Face → List Nat → Prop) (N : List OpId) (ss : List Memory.Share) (s : Builder) :
    Prop where
  before : b.Coherent
  placed : b.Prefixed x k A B N s
  carries : Maintains R b R' s.body E
  roots : Roots m s.body R' fun y => P y ∨ y ∈ N
  pieces : StandFor (Piece m R' s.body False) N ss
  erased : ∀ {y op}, E y → s.body.op? y = some op → op.erased

variable {m : Memory} {R R' Q : ValueId → Face → List Nat → Prop} {b b' : Body} {s s' : Builder} {x o : OpId} {k : BlockId}
  {A B N M : List OpId} {P E : OpId → Prop} {V : ValueId → Prop} {ss ss' : List Memory.Share} {u v w : ValueId} {f : Face}
  {p : List Nat} {c t : Ty} {d : Decl}

theorem Piece.of_accessor {done : Prop} {kind : OpKind} {vs rs : List ValueId} {i : Nat} (hk : kind.fixedIndex? = some i)
    (hx : b.Makes x kind vs rs) : Piece m R b done x [] := by
  obtain ⟨op, hop, hbare, -⟩ := hx
  have hfix := (OpKind.fixedIndex?_eq_of_bare_eq hbare).trans hk
  exact .none hop (OpKind.blocks_of_isAccessor (OpKind.isAccessor_of_fixedIndex? hfix)) (.inr (by rw [hfix]; rfl))

namespace Dealt

theorem start (hb : s.body.Coherent) (hs : s.body.slotsOf k = A ++ x :: B) (hp : s.point = ⟨k, A.length⟩)
    (hR : Roots m s.body R P) : Dealt m R s.body x k A B P (fun _ => False) R [] [] s where
  before := hb
  placed := .start hb hs hp
  carries := .refl hb R _
  roots := hR.mono fun _ => .inl
  pieces := .nil
  erased := False.elim

theorem coherent (h : Dealt m R b x k A B P (fun _ => False) R' N ss s) : s.body.Coherent := h.placed.coherent

/-- What stood for nodes still does. -/
theorem keeps (h : Dealt m R b x k A B P (fun _ => False) R' N ss s) (hR : Roots m b R P) (hv : R v f p) : R' v f p := by
  obtain ⟨y, i, -, -, ho, -⟩ := hR.made hv
  exact h.carries.keeps hv ho id

/-- More operations are made, and values that they make may stand for nodes. -/
theorem rooted (h : Dealt m R b x k A B P (fun _ => False) R' N ss s) (ha : Added V b x k A B N s.body M s')
    (hQ : Roots m s'.body Q (· ∈ M))
    (hM : StandFor (Piece m (fun v f p => R' v f p ∨ Q v f p) s'.body False) M ss') :
    Dealt m R b x k A B P (fun _ => False) (fun v f p => R' v f p ∨ Q v f p) (N ++ M) (ss ++ ss') s' := by
  have hc : Maintains R' s.body (fun v f p => R' v f p ∨ Q v f p) s'.body fun _ => False := .added ha .inl
  have hold : Roots m s'.body R' fun y => P y ∨ y ∈ N := h.roots.carried ha.before (.added (E := fun _ => False) ha id)
    fun hv => ⟨hv, fun _ _ _ => id⟩
  refine ⟨h.before, ha.placed, h.carries.trans hc h.before False.elim id, ?_,
    (h.pieces.mono fun y _ ss hp => hp.carried ha.before hc id id).append hM, False.elim⟩
  refine (hold.mono fun y hy => ?_).extended (hQ.mono fun y hy => .inr (List.mem_append_right N hy))
    fun {v f p f' p'} hv hw => ?_
  · exact hy.imp_right fun hy => List.mem_append_left M hy
  · -- a new operation makes new values
    obtain ⟨y, i, op, -, ho, -⟩ := h.roots.made hv
    obtain ⟨z, j, op', hz, ho', -⟩ := hQ.made hw
    have hlt : v.index < s.body.values.size := isSome_value?.1 (isSome_of_origin? ho)
    exact absurd (ha.new hz ho') (Nat.not_le.2 hlt)

/-- More operations are made. -/
theorem made (h : Dealt m R b x k A B P (fun _ => False) R' N ss s) (ha : Added V b x k A B N s.body M s')
    (hM : StandFor (Piece m R' s'.body False) M ss') :
    Dealt m R b x k A B P (fun _ => False) R' (N ++ M) (ss ++ ss') s' := by
  have hc : Maintains R' s.body R' s'.body fun _ => False := .added ha id
  refine ⟨h.before, ha.placed, h.carries.trans hc h.before False.elim id, ?_,
    (h.pieces.mono fun y _ ss hp => hp.carried ha.before hc id id).append hM, False.elim⟩
  exact (h.roots.carried ha.before hc fun hv => ⟨hv, fun _ _ _ => id⟩).mono fun y hy =>
    hy.imp_right fun hy => List.mem_append_left M hy

/-- A wire for a node is made. -/
theorem wired (h : Dealt m R b x k A B P (fun _ => False) R' N ss s) (ha : Added V b x k A B N s.body [o] s')
    (hmk : s'.body.Makes o (.wire d) [] [w]) (hty : s'.body.ty? w = some t) (ht : m.nodeTy? f p = some t)
    (hc : m.dataType.sub? f.entry = some c) (hg : c.isGround = false) :
    Dealt m R b x k A B P (fun _ => False) (fun v f' p' => R' v f' p' ∨ v = w ∧ f' = f ∧ p' = p) (N ++ [o])
      (ss ++ t.leaves.map fun l => .wire f (p ++ l.path)) s' := by
  have hw := hmk.origin? ha.placed.coherent (i := 0) rfl
  obtain ⟨op, hop, hbare, hops, hres, he⟩ := id hmk
  obtain ⟨d', hk⟩ : ∃ d', op.kind = .wire d' := by
    cases hk : op.kind <;> rw [hk] at hbare <;> first | exact ⟨_, rfl⟩ | cases hbare
  refine h.rooted (Q := fun v f' p' => v = w ∧ f' = f ∧ p' = p) ha ⟨?_, ?_, ?_⟩
    (.single (.wire hop he hk hres (.inr ⟨rfl, rfl, rfl⟩) hc hg ht False.elim))
  · rintro v f' p' ⟨rfl, rfl, rfl⟩
    exact ⟨t, ht, hty⟩
  · rintro v f' p' ⟨rfl, rfl, rfl⟩
    exact ⟨o, 0, op, List.mem_singleton_self o, hw, hop, he, by rw [hk]; rfl, hops⟩
  · rintro v f₁ p₁ f₂ p₂ ⟨-, rfl, rfl⟩ ⟨-, rfl, rfl⟩
    exact ⟨rfl, rfl⟩

/-- A value that stands for a node gives way to another one that does. -/
theorem replaced (h : Dealt m R b x k A B P (fun _ => False) R' N ss s) (hr : Replaced s.body v w b') (hv : R' v f p)
    (hw : R' w f p) (hne : v ≠ w) : Dealt m R b x k A B P (fun _ => False) R' N ss ⟨b', s.point⟩ := by
  have hsb := h.coherent
  have hplaced := h.placed.replaced hr (h.roots.isSome hv) (h.roots.isSome hw) hne
  have hty : s.body.ty? w = s.body.ty? v := by
    obtain ⟨t, ht, htv⟩ := h.roots.typed hv
    obtain ⟨t', ht', htw⟩ := h.roots.typed hw
    rw [htv, htw, Option.some.inj (ht.symm.trans ht')]
  have hc : Maintains R' s.body R' b' fun _ => False := .replaced hsb hplaced.coherent hr (h.roots.primary hv) hty
    fun {f' p'} hv' => by
      obtain ⟨rfl, rfl⟩ := h.roots.unique hv hv'
      exact hw
  exact ⟨h.before, hplaced, h.carries.trans hc h.before False.elim id,
    h.roots.carried hsb hc fun hv => ⟨hv, fun _ _ _ => id⟩,
    h.pieces.mono fun y _ ss hp => hp.carried hsb hc id id, False.elim⟩

/-- The readers of a value give way to the values of its parts. -/
theorem rewired {values : List ValueId} (h : Dealt m R b x k A B P (fun _ => False) R' N ss s)
    (hp : Portioned R' u t values s.body) :
    Ends False (s.body.rewire u values) fun b' => Dealt m R b x k A B P (fun _ => False) R' N ss ⟨b', s.point⟩ := by
  have hsb := h.coherent
  refine (rewire_hands hp hsb).mono fun b' ⟨hr, hout, hh, _⟩ => ?_
  have hc : Maintains R' s.body R' b' fun _ => False := .rewired hr hh
  exact ⟨h.before, h.placed.rearranged hr hout, h.carries.trans hc h.before False.elim id,
    h.roots.carried hsb hc fun hv => ⟨hv, fun _ _ _ => id⟩, h.pieces.mono fun y _ ss hp => hp.carried hsb hc id id,
    False.elim⟩

/-- In the end, the operation itself is erased. -/
theorem finished {op : Operation} (h : Dealt m R b x k A B P (fun _ => False) R' N ss s) (hop : b.op? x = some op)
    (hk : op.kind.blocks = []) :
    Ends False (s.body.eraseOp x) fun b' => ∃ R'', Dealt m R b x k A B P (· = x) R'' N ss ⟨b', s.point⟩ := by
  have hsb := h.coherent
  obtain ⟨op', hop', hk', -⟩ := h.carries.edited.op? hop
  have hplain : ∀ opx, s.body.op? x = some opx → opx.kind.blocks = [] := fun opx hopx => by
    rw [Option.some.inj (hopx.symm.trans hop'), hk', hk]
  refine (eraseOp_ends hsb hplain nofun).mono fun b' he => ?_
  have hc := Maintains.erased (R := R') hsb he
  have hx : ∀ y ∈ N, y ≠ x := by
    rintro y hy rfl
    rw [h.placed.fresh y hy] at hop
    cases hop
  refine ⟨_, h.before, h.placed.dropped rfl he.dropped fun _ => hplain, h.carries.trans hc h.before False.elim id,
    h.roots.carried hsb hc fun hv => ⟨hv.1, ?_⟩, h.pieces.mono fun y hy ss hp => hp.carried hsb hc (hx y hy) id, ?_⟩
  · rintro y i ho rfl
    exact hv.2 i ho
  · rintro y opy rfl hopy
    rw [he.op?, hop', Option.map_some, if_pos rfl] at hopy
    rw [← Option.some.inj hopy]

/-- What stands in front of the operation guards nothing, and is what was made. -/
theorem slots_eq {H L : List OpId} (h : Dealt m R b x k A B P E R' N ss s) (hH : s.body.slotsOf k = A ++ H ++ x :: B)
    (hL : Unfolds s.body H L) : L = H ∧ N = H := by
  obtain ⟨⟨H', hfront⟩, -⟩ := h.placed
  obtain rfl : H = H' := by simpa using hH.symm.trans hfront.slots
  obtain rfl := hL.unique hfront.unfolds
  have hplain := hL.eq_of_plain fun z hz op hop => by
    obtain ⟨ss, hpz⟩ := h.pieces.exists_of_mem (hL.subset hz)
    obtain ⟨op', hop', hk⟩ := hpz.exists_op
    rw [Option.some.inj (hop.symm.trans hop'), hk]
  exact ⟨hplain, hplain⟩

end Dealt

/-- The operation is lowered by one layer: what was made in front of it stands for the shares `ss`, or it stands for them
itself, and nothing is left to be shared out. -/
def SharesOut (m : Memory) (R : ValueId → Face → List Nat → Prop) (x : OpId) (k : BlockId) (A B : List OpId)
    (P : OpId → Prop) (ss : List Memory.Share) (t : LowerState) (replaced : Bool) (t' : LowerState) : Prop :=
  if replaced then ∃ R' N, Dealt m R t.builder.body x k A B P (fun _ => False) R' N ss t'.builder
  else t' = t ∧ Piece m R t.builder.body True x ss

variable {cx : Context} {t₀ : LowerState} {op : Operation} {ty : Ty} {a : ValueId} {inner outer : Face} {q : List Nat}
  {flip : Bool}

/-- A wire gives way to wires for the parts of its node. -/
theorem Piece.wire_runs (hkeep : cx.options.preserveAggregate = false) (hb : t₀.builder.body.Coherent)
    (hr : Roots m t₀.builder.body R P) (hs : t₀.builder.body.slotsOf k = A ++ x :: B) (hp : t₀.builder.point = ⟨k, A.length⟩)
    (hop : t₀.builder.body.op? x = some op) (he : op.erased = false) (hk : op.kind = .wire d) (hres : op.results = [u])
    (hR : R u f p) (hc : m.dataType.sub? f.entry = some c) (hg : c.isGround = false) (ht : m.nodeTy? f p = some ty) :
    Runs False (Lower.step cx x op.kind) t₀
      (SharesOut m R x k A B P (ty.leaves.map fun l => .wire f (p ++ l.path)) t₀) := by
  have hty : t₀.builder.body.ty? u = some ty := by
    obtain ⟨t, ht', hty⟩ := hr.typed hR
    rw [hty, ← ht', ht]
  have hnode : ∀ {i e}, ty.child? i = some e → m.nodeTy? f (p ++ [i]) = some e := fun {i e} hi => by
    rw [m.nodeTy?_append, ht, Option.bind_some, Ty.sub?, hi]
    rfl
  rw [hk]
  change Runs False (splitProducer x cx.options.preserveAggregate fun part => firstResult (Build.wire part.ty {})) t₀ _
  rw [hkeep]
  refine splitProducer_parts hop hres hty False.elim (fun hground => ?_)
    (J := fun done values t' => ∃ R' N, Dealt m R t₀.builder.body x k A B P (fun _ => False) R' N
      (done.flatMap fun q => q.ty.leaves.map fun l => .wire f (p ++ [q.index] ++ l.path)) t'.builder ∧
      List.Forall₂ (fun (q : Part) w => R' w f (p ++ [q.index])) done values)
    ⟨R, [], .start hb hs hp hr, .nil⟩ ?_ ?_
  · have hground : ty.isGround := by simpa using hground
    exact ⟨rfl, .wire hop he hk hres hR hc hg ht fun _ => hground⟩
  · rintro ps done q rest values t' hps hl ⟨R', N, hN, hvalues⟩
    have hq := hnode (hps.child_index (p := q) (by simp [hl]))
    refine Runs.bind_except (P := fun _ => True) (.intro (fun _ _ => trivial) False.elim) fun r _ => ?_
    have hgrows := Added.grows (fun _ => True) t₀.builder.body x k A B N t'.builder.body
    have hk : (OpKind.wire {}).blocks = [] := rfl
    refine Runs.bind_build (hgrows.declare_runs (.start hN.placed) hk (by simp) .nil ⟨rfl, _, rfl⟩ trivial) ?_
    rintro w s' ⟨o, hgrew, hmk, hwty, -⟩
    refine (Lower.declarePart_runs (t := ⟨s', t'.symbols⟩) (hmk.origin? (hgrows.coherent hgrew.holds) rfl) _ q r).bind ?_
    rintro _ _ rfl
    have hwired := fun new : Decl => hN.wired (hgrows.declare (f := fun _ => new) hgrew.holds (List.mem_singleton_self o)
      fun _ _ _ _ => trivial) (hmk.mono (.modifyDecl _ _ _)) hwty hq hc hg
    refine .pure ⟨fun v f' p' => R' v f' p' ∨ v = w ∧ f' = f ∧ p' = p ++ [q.index], N ++ [o], ?_,
      List.rel_append (hvalues.imp fun _ _ => .inl) (.cons (.inr ⟨rfl, rfl, rfl⟩) .nil)⟩
    rw [List.flatMap_append, List.flatMap_singleton]
    exact hwired _
  · rintro ps values t' hps - ⟨R', N, hN, hvalues⟩
    have hu : R' u f p := hN.keeps hr hR
    have hpart : ∀ {i w}, values[i]? = some w → R' w f (p ++ [i]) := fun {i w} hw => by
      obtain ⟨hi, rfl⟩ := List.getElem?_eq_some_iff.1 hw
      have hi' : i < ps.length := hvalues.length_eq ▸ hi
      have hget := (List.forall₂_iff_get.1 hvalues).2 i hi' hi
      simpa [hps.index (List.getElem?_eq_getElem hi')] using hget
    have hportioned : Portioned R' u ty values t'.builder.body :=
      { primary := fun ha => hN.roots.primary ha
        whole := hN.roots.primary hu
        ty? := hN.carries.edited.ty? hty
        fresh := fun {w} hw => by
          obtain ⟨i, hi⟩ := List.mem_iff_getElem?.1 hw
          refine ⟨hN.roots.isSome (hpart hi), ?_, hN.roots.primary (hpart hi)⟩
          rintro rfl
          exact absurd (hN.roots.unique hu (hpart hi)).2 (by simp)
        types := fun {i w e} hw hi => by
          obtain ⟨t, ht', hwty⟩ := hN.roots.typed (hpart hw)
          rw [hwty, ← ht', hnode hi]
        parts := fun {f' p' i w} hu' hw => by
          obtain ⟨rfl, rfl⟩ := hN.roots.unique hu hu'
          exact hpart hw }
    refine (hN.rewired hportioned).mono fun b' hb' => ⟨R', N, ?_⟩
    rw [hps.map_path_leaves fun l => Memory.Share.wire f (p ++ l)]
    simpa using hb'

/-- A connection gives way to connections of the parts of both nodes. -/
theorem Piece.link_runs (hb : t₀.builder.body.Coherent) (hr : Roots m t₀.builder.body R P)
    (hs : t₀.builder.body.slotsOf k = A ++ x :: B) (hp : t₀.builder.point = ⟨k, A.length⟩)
    (hop : t₀.builder.body.op? x = some op) (he : op.erased = false) (hk : op.kind = .connect true)
    (ht : m.nodeTy? inner p = some ty) (ht' : m.nodeTy? outer q = some ty) (hpassive : ty.passive)
    (ha : t₀.builder.body.Slot x (if flip then 1 else 0) a) (hia : t₀.builder.body.Denotes R a inner p)
    (hv : t₀.builder.body.Slot x (if flip then 0 else 1) v) (hov : t₀.builder.body.Denotes R v outer q) :
    Runs False (Lower.step cx x op.kind) t₀
      (SharesOut m R x k A B P (ty.leaves.map fun l => .link inner (p ++ l.path) outer (q ++ l.path) flip) t₀) := by
  have hpart : ∀ {f q i e}, m.nodeTy? f q = some ty → ty.child? i = some e → m.nodeTy? f (q ++ [i]) = some e :=
    fun {f q i e} hq hi => by
      rw [m.nodeTy?_append, hq, Option.bind_some, Ty.sub?, hi]
      rfl
  have hty : ∀ {u f q}, m.nodeTy? f q = some ty → t₀.builder.body.Denotes R u f q →
      t₀.builder.body.ty? u = some ty ∧ t₀.builder.body.Static u := fun {u f q} hq hu => by
    obtain ⟨t, ht, hut⟩ := hr.denotes_ty? hu
    exact ⟨by rw [hut, ← ht, hq], hr.denotes_static hb hu⟩
  -- the side that is driven comes first
  obtain ⟨dest, src, had, hvd, hdest, hsrc⟩ : ∃ dest src, (a = if flip then src else dest) ∧
      (v = if flip then dest else src) ∧
      t₀.builder.body.Slot x 0 dest ∧ t₀.builder.body.Slot x 1 src := by
    cases flip with
    | true => exact ⟨v, a, rfl, rfl, hv, ha⟩
    | false => exact ⟨a, v, rfl, rfl, ha, hv⟩
  obtain ⟨⟨hdt, hstatic⟩, hst, -⟩ : (t₀.builder.body.ty? dest = some ty ∧ t₀.builder.body.Static dest) ∧
      t₀.builder.body.ty? src = some ty ∧ t₀.builder.body.Static src := by
    have hat := hty ht hia
    have hvt := hty ht' hov
    rw [had] at hat
    rw [hvd] at hvt
    cases flip with
    | true => exact ⟨hvt, hat⟩
    | false => exact ⟨hat, hvt⟩
  obtain ⟨op', hop', hdest⟩ := hdest
  obtain rfl := Option.some.inj (hop.symm.trans hop')
  obtain ⟨op', hop', hsrc⟩ := hsrc
  obtain rfl := Option.some.inj (hop.symm.trans hop')
  rw [hk]
  change Runs False (Lower.connect x true) t₀ _
  unfold Lower.connect Lower.writePath
  rw [bind_assoc]
  refine Runs.bind_body (P := ([] = ·)) (.of_eq_ok (hstatic.writePath_eq hop hdest) rfl) ?_
  rintro _ rfl
  rw [List.getLast?_nil, pure_bind, if_neg Bool.false_ne_true]
  refine Body.bind_operand hop hdest (Body.bind_operand hop hsrc ?_)
  refine Body.bind_typeOf hdt (Runs.bind_except (Ty.peel_ends False.elim) ?_)
  intro r hr'
  cases r with
  | none =>
    have hground : ty.isGround := by simpa using hr'
    exact .pure ⟨rfl, .link hop he hk ht ht' hpassive ha hia hv hov fun _ => hground⟩
  | some ps =>
    have hps := hr'.1
    refine (Runs.forM (fun done (t' : LowerState) => ∃ N, Dealt m R t₀.builder.body x k A B P (fun _ => False) R N
      (done.flatMap fun part => part.ty.leaves.map fun l =>
        .link inner (p ++ [part.index] ++ l.path) outer (q ++ [part.index] ++ l.path) flip) t'.builder ∧
      Extends t₀.builder.body t'.builder.body) ps ⟨[], .start hb hs hp hr, .refl _⟩ ?_).bind ?_
    · rintro done part rest t' hl ⟨N, hN, hext⟩
      have hmem : part ∈ ps := by simp [hl]
      have hi := hps.child_index hmem
      refine Runs.build ((connectPart_runs (Added.grows _ _ x k A B N t'.builder.body) (.start hN.placed)
        (hext.ty?_some hdt) (hext.ty?_some hst) hps hmem).mono ?_)
      rintro - s' ⟨x₁, y, z, u, w, hg, hu, hw, ⟨_, _, hk₁, hx₁⟩, ⟨_, _, hk₂, hy⟩, hz⟩
      rw [hps.flip_eq_false hpassive hmem, if_neg Bool.false_ne_true] at hz
      have hext' := hext.trans hg.body
      have hlink : Piece m R s'.body False z (part.ty.leaves.map fun l =>
          .link inner (p ++ [part.index] ++ l.path) outer (q ++ [part.index] ++ l.path) flip) := by
        obtain ⟨opz, hopz, hbare, hops, -, hez⟩ := hz
        refine .link hopz hez (OpKind.eq_of_bare_eq hbare.symm rfl).symm (hpart ht hi) (hpart ht' hi)
          (Ty.passive_child hpassive hi)
          (a := if flip then w else u) (d := if flip then u else w) ?_ ?_ ?_ ?_ False.elim
        · exact ⟨opz, hopz, by rw [hops]; cases flip <;> rfl⟩
        · have := (hia.mono hext' id)
          rw [had] at this
          cases flip with
          | true => exact this.below hw
          | false => exact this.below hu
        · exact ⟨opz, hopz, by rw [hops]; cases flip <;> rfl⟩
        · have := (hov.mono hext' id)
          rw [hvd] at this
          cases flip with
          | true => exact this.below hu
          | false => exact this.below hw
      have hmade := hN.made hg.holds (.skip (.of_accessor hk₁ hx₁) (.skip (.of_accessor hk₂ hy) (.single hlink)))
      refine ⟨N ++ [x₁, y, z], ?_, hext'⟩
      rw [List.flatMap_append, List.flatMap_singleton]
      exact hmade
    · rintro - t' ⟨N, hN, -⟩
      refine .pure ⟨R, N, ?_⟩
      rw [hps.map_path_leaves fun l => Memory.Share.link inner (p ++ l) outer (q ++ l) flip]
      simpa using hN

end Body

end Scalarize
