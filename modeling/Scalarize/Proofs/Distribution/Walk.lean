import Scalarize.Proofs.Distribution.Memories
import Scalarize.Proofs.Frame
import Scalarize.Proofs.Moments

/-!
# A walk over a memory

A walk comes past what reads a memory, then past the memory, and then past what the memory gave way to.

* `Body.Passed`, `Roots.step_runs` : an operation that makes no node of a port is lowered by one layer;
* `Moment.Awaits` : the memory is still pending; `Awaits.reached_runs` : it is lowered by one layer;
* `Moment.Spreads` : it gave way to operations that stand for all that it is shared out into; `Spreads.passed`,
  `Spreads.piece_runs` : one of them, or another operation, is lowered by one layer;
* `Moment.Distributes`, `Distributes.heeds` : everything that a walk does keeps one or the other.
-/

namespace Scalarize

open Body Lower

/-! ## Other operations -/

/-- Of the operations that are no accessors, only `o` may have been erased. -/
def Body.SparedBut (b₀ : Body) (o : OpId) (b : Body) : Prop :=
  ∀ y op op', y ≠ o → b₀.op? y = some op → b.op? y = some op' → op.kind.isAccessor = false → op'.erased = op.erased

/-- Whatever else is kept, operations that are no accessors are not erased. -/
theorem Upheld.spared {b₀ : Body} {o : OpId} {op : Operation} {U : Body → ValueId → Prop} {Z : Body → OpId → Prop}
    {X : Body → Prop} (h : Upheld b₀ o op U Z X) : Upheld b₀ o op U Z fun b => X b ∧ b₀.SparedBut o b where
  operand := h.operand
  through hX := h.through hX.1
  see he hX hc := h.see he hX.1 hc
  declared := h.declared
  replaced hX hr := h.replaced hX.1 hr
  dropped hX hx hd := h.dropped hX.1 hx hd
  self := h.self
  reader hX := h.reader hX.1
  create he hX hv hc := by
    refine ⟨h.create he hX.1 hv hc, fun y op op' hy hop hop' hacc => ?_⟩
    obtain ⟨op₁, hop₁, -⟩ := he.op? hop
    rw [hc.op?_old hop₁] at hop'
    obtain rfl := Option.some.inj hop'
    exact hX.2 y op op₁ hy hop hop₁ hacc
  declare {b x f} he hX hx := by
    refine ⟨h.declare he hX.1 hx, fun y op op' hy hop hop' hacc => ?_⟩
    obtain ⟨op₁, hop₁, -⟩ := he.op? hop
    have hne : y ≠ x := by
      rintro rfl
      rw [hx] at hop
      cases hop
    rw [op?_modifyDecl, hop₁, Option.map_some, if_neg hne] at hop'
    exact hX.2 y op op' hy hop (hop₁.trans hop') hacc
  replace he hX hne hv hw hr := by
    refine ⟨h.replace he hX.1 hne hv hw hr, fun y op op' hy hop hop' hacc => ?_⟩
    rw [hr.op?] at hop'
    obtain ⟨op₁, hop₁, rfl⟩ := Option.map_eq_some_iff.1 hop'
    exact hX.2 y op op₁ hy hop hop₁ hacc
  drop {b x f b'} he hX hf hx hread hd := by
    refine ⟨h.drop he hX.1 hf hx hread hd, fun y op op' hy hop hop' hacc => ?_⟩
    obtain ⟨op₁, hop₁, hk, -⟩ := he.op? hop
    have hne : y ≠ x := by
      rintro rfl
      rw [← hk, (hx hy).2 op₁ hop₁] at hacc
      cases hacc
    rw [hd.op?, hop₁, Option.map_some, if_neg hne] at hop'
    exact hX.2 y op op' hy hop (hop₁.trans hop') hacc

namespace Body

variable {m : Memory} {R : ValueId → Face → List Nat → Prop} {b b₀ : Body} {o x : OpId} {op : Operation} {P : OpId → Prop}
  {U : Body → ValueId → Prop} {Z : Body → OpId → Prop} {X : Body → Prop} {cx : Context} {t : LowerState} {k : BlockId}
  {A B : List OpId}

theorem Roots.sourced (h : Roots m b R P) : b.Sourced fun v => ∃ f p, R v f p := by
  rintro v z i op ⟨f, p, hv⟩ hz hop
  obtain ⟨y, j, op', -, ho, hop', he, -, hops⟩ := h.made hv
  obtain ⟨rfl, -⟩ := Origin.result.inj (Option.some.inj (hz.symm.trans ho))
  obtain rfl := Option.some.inj (hop.symm.trans hop')
  exact ⟨hops, he⟩

/-- What is on a way from a node, and makes none, is a fixed accessor. -/
theorem Roots.fixed_of_onWay (h : Roots m b R P) (hb : b.Coherent) (hx : ¬P x) (hw : b.OnWay (fun v => ∃ f p, R v f p) x)
    (hop : b.op? x = some op) : ∃ i, op.kind.fixedIndex? = some i := by
  obtain ⟨u, i, ⟨a, p, ⟨f, q, ha⟩, hat⟩, hu⟩ := hw
  cases hat with
  | self =>
    obtain ⟨y, j, -, hy, ho, -⟩ := h.made ha
    obtain ⟨rfl, -⟩ := Origin.result.inj (Option.some.inj (ho.symm.trans hu))
    exact absurd hy hx
  | part _ hpart =>
    obtain ⟨y, kind, hfix, hmk⟩ := hpart.made
    obtain ⟨rfl, -⟩ := Origin.result.inj (Option.some.inj ((hmk.origin? hb (i := 0) rfl).symm.trans hu))
    obtain ⟨op', hop', hbare, -⟩ := hmk
    exact ⟨_, by rw [Option.some.inj (hop.symm.trans hop'), OpKind.fixedIndex?_eq_of_bare_eq hbare, hfix]⟩

/-- Operation `x`, in block `k` between `A` and `B`, was lowered by one layer, and all that was known of nodes still
holds. -/
structure Passed (R : ValueId → Face → List Nat → Prop) (b : Body) (x : OpId) (k : BlockId) (A B : List OpId) (b' : Body) :
    Prop where
  carries : Maintains R b R b' (· = x)
  untouched : Local b [k] [] b'
  fresh : ∀ {H N}, b'.slotsOf k = A ++ H ++ x :: B → Unfolds b' H N → ∀ y ∈ N, b.op? y = none

/-- An operation that makes no node is lowered by one layer. -/
theorem Roots.step_runs (h : Roots m t.builder.body R P) (hb : t.builder.body.Coherent) (hx : ¬P x)
    (hop : t.builder.body.op? x = some op) (hk : op.kind.blocks = []) (hs : t.builder.body.slotsOf k = A ++ x :: B)
    (hp : t.builder.point = ⟨k, A.length⟩) :
    Runs False (Lower.step cx x op.kind) t fun replaced t' =>
      Ends False (if replaced then t'.builder.body.eraseOp x else .ok t'.builder.body)
        (Passed R t.builder.body x k A B) := by
  -- if nothing is replaced, nothing is made
  have hsame : Passed R t.builder.body x k A B t.builder.body := by
    refine ⟨.refl hb R _, .refl _ _ _, fun {H N} hH hN => ?_⟩
    obtain rfl : H = [] := by simpa [hs] using hH
    cases hN
    nofun
  by_cases hw : t.builder.body.OnWay (fun v => ∃ f p, R v f p) x
  · obtain ⟨i, hfix⟩ := h.fixed_of_onWay hb hx hw hop
    refine (Lower.step_fixed hfix).mono ?_
    rintro _ t' ⟨rfl, rfl⟩
    exact hsame
  · have hsourced := h.sourced
    have hupheld := (Steady.upheld hb hsourced hop hw).spared
    refine (hupheld.step_runs hb hop hk hs hp ⟨⟨.refl hb, .refl hb hsourced _⟩, fun y op op' _ hop hop' _ => ?_⟩).mono ?_
    · rw [Option.some.inj (hop.symm.trans hop')]
    rintro replaced t' hout
    cases replaced with
    | false =>
      obtain rfl : t' = t := hout
      exact hsame
    | true =>
      refine Ends.mono hout fun b' ⟨⟨⟨he, hsteady⟩, hspared⟩, N, hN⟩ => ?_
      obtain ⟨H, hfront⟩ := hN.place
      refine ⟨?_, hfront.untouched, fun {H' N'} hH' hN' => ?_⟩
      · have hgone : ¬b'.stands x := fun hst => by
          obtain ⟨op', hop', -⟩ := he.op? hop
          rw [stands_eq, hop', Option.any_some, hN.erased hop'] at hst
          cases hst
        refine
          { edited := he
            spares := fun {y op op'} hy hop hop' hacc => hspared y op op' hy hop hop' hacc
            bare := fun {y op op'} hy hop hacc hey hops hop' => ?_
            hands := (hsteady.done hgone).hands hb he fun hv => ⟨_, _, hv⟩
            keeps := fun hv _ _ => hv }
        have hst : b'.stands y := by
          rw [stands_eq, hop', Option.any_some, hspared y op op' hy hop hop' hacc, hey]
          rfl
        obtain ⟨op₁, hop₁, hreads⟩ := hsteady.reads hy hop hst
        rw [hops, List.forall₂_nil_left_iff] at hreads
        rw [Option.some.inj (hop'.symm.trans hop₁), hreads]
      · obtain rfl : H' = H := by simpa using hH'.symm.trans hfront.slots
        rw [hN'.unique hfront.unfolds]
        exact hfront.fresh

end Body

/-! ## Phases -/

section Lists

variable {α : Type} {A B A' B' C D P X : List α} {x o : α}

/-- The last of what is pending belongs to one of two lists. -/
theorem append_cons_eq_append (h : P ++ x :: D = X ++ C) :
    (∃ X', X = P ++ x :: X' ∧ D = X' ++ C) ∨ ∃ C', P = X ++ C' ∧ C = C' ++ x :: D := by
  rcases List.append_eq_append_iff.1 h with ⟨X', hX, hC⟩ | ⟨C', hP, hC⟩
  · cases X' with
    | nil => exact .inr ⟨[], by simpa using hX.symm, by simpa using hC.symm⟩
    | cons y X' =>
      obtain ⟨rfl, rfl⟩ := List.cons.inj hC
      exact .inl ⟨X', hX, rfl⟩
  · exact .inr ⟨C', hP, hC⟩

/-- What goes in front of an element does not come between others. -/
theorem exists_append_of_not_mem (h : A ++ x :: B = A' ++ C ++ o :: B') (hx : x ∉ C) (hxo : x ≠ o) (H : List α) :
    ∃ A₁ B₁, A ++ H ++ x :: B = A₁ ++ C ++ o :: B₁ := by
  have hC : ∀ {l r : List α}, C ++ [o] ≠ l ++ x :: r := fun {l r} he => by
    have : x ∈ C ++ [o] := by simp [he]
    simp [hx, hxo] at this
  have h' : A ++ x :: B = A' ++ ((C ++ [o]) ++ B') := by simpa using h
  rcases append_cons_eq_append h' with ⟨X', rfl, rfl⟩ | ⟨C', rfl, he⟩
  · exact ⟨A ++ H ++ x :: X', B', by simp⟩
  · rcases append_cons_eq_append he.symm with ⟨X', hX, -⟩ | ⟨E, rfl, rfl⟩
    · exact absurd hX hC
    · exact ⟨A', E ++ H ++ x :: B, by simp⟩

end Lists

namespace Moment

variable {m : Memory} {b₀ b b' : Body} {op₀ : Operation} {o x : OpId} {k : BlockId} {s s' : Moment}
  {R₀ R : ValueId → Face → List Nat → Prop} {X C D D₁ P L N : List OpId} {y y' : Symbols} {cx : Context} {op : Operation}
  {A B : List OpId} {t : LowerState}

/-- The memory, operation `o`, is pending, and whoever read its ports in `b₀` and still stands still does. -/
structure Awaits (m : Memory) (b₀ : Body) (op₀ : Operation) (o : OpId) (s : Moment) : Prop where
  pending : o ∈ s.pending
  stands : s.body.stands o
  carries : Maintains (op₀.Ports []) b₀ (op₀.Ports []) s.body fun _ => True
  roots : Roots m s.body (op₀.Ports []) (· = o)

/-- At `s` the memory, operation `o` in block `k`, was the next to be reached. Now operations `C` in front of it stand for
what it is shared out into. `X` are the others that were pending at `s`, or what they gave way to; those of `X` and `C`
that are done are `D₁`. -/
structure Spreads (m : Memory) (R₀ : ValueId → Face → List Nat → Prop) (o : OpId) (k : BlockId) (s : Moment)
    (R : ValueId → Face → List Nat → Prop) (X C D₁ : List OpId) (s' : Moment) : Prop where
  carries : Maintains R₀ s.body R s'.body fun x => x ∈ s.pending ∨ s.body.op? x = none
  roots : Roots m s'.body R (· ∈ C)
  pieces : StandFor (fun x => Piece m R s'.body (x ∈ D₁ ∧ s'.body.Walked x) x) C (m.shares [] "" false m.dataType)
  order : s'.pending ++ D₁ = X ++ C
  done : s'.done = D₁ ++ o :: s.done
  slots : ∃ A B, s'.body.slotsOf k = A ++ C ++ o :: B
  fresh : ∀ x ∈ C, s.body.op? x = none
  recent : ∀ x ∈ s'.pending, x ∈ s.pending ∨ s.body.op? x = none
  gone : ¬s'.body.stands o

namespace Awaits

/-- Another operation is lowered by one layer. -/
theorem passed (h : Awaits m b₀ op₀ o ⟨b, y, P ++ [x], D⟩) (h₀ : b₀.Coherent) (hop₀ : b₀.op? o = some op₀)
    (hk₀ : op₀.kind = .mem m) (hne : x ≠ o) (hp : Passed (op₀.Ports []) b x k A B b') :
    Awaits m b₀ op₀ o ⟨b', y', P ++ N, x :: D⟩ where
  pending := by
    have : o ∈ P := by simpa [hne.symm] using h.pending
    exact List.mem_append_left N this
  stands := by
    obtain ⟨op, hop, hk, -⟩ := h.carries.edited.op? hop₀
    obtain ⟨op', hop', -⟩ := hp.carries.edited.op? hop
    have hsame := hp.carries.spares hne.symm hop hop' (by rw [hk, hk₀]; rfl)
    rw [stands_eq, hop', Option.any_some, hsame, erased_of_stands hop h.stands]
    rfl
  carries := h.carries.trans hp.carries h₀ (fun _ => trivial) fun _ => trivial
  roots := h.roots.carried h.carries.edited.coherent hp.carries fun {v f p} hv => ⟨hv, fun z i hz hzx => by
    obtain ⟨z', j, -, rfl, ho, -⟩ := h.roots.made hv
    exact hne (hzx.symm.trans (Origin.result.inj (Option.some.inj (hz.symm.trans ho))).1)⟩

/-- The memory itself is lowered by one layer. -/
theorem reached_runs (h : Awaits m b₀ op₀ o ⟨t.builder.body, t.symbols, P ++ [o], D⟩) (hop₀ : b₀.op? o = some op₀)
    (hk₀ : op₀.kind = .mem m) (hkeep : cx.options.preserveAggregate = false) (hpassive : m.dataType.passive)
    (hg : m.dataType.isGround = false) (hop : t.builder.body.op? o = some op)
    (hs : t.builder.body.slotsOf k = A ++ o :: B) (hp : t.builder.point = ⟨k, A.length⟩) :
    Runs False (Lower.step cx o op.kind) t fun replaced t' =>
      Ends False (if replaced then t'.builder.body.eraseOp o else .ok t'.builder.body) fun b' => ∀ H N,
        b'.slotsOf k = A ++ H ++ o :: B → Unfolds b' H N →
        ∃ R C, Spreads m (op₀.Ports []) o k ⟨t.builder.body, t.symbols, P ++ [o], D⟩ R P C []
          ⟨b', t'.symbols, P ++ N, o :: D⟩ := by
  have hb : t.builder.body.Coherent := h.carries.edited.coherent
  have he : op.erased = false := erased_of_stands hop h.stands
  obtain ⟨op', hop', hk, hres, -⟩ := h.carries.edited.op? hop₀
  obtain rfl := Option.some.inj (hop.symm.trans hop')
  rw [hk₀] at hk
  have hpiece : Piece m (op₀.Ports []) t.builder.body False o (m.shares [] "" false m.dataType) :=
    .store hop he hk (.refl m) rfl (fun i v hv => ⟨i, hres ▸ hv, rfl, rfl⟩) False.elim
  refine (hpiece.step_runs hkeep hpassive hb h.roots hs hp hop he).mono fun replaced t' hout => ?_
  cases replaced with
  | false =>
    have hground := hout.2.isGround_of_mem hop he hk
    rw [hg] at hground
    cases hground
  | true =>
    obtain ⟨R', N', hdealt⟩ := hout
    refine (hdealt.finished hop (by rw [hk]; rfl)).mono fun b' ⟨R, hD⟩ H N hH hN => ⟨R, N, ?_⟩
    obtain ⟨rfl, rfl⟩ := hD.slots_eq hH hN
    refine
      { carries := hD.carries.mono fun hz => .inl (by simp [hz])
        roots := ?_
        pieces := hD.pieces.mono fun z _ ss hpz => ?_
        order := by simp
        done := rfl
        slots := ⟨A, B, hH⟩
        fresh := hD.placed.fresh
        recent := fun z hz => ?_
        gone := fun hst => ?_ }
    · -- the memory itself is erased, and makes no node any more
      refine ⟨hD.roots.typed, fun {v f p} hv => ?_, hD.roots.unique⟩
      obtain ⟨z, i, opz, hz, ho, hopz, hez, hrest⟩ := hD.roots.made hv
      refine ⟨z, i, opz, hz.resolve_left fun hzo => ?_, ho, hopz, hez, hrest⟩
      have := hD.erased hzo hopz
      rw [hez] at this
      cases this
    · exact hpz.carried (E := fun _ => False) hD.carries.edited.coherent (.refl hD.carries.edited.coherent R _) id (by simp)
    · rcases List.mem_append.1 hz with hz | hz
      · exact .inl (List.mem_append_left _ hz)
      · exact .inr (hD.placed.fresh z hz)
    · obtain ⟨opo, hopo, -⟩ := hD.carries.edited.op? hop
      have := hD.erased rfl hopo
      rw [erased_of_stands hopo hst] at this
      cases this

end Awaits

namespace Spreads

theorem coherent (h : Spreads m R₀ o k s R X C D₁ s') : s'.body.Coherent := h.carries.edited.coherent

/-- What is done, and not walked, need not be lowered. -/
theorem skip (h : Spreads m R₀ o k s R X C D₁ ⟨b, y, P ++ x :: L, D⟩) (hL : ∀ z ∈ x :: L, ¬b.Walked z) :
    Spreads m R₀ o k s R X C (x :: (L ++ D₁)) ⟨b, y, P, x :: (L ++ D)⟩ where
  carries := h.carries
  roots := h.roots
  pieces := h.pieces.mono fun z _ ss hz => hz.carried (E := fun _ => False) h.coherent (.refl h.coherent R _) id
    fun ⟨hmem, hw⟩ => ⟨(List.mem_append.1 (show z ∈ (x :: L) ++ D₁ from hmem)).resolve_left fun hz => hL z hz hw, hw⟩
  order := by simpa using h.order
  done := by
    have := h.done
    simp only at this
    simp [this]
  slots := h.slots
  fresh := h.fresh
  recent z hz := h.recent z (List.mem_append_left _ hz)
  gone := h.gone

/-- A guard is done. -/
theorem pass (h : Spreads m R₀ o k s R X C D₁ ⟨b, y, P ++ [x], D⟩) (hop : b.op? x = some op) (hk : op.kind.blocks ≠ []) :
    Spreads m R₀ o k s R X C (x :: D₁) ⟨b, y, P, x :: D⟩ where
  carries := h.carries
  roots := h.roots
  pieces := h.pieces.mono fun z _ ss hz => by
    refine hz.carried (E := fun _ => False) h.coherent (.refl h.coherent R _) id fun ⟨hmem, hw⟩ => ⟨?_, hw⟩
    refine (List.mem_cons.1 hmem).resolve_left ?_
    rintro rfl
    obtain ⟨op', hop', hk'⟩ := hz.exists_op
    exact hk (Option.some.inj (hop.symm.trans hop') ▸ hk')
  order := by simpa using h.order
  done := by
    have := h.done
    simp only at this
    simp [this]
  slots := h.slots
  fresh := h.fresh
  recent z hz := h.recent z (List.mem_append_left _ hz)
  gone := h.gone

/-- New operations are new since earlier on, too. -/
theorem fresh_of_edited (h : Spreads m R₀ o k s R X C D₁ s') {z : OpId} (hz : s'.body.op? z = none) :
    s.body.op? z = none := by
  cases hop : s.body.op? z with
  | none => rfl
  | some op =>
    obtain ⟨op', hop', -⟩ := h.carries.edited.op? hop
    rw [hz] at hop'
    cases hop'

/-- Operations in place of the memory are in its block. -/
theorem mem_slotsOf (h : Spreads m R₀ o k s R X C D₁ s') (hx : x ∈ C) : x ∈ s'.body.slotsOf k := by
  obtain ⟨A, B, hs⟩ := h.slots
  rw [hs]
  simp [hx]

theorem isSome_op? (h : Spreads m R₀ o k s R X C D₁ s') (hx : x ∈ C) : (s'.body.op? x).isSome := by
  obtain ⟨op, hop, -⟩ := h.coherent.op?_of_mem_slotsOf (h.mem_slotsOf hx)
  rw [hop]
  rfl

/-- It goes on not to stand. -/
theorem gone_of_edited (h : Spreads m R₀ o k s R X C D₁ s') (he : s'.body.Edited b') : ¬b'.stands o := fun hst => by
  obtain ⟨A, B, hs⟩ := h.slots
  obtain ⟨op, hop, -⟩ := h.coherent.op?_of_mem_slotsOf (o := o) (k := k) (by rw [hs]; simp)
  exact h.gone (he.stands hst (by rw [hop]; rfl))

/-- An operation that is not among those in place of the memory is lowered by one layer. -/
theorem passed (h : Spreads m R₀ o k s R X C D₁ ⟨b, y, P ++ [x], D⟩) (h₀ : s.body.Coherent)
    (hw : b.Walked x) (hx : x ∉ C) (y' : Symbols) {kx : BlockId} (hs : b.slotsOf kx = A ++ x :: B)
    (hp : Passed R b x kx A B b') {H : List OpId} (hH : b'.slotsOf kx = A ++ H ++ x :: B) (hN : Unfolds b' H N) :
    ∃ X', Spreads m R₀ o k s R X' C (x :: D₁) ⟨b', y', P ++ N, x :: D⟩ := by
  have hb := h.coherent
  have hne : x ≠ o := fun he => h.gone (he ▸ hw.stands)
  have horder : P ++ x :: D₁ = X ++ C := by simpa using h.order
  obtain ⟨X', rfl, rfl⟩ | ⟨C', rfl, rfl⟩ := append_cons_eq_append horder
  swap
  · simp at hx
  have hold := h.recent x (by simp)
  refine ⟨P ++ N ++ x :: X', ?_⟩
  refine
    { carries := h.carries.trans hp.carries h₀ id (fun hz => hz ▸ hold)
      roots := h.roots.carried hb hp.carries fun {v f p} hv => ⟨hv, fun z i hz hzx => ?_⟩
      pieces := h.pieces.mono fun z hz ss hpiece =>
        hpiece.carried hb hp.carries (fun he => hx (he ▸ hz)) fun ⟨hmem, hwz⟩ => ?_
      order := by simp
      done := by
        have := h.done
        simp only at this
        simp [this]
      slots := ?_
      fresh := h.fresh
      recent := fun z hz => ?_
      gone := h.gone_of_edited hp.carries.edited }
  · obtain ⟨z', j, -, hz', ho, -⟩ := h.roots.made hv
    obtain ⟨rfl, -⟩ := Origin.result.inj (Option.some.inj (hz.symm.trans ho))
    exact hx (hzx ▸ hz')
  · refine ⟨(List.mem_cons.1 hmem).resolve_left fun he => hx (he ▸ hz), hp.carries.edited.walked hb hwz ?_⟩
    obtain ⟨opz, hopz, -⟩ := hpiece.exists_op
    rw [hopz]
    rfl
  · obtain ⟨A', B', hslots⟩ := h.slots
    by_cases hkx : kx = k
    · subst hkx
      obtain ⟨A₁, B₁, he⟩ := exists_append_of_not_mem (hs.symm.trans hslots) hx hne H
      exact ⟨A₁, B₁, hH.trans he⟩
    · obtain ⟨blk, hblk⟩ := exists_block_of_mem_slotsOf (b := b) (k := k) (o := o) (by rw [hslots]; simp)
      exact ⟨A', B', (hp.untouched.slotsOf hblk (by simpa using Ne.symm hkx) (by simp)).trans hslots⟩
  · rcases List.mem_append.1 hz with hz | hz
    · exact h.recent z (List.mem_append_left _ hz)
    · exact .inr (h.fresh_of_edited (hp.fresh hH hN z hz))

section Piece

variable {C₁ : List OpId} {kx : BlockId}

/-- The slots in front of an operation in place of the memory, and those behind it. -/
theorem cut (h : Spreads m R₀ o k s R X (C₁ ++ x :: D₁) D₁ ⟨b, y, P ++ [x], D⟩) (hs : b.slotsOf kx = A ++ x :: B) :
    kx = k ∧ P = X ++ C₁ ∧ ∃ A' B', A = A' ++ C₁ ∧ B = D₁ ++ o :: B' := by
  have hb : b.Coherent := h.coherent
  obtain rfl : kx = k := hb.slotsOf_unique (x := x) (by simp [hs]) (h.mem_slotsOf (by simp))
  obtain ⟨A', B', hslots⟩ := h.slots
  have hnd := hb.nodup_slotsOf kx
  rw [hs, List.nodup_middle, List.nodup_cons, List.mem_append, not_or] at hnd
  have horder : P ++ x :: D₁ = (X ++ C₁) ++ x :: D₁ := by simpa using h.order
  have hcut : A ++ x :: B = (A' ++ C₁) ++ x :: (D₁ ++ o :: B') := hs.symm.trans (hslots.trans (by simp))
  obtain ⟨hA, -, hB⟩ := (List.append_cons_inj_of_notMem hnd.1.1 hnd.1.2).1 hcut
  exact ⟨rfl, List.append_cancel_right horder, A', B', hA, hB⟩

theorem ne_of_mem (h : Spreads m R₀ o k s R X (C₁ ++ x :: D₁) D₁ s') {z : OpId} (hz : z ∈ C₁ ++ D₁) : z ≠ x := by
  rintro rfl
  obtain ⟨A, B, hs⟩ := h.slots
  have hnd := h.coherent.nodup_slotsOf k
  rw [hs, List.nodup_append, List.nodup_append, List.nodup_middle, List.nodup_cons] at hnd
  exact hnd.1.2.1.1 hz

/-- What is done of the others once the operation is was done before. -/
theorem done_of (h : Spreads m R₀ o k s R X (C₁ ++ x :: D₁) D₁ s') (he : s'.body.Edited b') {z : OpId} (hz : z ∈ C₁ ++ D₁)
    (hdone : z ∈ x :: D₁ ∧ b'.Walked z) : z ∈ D₁ ∧ s'.body.Walked z := by
  refine ⟨(List.mem_cons.1 hdone.1).resolve_left (h.ne_of_mem hz), he.walked h.coherent hdone.2 (h.isSome_op? ?_)⟩
  simp only [List.mem_append, List.mem_cons] at hz ⊢
  tauto

/-- An operation is done that stands for one share at most. -/
theorem kept {ss₁ ss ss₂ : List Memory.Share} (h : Spreads m R₀ o k s R X (C₁ ++ x :: D₁) D₁ ⟨b, y, P ++ [x], D⟩)
    (hwhole : m.shares [] "" false m.dataType = ss₁ ++ ss ++ ss₂)
    (h₁ : StandFor (fun x => Piece m R b (x ∈ D₁ ∧ b.Walked x) x) C₁ ss₁) (hx : Piece m R b True x ss)
    (h₂ : StandFor (fun x => Piece m R b (x ∈ D₁ ∧ b.Walked x) x) D₁ ss₂) :
    Spreads m R₀ o k s R X (C₁ ++ x :: D₁) (x :: D₁) ⟨b, y, P, x :: D⟩ where
  carries := h.carries
  roots := h.roots
  pieces := by
    have hb : b.Coherent := h.coherent
    have hc : Maintains R b R b fun _ => False := .refl hb R _
    have hothers : ∀ z ∈ C₁ ++ D₁, ∀ ss, Piece m R b (z ∈ D₁ ∧ b.Walked z) z ss →
        Piece m R b (z ∈ x :: D₁ ∧ b.Walked z) z ss := fun z hz ss hpz => hpz.carried hb hc id (h.done_of (.refl hb) hz)
    rw [hwhole, List.append_cons C₁]
    exact ((h₁.mono fun z hz => hothers z (List.mem_append_left _ hz)).append
      (.single (hx.carried hb hc id fun _ => trivial))).append (h₂.mono fun z hz => hothers z (List.mem_append_right _ hz))
  order := by simpa using h.order
  done := congrArg (x :: ·) h.done
  slots := h.slots
  fresh := h.fresh
  recent z hz := h.recent z (List.mem_append_left _ hz)
  gone := h.gone

/-- An operation gives way to others that stand for the same shares. -/
theorem expanded {ss₁ ss ss₂ : List Memory.Share} {R' : ValueId → Face → List Nat → Prop} {p : Point}
    (h : Spreads m R₀ o k s R X (C₁ ++ x :: D₁) D₁ ⟨b, y, P ++ [x], D⟩) (h₀ : s.body.Coherent)
    (hwhole : m.shares [] "" false m.dataType = ss₁ ++ ss ++ ss₂)
    (h₁ : StandFor (fun x => Piece m R b (x ∈ D₁ ∧ b.Walked x) x) C₁ ss₁) (hop : b.op? x = some op)
    (hk : op.kind.blocks = []) (h₂ : StandFor (fun x => Piece m R b (x ∈ D₁ ∧ b.Walked x) x) D₁ ss₂)
    (hs : b.slotsOf kx = A ++ x :: B) (hD : Dealt m R b x kx A B (· ∈ C₁ ++ x :: D₁) (· = x) R' N ss ⟨b', p⟩)
    (hN : b'.slotsOf kx = A ++ N ++ x :: B) :
    Spreads m R₀ o k s R' X (C₁ ++ N ++ x :: D₁) (x :: D₁) ⟨b', y', P ++ N, x :: D⟩ := by
  have hb : b.Coherent := h.coherent
  obtain ⟨rfl, rfl, A', B', rfl, rfl⟩ := h.cut hs
  refine
    { carries := h.carries.trans hD.carries h₀ id (fun hz => hz ▸ h.recent x (by simp))
      roots := hD.roots.mono fun z hz => by
        simp only [List.mem_append, List.mem_cons] at hz ⊢
        tauto
      pieces := ?_
      order := by simp
      done := congrArg (x :: ·) h.done
      slots := ⟨A', B', by simpa using hN⟩
      fresh := fun z hz => ?_
      recent := fun z hz => ?_
      gone := h.gone_of_edited hD.carries.edited }
  · rw [hwhole]
    refine h₁.expand h₂ (fun z hz ss hpz => hpz.carried hb hD.carries (h.ne_of_mem hz) (h.done_of hD.carries.edited hz))
      (hD.pieces.mono fun z hz ss hpz => ?_) ?_
    · -- what was just made is not done
      have hc : Maintains R' b' R' b' fun _ => False := .refl hD.carries.edited.coherent R' _
      refine hpz.carried hD.carries.edited.coherent hc id fun ⟨hmem, _⟩ => ?_
      have hsome : (b.op? z).isSome := h.isSome_op? (List.mem_append_right _ hmem)
      rw [hD.placed.fresh z hz] at hsome
      cases hsome
    · obtain ⟨op', hop', hk', -⟩ := hD.carries.edited.op? hop
      exact .none hop' (by rw [hk', hk]) (.inl (hD.erased rfl hop'))
  · have hcases : z ∈ C₁ ++ x :: D₁ ∨ z ∈ N := by
      simp only [List.mem_append, List.mem_cons] at hz ⊢
      tauto
    exact hcases.elim (h.fresh z) fun hz => h.fresh_of_edited (hD.placed.fresh z hz)
  · rcases List.mem_append.1 hz with hz | hz
    · exact h.recent z (List.mem_append_left _ hz)
    · exact .inr (h.fresh_of_edited (hD.placed.fresh z hz))

/-- One of the operations in place of the memory is lowered by one layer. -/
theorem piece_runs (hkeep : cx.options.preserveAggregate = false) (hpassive : m.dataType.passive)
    (h : Spreads m R₀ o k s R X (C₁ ++ x :: D₁) D₁ ⟨t.builder.body, t.symbols, P ++ [x], D⟩) (h₀ : s.body.Coherent)
    (hop : t.builder.body.op? x = some op) (hw : t.builder.body.Walked x)
    (hs : t.builder.body.slotsOf kx = A ++ x :: B) (hp : t.builder.point = ⟨kx, A.length⟩) :
    Runs False (Lower.step cx x op.kind) t fun replaced t' =>
      Ends False (if replaced then t'.builder.body.eraseOp x else .ok t'.builder.body) fun b' => ∀ H N,
        b'.slotsOf kx = A ++ H ++ x :: B → Unfolds b' H N →
        ∃ R' C', Spreads m R₀ o k s R' X C' (x :: D₁) ⟨b', t'.symbols, P ++ N, x :: D⟩ := by
  have hb : t.builder.body.Coherent := h.coherent
  obtain ⟨ss₁, ss, ss₂, hwhole, h₁, hx, h₂⟩ := h.pieces.middle
  have hpiece : Piece m R t.builder.body False x ss :=
    hx.carried (E := fun _ => False) hb (.refl hb R _) id False.elim
  have he := erased_of_stands hop hw.stands
  refine (hpiece.step_runs hkeep hpassive hb h.roots hs hp hop he).mono fun replaced t' hout => ?_
  cases replaced with
  | false =>
    obtain ⟨rfl, hx'⟩ := hout
    refine .ok fun H N hH hN => ⟨R, C₁ ++ x :: D₁, ?_⟩
    obtain rfl : H = [] := by simpa [hs] using hH
    cases hN
    rw [List.append_nil]
    exact h.kept hwhole h₁ hx' h₂
  | true =>
    obtain ⟨R', N', hdealt⟩ := hout
    obtain ⟨op', hop', hk⟩ := hpiece.exists_op
    obtain rfl := Option.some.inj (hop.symm.trans hop')
    refine (hdealt.finished hop hk).mono fun b' ⟨R'', hD⟩ H N hH hN => ⟨R'', C₁ ++ N ++ x :: D₁, ?_⟩
    obtain ⟨rfl, rfl⟩ := hD.slots_eq hH hN
    exact h.expanded h₀ hwhole h₁ hop hk h₂ hs hD hH

end Piece

end Spreads

/-! ### The whole walk -/

/-- At `t` the memory is the next to be reached. -/
structure Meets (cx : Context) (m : Memory) (b₀ : Body) (op₀ : Operation) (o : OpId) (start t : Moment) : Prop where
  reached : Reaches cx start t
  awaits : Awaits m b₀ op₀ o t
  last : ∃ P, t.pending = P ++ [o]
  nodup : t.pending.Nodup
  closed : t.body.Closed t.pending

/-- The memory is pending, or it was reached and gave way. -/
def Distributes (cx : Context) (m : Memory) (b₀ : Body) (op₀ : Operation) (o : OpId) (start s : Moment) : Prop :=
  Awaits m b₀ op₀ o s ∧ Reaches cx start s ∨ ∃ t R X C D₁, Meets cx m b₀ op₀ o start t ∧ Reaches cx t s ∧
    Spreads m (op₀.Ports []) o op₀.block t R X C D₁ s

/-- What is known of a walk that begins with `b₀`. -/
def Known (cx : Context) (E : OpId → Prop) (b₀ b : Body) (y : Symbols) (_ : OpId → Nat) (P D : List OpId) : Prop :=
  b.Tidy E P D ∧ Frame.Stage cx b₀ b y P D

/-- Blocks that a walk comes past at first stay so. -/
theorem exposed_of_edited {E : OpId → Prop} {P' D' : List OpId} (h₀ : b₀.Tidy E P D) (h : b.Tidy E P' D')
    (he : b₀.Edited b) (hk : b₀.Exposed k) : b.Exposed k := by
  have hstay : b₀.GuardsStay b := ⟨fun {x op} hop hk hex => by
    obtain ⟨op', hop', hkind, -, hblock, -⟩ := he.op? hop
    refine ⟨op', hop', by rw [hkind], hblock, ?_⟩
    cases he' : op'.erased with
    | false => rfl
    | true =>
      have hE := (h.guards hop' (hkind ▸ hk)).1 he'
      rw [(h₀.guards hop hk).2 hE] at hex
      cases hex⟩
  exact hstay.exposed h₀.coherent h.coherent hk

/-- An operation that stood and was walked at first is walked as long as it stands. -/
theorem walked_of_edited {E : OpId → Prop} {P' D' : List OpId} (h₀ : b₀.Tidy E P D) (h : b.Tidy E P' D')
    (he : b₀.Edited b) (hw : b₀.Walked o) (hop₀ : b₀.op? o = some op₀) (hs : b.stands o) : b.Walked o := by
  obtain ⟨op, hop, -, -, hblock, -⟩ := he.op? hop₀
  have hslot : o ∈ b.slotsOf op₀.block := hblock ▸ h.coherent.mem_slotsOf hop (erased_of_stands hop hs)
  have hk := hw.exposed h₀.coherent (h₀.coherent.mem_slotsOf hop₀ (erased_of_stands hop₀ hw.stands))
  exact (exposed_of_edited h₀ h he hk).walked hslot hs

/-- Everything that a walk does keeps this. -/
theorem Distributes.heeds {E : OpId → Prop} {start : Moment} (h₀ : b₀.Tidy E L []) (hop₀ : b₀.op? o = some op₀)
    (hw₀ : b₀.Walked o) (hk₀ : op₀.kind = .mem m) (hkeep : cx.options.preserveAggregate = false)
    (hpassive : m.dataType.passive) (hg : m.dataType.isGround = false) :
    Heeds cx (Known cx E b₀) (Distributes cx m b₀ op₀ o start) where
  skip {b y R P D x op L} hI hS hop he hL := by
    have hskipped := hI.1.coherent.not_walked hop he hL
    rcases hS with ⟨ha, hr⟩ | ⟨t, R', X, C, D₁, ht, hr, hs⟩
    · refine .inl ⟨{ ha with pending := ?_ }, hr.tail (.skip hop he hL)⟩
      refine (List.mem_append.1 ha.pending).resolve_right fun hmem => ?_
      exact hskipped o hmem (walked_of_edited h₀ hI.1 ha.carries.edited hw₀ hop₀ ha.stands)
    · exact .inr ⟨t, R', X, C, _, ht, hr.tail (.skip hop he hL), hs.skip hskipped⟩
  pass {b y R P D x op L} hI hS hop hk hL := by
    rcases hS with ⟨ha, hr⟩ | ⟨t, R', X, C, D₁, ht, hr, hs⟩
    · refine .inl ⟨{ ha with pending := ?_ }, hr.tail (.pass hop hk hL)⟩
      refine (List.mem_append.1 ha.pending).resolve_right fun hmem => hk ?_
      obtain rfl := List.mem_singleton.1 hmem
      obtain ⟨op', hop', hkind, -⟩ := ha.carries.edited.op? hop₀
      rw [Option.some.inj (hop.symm.trans hop'), hkind, hk₀]
      rfl
    · exact .inr ⟨t, R', X, C, _, ht, hr.tail (.pass hop hk hL), hs.pass hop hk⟩
  step {t R P D x op k A B} hI hS hop hw hk hs hp := by
    have hb : t.builder.body.Coherent := hI.1.coherent
    rcases hS with ⟨ha, hr⟩ | ⟨s, R', X, C, D₁, hm, hr, hspreads⟩
    · by_cases hxo : x = o
      · -- the memory is reached
        subst hxo
        obtain rfl : k = op₀.block := by
          obtain ⟨op', hop', -, -, hblock, -⟩ := ha.carries.edited.op? hop₀
          obtain ⟨op'', hop'', hk''⟩ := hb.op?_of_mem_slotsOf (o := x) (k := k) (by simp [hs])
          rw [← hk'', ← hblock, Option.some.inj (hop''.symm.trans hop')]
        have hnd := (List.nodup_append.1 hI.1.nodup).1
        refine (ha.reached_runs hop₀ hk₀ hkeep hpassive hg hop hs hp).mono fun _ t' hend => hend.mono
          fun b' h H N hH hN hnext => ?_
        obtain ⟨R', C, hspreads⟩ := h H N hH hN
        exact .inr ⟨_, R', P, C, [], ⟨hr, ha, ⟨P, rfl⟩, hnd, hI.2.1.closed⟩, .single hnext, hspreads⟩
      · exact (ha.roots.step_runs hb hxo hop hk hs hp).mono fun _ t' hend => hend.mono fun b' hpassed H N _ _ hnext =>
          .inl ⟨ha.passed h₀.coherent hop₀ hk₀ hxo hpassed, hr.tail hnext⟩
    · have h₁ : s.body.Coherent := hm.awaits.carries.edited.coherent
      have horder : P ++ x :: D₁ = X ++ C := by simpa using hspreads.order
      rcases append_cons_eq_append horder with ⟨X', -, rfl⟩ | ⟨C₁, -, rfl⟩
      · have hxC : x ∉ C := fun hmem => by
          have hnd := hI.1.nodup
          rw [show D = _ from hspreads.done, List.append_assoc, List.nodup_append] at hnd
          have hxD : x ∉ X' ++ C ++ o :: s.done := (List.nodup_cons.1 hnd.2.1).1
          exact hxD (by simp [hmem])
        refine (hspreads.roots.step_runs hb hxC hop hk hs hp).mono fun _ t' hend => hend.mono
          fun b' hpassed H N hH hN hnext => ?_
        obtain ⟨X'', h⟩ := hspreads.passed h₁ hw hxC t'.symbols hs hpassed hH hN
        exact .inr ⟨s, R', X'', C, _, hm, hr.tail hnext, h⟩
      · refine (hspreads.piece_runs hkeep hpassive h₁ hop hw hs hp).mono fun _ t' hend => hend.mono
          fun b' h H N hH hN hnext => ?_
        obtain ⟨R'', C', h⟩ := h H N hH hN
        exact .inr ⟨s, R'', X, C', _, hm, hr.tail hnext, h⟩

end Moment

end Scalarize
