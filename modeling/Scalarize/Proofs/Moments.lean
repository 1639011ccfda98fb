import Mathlib.Logic.Relation
import Scalarize.Proofs.Edits.Walk

/-!
# Moments of a walk

* `Moment`, `Moment.Next` : what a walk has to go on with, and how it goes on;
* `Moment.Reaches` : what is left after some more operations were reached;
* `Heeds`, `Stages.heed` : a property of moments, which may speak of earlier ones, holds throughout the walk.
-/

namespace Scalarize

open Body Lower

/-- A body with its symbols, the operations that are pending and those that are done. -/
structure Moment where
  body : Body
  symbols : Symbols
  pending : List OpId
  done : List OpId

namespace Moment

/-- The last of the pending operations is reached. An erased operation is passed over with all that it guards; a guard is
left as it is once all that it guards is done; any other operation is lowered by one layer, and what stands in front of it
then is pending. -/
inductive Next (cx : Context) : Moment → Moment → Prop
  | skip {b : Body} {y : Symbols} {P D L : List OpId} {o : OpId} {op : Operation} (hop : b.op? o = some op)
      (he : op.erased) (hL : Unfolds b (b.inner o) L) : Next cx ⟨b, y, P ++ o :: L, D⟩ ⟨b, y, P, o :: (L ++ D)⟩
  | pass {b : Body} {y : Symbols} {P D L : List OpId} {o : OpId} {op : Operation} (hop : b.op? o = some op)
      (hk : op.kind.blocks ≠ []) (hL : Unfolds b (b.inner o) L) :
      Next cx ⟨b, y, P ++ [o], L ++ D⟩ ⟨b, y, P, o :: (L ++ D)⟩
  | step {t t' : LowerState} {b : Body} {P D A B H N : List OpId} {o : OpId} {op : Operation} {k : BlockId}
      {replaced : Bool} (hop : t.builder.body.op? o = some op) (hw : t.builder.body.Walked o) (hk : op.kind.blocks = [])
      (hs : t.builder.body.slotsOf k = A ++ o :: B) (hp : t.builder.point = ⟨k, A.length⟩)
      (hrun : (Lower.step cx o op.kind).run t = .ok (replaced, t'))
      (hend : (if replaced then t'.builder.body.eraseOp o else .ok t'.builder.body) = .ok b)
      (hH : b.slotsOf k = A ++ H ++ o :: B) (hN : Unfolds b H N) :
      Next cx ⟨t.builder.body, t.symbols, P ++ [o], D⟩ ⟨b, t'.symbols, P ++ N, o :: D⟩

/-- Some more operations are reached. -/
abbrev Reaches (cx : Context) : Moment → Moment → Prop := Relation.ReflTransGen (Next cx)

end Moment

/-- A property `S` of moments is kept by everything that a walk does where `Inv` holds. -/
structure Heeds (cx : Context) (Inv : Stage) (S : Moment → Prop) : Prop where
  skip : ∀ {b y R P D o op L}, Inv b y R (P ++ o :: L) D → S ⟨b, y, P ++ o :: L, D⟩ → b.op? o = some op → op.erased →
    Unfolds b (b.inner o) L → S ⟨b, y, P, o :: (L ++ D)⟩
  pass : ∀ {b y R P D o op L}, Inv b y R (P ++ [o]) (L ++ D) → S ⟨b, y, P ++ [o], L ++ D⟩ → b.op? o = some op →
    op.kind.blocks ≠ [] → Unfolds b (b.inner o) L → S ⟨b, y, P, o :: (L ++ D)⟩
  step : ∀ {t : LowerState} {R P D o op k A B}, Inv t.builder.body t.symbols R (P ++ [o]) D →
    S ⟨t.builder.body, t.symbols, P ++ [o], D⟩ → t.builder.body.op? o = some op → t.builder.body.Walked o →
    op.kind.blocks = [] → t.builder.body.slotsOf k = A ++ o :: B → t.builder.point = ⟨k, A.length⟩ →
    Runs False (Lower.step cx o op.kind) t fun replaced t' =>
      Ends False (if replaced then t'.builder.body.eraseOp o else .ok t'.builder.body) fun b => ∀ H N,
        b.slotsOf k = A ++ H ++ o :: B → Unfolds b H N →
        Moment.Next cx ⟨t.builder.body, t.symbols, P ++ [o], D⟩ ⟨b, t'.symbols, P ++ N, o :: D⟩ →
        S ⟨b, t'.symbols, P ++ N, o :: D⟩

/-- What is kept by everything that a walk does holds throughout. -/
theorem Stages.heed {cx : Context} {Inv : Stage} {S : Moment → Prop} (h : Stages False cx Inv) (hS : Heeds cx Inv S) :
    Stages False cx fun b y R P D => Inv b y R P D ∧ S ⟨b, y, P, D⟩ where
  coherent hI := h.coherent hI.1
  nodup hI := h.nodup hI.1
  known hI := h.known hI.1
  guards := by
    obtain ⟨E, hE⟩ := h.guards
    exact ⟨E, fun hI => hE hI.1⟩
  nested hI := h.nested hI.1
  skip hI hop he hL := ⟨h.skip hI.1 hop he hL, hS.skip hI.1 hI.2 hop he hL⟩
  pass hI hop hk hL := ⟨h.pass hI.1 hop hk hL, hS.pass hI.1 hI.2 hop hk hL⟩
  step {t R P D o op k A B} hI hop hw hblocks hs hp := by
    refine (((h.step hI.1 hop hw hblocks hs hp).and (hS.step hI.1 hI.2 hop hw hblocks hs hp)).with_ok).mono ?_
    rintro replaced t' ⟨hrun, ⟨H, N, R', hslots, hH, hlocal, hnew, hR, hlt, hstep⟩, hend⟩
    refine ⟨H, N, R', hslots, hH, hlocal, hnew, hR, hlt, ?_⟩
    refine ((hstep.and hend).with_ok).mono fun b ⟨hb, ⟨hout, hI'⟩, hS'⟩ => ⟨hout, hI', ?_⟩
    -- what stands in front of the operation is the same once it is erased
    have hslots' : b.slotsOf k = A ++ H ++ o :: B := (hout.slotsOf k).trans hslots
    have hH' := hout.unfolds hH
    exact hS' H N hslots' hH' (.step hop hw hblocks hs hp hrun hb hslots' hH')

end Scalarize
