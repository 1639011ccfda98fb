import Scalarize.Proofs.Body.Walked
import Scalarize.Proofs.Built
import Scalarize.Proofs.Edits

/-!
# Bodies that edits lead to

* `Body.Edit`, `Body.Reachable` : the edits of a body, and what any number of them makes of the empty
  body;
* `Body.Reachable.coherent` : the tables of every such body agree;
* `Coherent.compact`, `Coherent.walk_compact` : compacting keeps the tables in agreement, and what a walk
  lists.
-/

namespace Scalarize

open Body

/-- One edit of a body. -/
inductive Body.Edit : Body → Body → Prop
  | insertArgument {b b' : Body} {i : Nat} {ty : Ty} {v : ValueId}
      (h : b.insertArgument i ty = .ok (v, b')) : Edit b b'
  | removeArgument {b b' : Body} {i : Nat} {v : ValueId} (h : b.removeArgument i = .ok (v, b')) :
      Edit b b'
  /-- A typed building function. -/
  | call {s s' : Builder} (c : Build.Call) (h : c.run.run s = .ok ((), s')) : Edit s.body s'.body
  /-- An operation made from its parts, whatever their types are. -/
  | create {s s' : Builder} {kind : OpKind} {vs : List ValueId} {tys : List Ty} {o : OpId}
      (hk : kind.blocks = []) (h : (Build.create kind vs tys).run s = .ok (o, s')) : Edit s.body s'.body
  | declare (b : Body) (o : OpId) (f : Decl → Decl) : Edit b (b.modifyDecl o f)
  | dropOperands {b b' : Body} {o : OpId} (h : b.dropOperands o = .ok b') : Edit b b'
  | replaceAllUses {b b' : Body} {old new : ValueId} (h : b.replaceAllUses old new = .ok b') : Edit b b'
  | eraseOp {b b' : Body} {o : OpId} (h : b.eraseOp o = .ok b') : Edit b b'
  | compact (b : Body) : Edit b b.compact

/-- Edits lead from the empty body to this one. -/
inductive Body.Reachable : Body → Prop
  | empty : Reachable {}
  | edit {b b' : Body} (h : Reachable b) (he : b.Edit b') : Reachable b'

namespace Body

variable {b b' : Body} {o x : OpId} {k : BlockId}

/-! ## Compacting -/

theorem block?_compact (b : Body) (k : BlockId) : b.compact.block? k =
    (b.block? k).map fun blk => { blk with slots := blk.slots.filter b.stands } := by
  unfold block? compact
  rw [Array.getElem?_map]

theorem block?_of_compact {blk : Block} (hk : b.compact.block? k = some blk) :
    ∃ blk₀, b.block? k = some blk₀ ∧ blk.slots = blk₀.slots.filter b.stands ∧ blk.parent = blk₀.parent := by
  rw [block?_compact] at hk
  obtain ⟨blk₀, hblk₀, rfl⟩ := Option.map_eq_some_iff.1 hk
  exact ⟨blk₀, hblk₀, rfl, rfl⟩

@[simp] theorem op?_compact (b : Body) (o : OpId) : b.compact.op? o = b.op? o := rfl

@[simp] theorem value?_compact (b : Body) (v : ValueId) : b.compact.value? v = b.value? v := rfl

theorem Coherent.compact (h : b.Coherent) : b.compact.Coherent where
  toExact := h.toExact.blocks _
  origin := h.origin
  slot {o op} hop he := by
    obtain ⟨blk, hblk, hmem⟩ := h.slot hop he
    refine ⟨{ blk with slots := blk.slots.filter b.stands }, ?_, List.mem_filter.2 ⟨hmem, ?_⟩⟩
    · rw [block?_compact, hblk]
      rfl
    · rw [op?_compact] at hop
      simp [stands_eq, hop, he]
  slots hk ho := by
    obtain ⟨blk, hblk, hslots, -⟩ := block?_of_compact hk
    rw [hslots] at ho
    exact h.slots hblk (List.mem_filter.1 ho).1
  nodup_slots hk := by
    obtain ⟨blk, hblk, hslots, -⟩ := block?_of_compact hk
    rw [hslots]
    exact (h.nodup_slots hblk).filter _
  args := h.args
  nodup_args := h.nodup_args
  guards hop hk := by
    obtain ⟨hlt, blk, hblk, hpar⟩ := h.guards hop hk
    refine ⟨hlt, { blk with slots := blk.slots.filter b.stands }, ?_, hpar⟩
    rw [block?_compact, hblk]
    rfl
  nodup_guards := h.nodup_guards
  parent hk hpar := by
    obtain ⟨blk, hblk, -, hpar'⟩ := block?_of_compact hk
    exact h.parent hblk (hpar' ▸ hpar)
  entry := by
    obtain ⟨blk, hblk, hpar⟩ := h.entry
    refine ⟨{ blk with slots := blk.slots.filter b.stands }, ?_, hpar⟩
    rw [block?_compact, hblk]
    rfl
  guarded hk hne := by
    obtain ⟨blk, hblk, -, hpar⟩ := block?_of_compact hk
    rw [hpar]
    exact h.guarded hblk hne

/-- Compacting does not change what stands, nor in which order. -/
theorem outlineWith_compact (b : Body) (n : Nat) (k : BlockId) :
    b.compact.outlineWith n k = b.outlineWith n k := by
  induction n generalizing k with
  | zero => rfl
  | succ n ih =>
    have hkind : b.compact.kind? = b.kind? := rfl
    simp only [outlineWith, live_compact, ih, hkind]

theorem walk_compact (b : Body) : b.compact.walk = b.walk := by
  have hsize : b.compact.blocks.size = b.blocks.size := by simp [compact]
  unfold walk outline
  rw [hsize, outlineWith_compact]

/-! ## Edits -/

/-- Every edit keeps the tables in agreement. -/
theorem Edit.coherent (he : Edit b b') (h : b.Coherent) : b'.Coherent := by
  cases he with
  | insertArgument he =>
    obtain ⟨hr, hv, hargs, -⟩ := (insertArgument_ends (nofun : False → _)).of_ok he
    exact hr.coherent_insert h (hv ▸ hargs)
  | removeArgument he =>
    obtain ⟨hr, hargs⟩ := (removeArgument_ends (nofun : False → _)).of_ok he
    exact hr.coherent_erase h hargs
  | create hk he =>
    obtain ⟨b, hc, hs⟩ := (Build.create_any hk _ _).of_ok he
    obtain rfl := congrArg Builder.body hs
    exact h.created hc
  | call c he =>
    rcases (Build.Call.run_ends c).of_ok he with ⟨_, _, _, _, _, hc, -⟩ | hs
    · exact h.created hc
    · exact (show _ = _ from hs) ▸ h
  | declare => exact h.modifyDecl _ _
  | dropOperands he => exact h.dropped rfl ((dropOperands_ends (nofun : False → _)).of_ok he)
  | replaceAllUses he =>
    rcases (replaceAllUses_any h.toExact).of_ok he with rfl | ⟨hne, hv, hw, hr⟩
    · exact h
    · exact h.replaced hr hv hw hne
  | eraseOp he => exact (eraseOp_keeps (fun hb hd => hb.dropped rfl hd) h).of_ok he
  | compact => exact h.compact

/-- Edits lead to what calls of typed building functions make of the body of a module. -/
theorem Reachable.ofPorts {types : List Ty} (h : Body.ofPorts types = .ok b) : Reachable b := by
  have hends : Ends False (Body.ofPorts types) Reachable :=
    Ends.foldlM (fun _ b => Reachable b) types .empty fun _ ty _ b _ hb =>
      .map (.intro (fun r hr => .edit hb (.insertArgument hr)) nofun)
  exact hends.of_ok h

/-- The tables of every body that edits lead to agree. -/
theorem Reachable.coherent (h : Reachable b) : b.Coherent := by
  induction h with
  | empty => exact Sound.empty.coherent
  | edit _ he ih => exact he.coherent ih

end Body

theorem Builder.Built.reachable {types : List Ty} {s : Builder} (h : Builder.Built types s) :
    s.body.Reachable := by
  induction h with
  | start _ h => exact .ofPorts h
  | call c _ hc ih => exact .edit ih (.call c hc)

/-- Edits lead to the body of the module. -/
def Module.Reachable (m : Module) : Prop := ∀ {b}, m.body = some b → b.Reachable

theorem Module.Built.reachable {m : Module} (h : m.Built) : m.Reachable := fun hb => by
  obtain ⟨p, hp⟩ := h hb
  exact hp.reachable

/-- Edits lead to the bodies of all modules. -/
def Circuit.Reachable (c : Circuit) : Prop := ∀ m ∈ c.modules, m.Reachable

theorem Circuit.Built.reachable {c : Circuit} (h : c.Built) : c.Reachable := fun m hm =>
  Module.Built.reachable (h m hm)

end Scalarize
