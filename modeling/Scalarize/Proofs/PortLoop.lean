import Mathlib.Algebra.Group.Action.Defs
import Mathlib.Algebra.Order.BigOperators.Group.List
import Mathlib.Algebra.Order.Ring.Nat
import Scalarize.Proofs.Edits.Ports
import Scalarize.Proofs.Gauge

/-!
# The loop over ports

Ports are split by a loop over their positions, which stays at a position until the port there stays whole.

* `Lower.splitLayer` : splits one port by one layer; `Lower.portLoop` : a number of rounds;
* `Ty.rounds` : rounds that a port of a type takes, at most;
* `portLoop_eq_ports` : after so many rounds the loop is over, and all ports are split.
-/

namespace Scalarize

/-- Rounds of the loop over ports for a port of the type, with all its parts, at most. -/
def Ty.rounds (t : Ty) : Nat := (t.breadth + 1) ^ t.depth

theorem Ty.rounds_pos (t : Ty) : 0 < t.rounds := Nat.pow_pos (Nat.succ_pos _)

/-- The parts of a type take fewer rounds than the type. -/
theorem Ty.PartsOf.rounds_lt {t : Ty} {parts : List Part} (h : PartsOf t parts) :
    (parts.map (·.ty.rounds)).sum < t.rounds := by
  have hlen := h.length_le
  cases hd : t.depth with
  | zero =>
    obtain rfl : parts = [] := List.eq_nil_iff_forall_not_mem.2 fun p hp => by
      have := h.depth_lt hp
      omega
    exact t.rounds_pos
  | succ d =>
    have hpart : ∀ n ∈ parts.map (·.ty.rounds), n ≤ (t.breadth + 1) ^ d := by
      intro n hn
      obtain ⟨p, hp, rfl⟩ := List.mem_map.1 hn
      have hlt := h.depth_lt hp
      have hbreadth := Ty.breadth_le_of_child? (h.child_index hp)
      exact Nat.le_trans (Nat.pow_le_pow_left (Nat.succ_le_succ hbreadth) _)
        (Nat.pow_le_pow_right (Nat.succ_pos _) (by omega))
    have hsum := List.sum_le_card_nsmul _ _ hpart
    rw [List.length_map, smul_eq_mul] at hsum
    have hmul := Nat.mul_le_mul_right ((t.breadth + 1) ^ d) hlen
    have hpos : 0 < (t.breadth + 1) ^ d := Nat.pow_pos (Nat.succ_pos _)
    show _ < (t.breadth + 1) ^ t.depth
    rw [hd, Nat.pow_succ, Nat.mul_succ, Nat.mul_comm]
    omega

namespace Lower

/-! ## Rounds -/

/-- Splits a port at a position by one layer, and the argument of the body with it. -/
def splitLayer (p : Port) (i : Nat) (parts : List Part) : StateT PortState (Except Failure) (List Port) := do
  let new ← parts.mapM fun part => do
    let (port, symbols) ← p.narrow part (← get).symbols
    modify fun s => { s with symbols }
    return port
  if let some b := (← get).body then
    let b ← b.splitArgument i (parts.map (·.ty))
    modify fun s => { s with body := some b }
  return new

/-- Runs a number of rounds of the loop over ports, from a position. Returns the ports once it is over. -/
def portLoop (keep : Bool) : Nat → Nat → List Port → StateT PortState (Except Failure) (Option (List Port))
  | 0, _, _ => return none
  | n + 1, i, ps =>
    match ps[i]? with
    | none => return some ps
    | some p => do
      match ← p.ty.peel keep with
      | none => portLoop keep n (i + 1) ps
      | some parts => do
        let new ← splitLayer p i parts
        portLoop keep n i (ps.take i ++ new ++ ps.drop (i + 1))

variable {keep : Bool} {fuel : Nat} {p : Port} {s : PortState} {A B : List Port}

theorem splitPort_error {e : Failure} (h : p.ty.peel keep = .error e) :
    (splitPort keep (fuel + 1) p A.length).run s = .error e := by
  rw [splitPort, h]
  rfl

theorem splitPort_whole (h : p.ty.peel keep = .ok none) : (splitPort keep (fuel + 1) p A.length).run s = .ok ([p], s) := by
  rw [splitPort, h]
  rfl

theorem splitPort_parts {parts : List Part} (h : p.ty.peel keep = .ok (some parts)) :
    (splitPort keep (fuel + 1) p A.length).run s =
      (splitLayer p A.length parts >>= fun new => new.foldlM (fun done port => do
        return done ++ (← splitPort keep fuel port (A.length + done.length))) []).run s := by
  rw [splitPort, h, splitLayer, bind_assoc]
  rw [show (liftM (Except.ok (some parts)) : StateT PortState (Except Failure) (Option (List Part))) =
    pure (some parts) from rfl, pure_bind]
  refine congrArg (fun m : StateT PortState (Except Failure) (List Port) => m.run s)
    (bind_congr fun new => ?_)
  rw [bind_assoc]
  refine bind_congr fun t => ?_
  cases t.body with
  | none => rfl
  | some b => simp only [bind_assoc, pure_bind]

/-- The ports of the parts have their types. -/
theorem splitLayer_runs {parts : List Part} (h : p.ty.peel keep = .ok (some parts)) :
    Runs False (splitLayer p A.length parts) s fun new _ => new.map (·.ty) = parts.map (·.ty) :=
  splitLayer_any (J := fun _ _ => True) (B := []) ⟨fun _ _ _ _ => trivial⟩ trivial h (f := pure)
    fun _ _ hty _ => .pure hty

theorem portLoop_error {n : Nat} {e : Failure} (h : p.ty.peel keep = .error e) :
    (portLoop keep (n + 1) A.length (A ++ p :: B)).run s = .error e := by
  rw [portLoop, List.getElem?_append_right (Nat.le_refl _), Nat.sub_self]
  dsimp only [List.getElem?_cons_zero]
  rw [h]
  rfl

theorem portLoop_whole {n : Nat} (h : p.ty.peel keep = .ok none) :
    (portLoop keep (n + 1) A.length (A ++ p :: B)).run s = (portLoop keep n (A ++ [p]).length (A ++ [p] ++ B)).run s := by
  rw [portLoop, List.getElem?_append_right (Nat.le_refl _), Nat.sub_self]
  dsimp only [List.getElem?_cons_zero]
  rw [h, List.length_append, List.append_assoc]
  rfl

theorem portLoop_parts {n : Nat} {parts : List Part} (h : p.ty.peel keep = .ok (some parts)) :
    (portLoop keep (n + 1) A.length (A ++ p :: B)).run s =
      (splitLayer p A.length parts >>= fun new => portLoop keep n A.length (A ++ new ++ B)).run s := by
  rw [portLoop, List.getElem?_append_right (Nat.le_refl _), Nat.sub_self]
  dsimp only [List.getElem?_cons_zero]
  rw [h, List.take_left]
  rw [show (A ++ p :: B).drop (A.length + 1) = B by simp]
  rfl

/-! ## Whole ports -/

/-- Within `c` rounds the loop is past the port `p`, which it splits as `f` does. -/
def PortWorks (keep : Bool) (c : Nat) (p : Port) (f : Nat → StateT PortState (Except Failure) (List Port)) : Prop :=
  ∀ (A B : List Port) (s : PortState) (n : Nat), c ≤ n → ∃ n', n ≤ n' + c ∧
    (portLoop keep n A.length (A ++ p :: B)).run s =
      (f A.length >>= fun new => portLoop keep n' (A ++ new).length (A ++ new ++ B)).run s

/-- Ports in a row. -/
theorem eachPort_works {f : Port → Nat → StateT PortState (Except Failure) (List Port)} {ps : List Port}
    (hf : ∀ p ∈ ps, PortWorks keep p.ty.rounds p (f p)) (A done B : List Port) (s : PortState) (n : Nat)
    (hn : (ps.map (·.ty.rounds)).sum ≤ n) : ∃ n', n ≤ n' + (ps.map (·.ty.rounds)).sum ∧
      (portLoop keep n (A ++ done).length (A ++ done ++ (ps ++ B))).run s =
        (ps.foldlM (fun done p => do return done ++ (← f p (A.length + done.length))) done >>= fun new =>
          portLoop keep n' (A ++ new).length (A ++ new ++ B)).run s := by
  induction ps generalizing done s n with
  | nil => exact ⟨n, Nat.le_refl _, rfl⟩
  | cons p ps ih =>
    obtain ⟨hp, hps⟩ := List.forall_mem_cons.1 hf
    rw [List.map_cons, List.sum_cons] at hn ⊢
    obtain ⟨n₁, hn₁, he₁⟩ := hp (A ++ done) (ps ++ B) s n (by omega)
    rw [List.length_append, StateT.run_bind] at he₁
    rw [List.cons_append, List.length_append, he₁]
    cases hrun : (f p (A.length + done.length)).run s with
    | error e =>
      refine ⟨n₁, by omega, ?_⟩
      rw [List.foldlM_cons, bind_assoc, bind_assoc, StateT.run_bind, hrun]
      rfl
    | ok r =>
      obtain ⟨n₂, hn₂, he₂⟩ := ih hps (done ++ r.1) r.2 n₁ (by omega)
      refine ⟨n₂, by omega, ?_⟩
      rw [List.foldlM_cons, bind_assoc, bind_assoc, StateT.run_bind, hrun]
      rw [← List.append_assoc] at he₂
      exact he₂

/-- A port with all its parts. -/
theorem splitPort_works (keep : Bool) (fuel : Nat) : ∀ {p : Port}, p.ty.depth ≤ fuel →
    PortWorks keep p.ty.rounds p (splitPort keep fuel p) := by
  induction fuel with
  | zero =>
    intro p hd A B s n hn
    have hpos := p.ty.rounds_pos
    obtain ⟨n, rfl⟩ : ∃ n₀, n = n₀ + 1 := ⟨n - 1, by omega⟩
    have hwhole : p.ty.peel keep = .ok none := by
      cases hty : p.ty with
      | ground g => exact Ty.peel_ground g keep
      | _ => exact absurd (Ty.depth_pos (by rw [hty]; rfl : p.ty.isGround = false)) (by omega)
    exact ⟨n, by omega, portLoop_whole hwhole⟩
  | succ fuel ih =>
    intro p hd A B s n hn
    have hpos := p.ty.rounds_pos
    obtain ⟨n, rfl⟩ : ∃ n₀, n = n₀ + 1 := ⟨n - 1, by omega⟩
    cases hpeel : p.ty.peel keep with
    | error e =>
      refine ⟨n, by omega, ?_⟩
      rw [portLoop_error hpeel, StateT.run_bind, splitPort_error hpeel]
      rfl
    | ok r =>
      cases r with
      | none =>
        refine ⟨n, by omega, ?_⟩
        rw [portLoop_whole hpeel, StateT.run_bind, splitPort_whole hpeel]
        rfl
      | some parts =>
        have hparts : p.ty.PartsOf parts := ((Ty.peel_ends (nofun : False → _)).of_ok hpeel).1
        have hlt := hparts.rounds_lt
        rw [portLoop_parts hpeel, StateT.run_bind]
        cases hlayer : (splitLayer p A.length parts).run s with
        | error e =>
          refine ⟨n, by omega, ?_⟩
          rw [StateT.run_bind, splitPort_parts hpeel, StateT.run_bind, hlayer]
          rfl
        | ok new =>
          have htypes := (splitLayer_runs hpeel).of_ok hlayer
          have hsum : (new.1.map (·.ty.rounds)).sum = (parts.map (·.ty.rounds)).sum := by
            have := congrArg (fun l => (l.map Ty.rounds).sum) htypes
            rw [List.map_map, List.map_map] at this
            exact this
          have heach : ∀ p' ∈ new.1, PortWorks keep p'.ty.rounds p' (splitPort keep fuel p') := by
            intro p' hp'
            obtain ⟨part, hpart, hty⟩ := List.mem_map.1 (htypes ▸ List.mem_map_of_mem hp' : p'.ty ∈ parts.map (·.ty))
            have := hparts.depth_lt hpart
            rw [show part.ty = p'.ty from hty] at this
            exact ih (by omega)
          obtain ⟨n', hn', he⟩ := eachPort_works heach A [] B new.2 n (by omega)
          refine ⟨n', by omega, ?_⟩
          rw [StateT.run_bind, splitPort_parts hpeel, StateT.run_bind, hlayer]
          rw [List.append_nil, ← List.append_assoc] at he
          exact he

/-- After so many rounds the loop is over, and all ports are split, or cannot be. -/
theorem portLoop_eq_ports (keep : Bool) (ps : List Port) {n : Nat} (hn : (ps.map (·.ty.rounds)).sum < n) :
    portLoop keep n 0 ps = some <$> ports keep ps := by
  funext s
  obtain ⟨n', hn', he⟩ := eachPort_works (fun p _ => splitPort_works keep p.ty.depth (Nat.le_refl _)) [] [] [] s n
    (Nat.le_of_lt hn)
  obtain ⟨n', rfl⟩ : ∃ n₀, n' = n₀ + 1 := ⟨n' - 1, by omega⟩
  have hover (new : List Port) : portLoop keep (n' + 1) new.length new = pure (some new) := by
    rw [portLoop, List.getElem?_eq_none (Nat.le_refl _)]
  simp only [List.nil_append, List.append_nil, List.length_nil, Nat.zero_add, hover] at he
  rw [map_eq_pure_bind]
  exact he

end Lower

end Scalarize
