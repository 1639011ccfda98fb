import Scalarize.Proofs.Walk

/-!
# The worklist

A block is lowered by a loop whose cursor runs from the last slot to the first, and forward again over what
an operation gave way to; guards are lowered within this loop. Nothing bounds the loop but what is left to be
done.

* `Lower.Task`, `Task.next` : what is left to be done, and one round of the loop;
* `Lower.work` : a number of rounds;
* `Lower.Works` : within so many rounds, tasks do what a computation does, and others are left; `Works.bind`,
  `Works.round` put such tasks together;
* `lowerOp_erased`, `next_erased` and the like : an operation in a slot, by what it is.
-/

namespace Scalarize

open Body

namespace Lower

/-! ## Rounds -/

/-- What is left to be done. -/
inductive Task where
  /-- A block is entered. -/
  | block (k : BlockId)
  /-- The slots of a block below the cursor are visited. -/
  | slots (k : BlockId) (cursor : Nat)
  /-- The blocks of a guard are lowered; the block that held so many slots before is resumed at the cursor. -/
  | resume (k : BlockId) (cursor before : Nat) (saved : Point)
  deriving DecidableEq, Repr

/-- Lowers an operation, other than a guard, by one layer. Returns how many slots were filled in front of it. -/
def layer (cx : Context) (o : OpId) (kind : OpKind) (k : BlockId) (i : Nat) : Lower Nat := do
  let saved ← point
  let before ← body (·.slotCount k)
  Build.moveTo ⟨k, i⟩
  let replaced ← step cx o kind
  Build.moveTo saved
  let after ← body (·.slotCount k)
  if replaced then change (·.eraseOp o)
  return after - before

/-- One round: what the task leaves to be done. -/
def Task.next (cx : Context) : Task → Lower (List Task)
  | .block k => do return [.slots k (← body (·.slotCount k))]
  | .slots _ 0 => return []
  | .slots k (i + 1) => do
    let o ← slot k i
    let op ← body (·.op o)
    if op.erased then return [.slots k i]
    match op.kind with
    | .when thenBlock elseBlock => do
      let saved ← point
      let before ← body (·.slotCount k)
      Build.moveTo ⟨k, i⟩
      return (OpKind.when thenBlock elseBlock).blocks.map .block ++ [.resume k i before saved]
    | kind => return [.slots k (i + (← layer cx o kind k i))]
  | .resume k i before saved => do
    Build.moveTo saved
    return [.slots k (i + ((← body (·.slotCount k)) - before))]

/-- Runs a number of rounds, or fewer if nothing is left. Returns whether nothing is left. -/
def work (cx : Context) : Nat → List Task → Lower Bool
  | _, [] => return true
  | 0, _ :: _ => return false
  | n + 1, task :: tasks => do work cx n ((← task.next cx) ++ tasks)

/-! ## What tasks do -/

/-- From `t`, within `c` rounds, the tasks do what `m` does, and `tasks'` are left. -/
def Works (cx : Context) (c : Nat) (tasks : List Task) (m : Lower Unit) (tasks' : List Task) (t : LowerState) :
    Prop :=
  ∀ rest n, c ≤ n → ∃ n', n ≤ n' + c ∧
    (work cx n (tasks ++ rest)).run t = (m >>= fun _ => work cx n' (tasks' ++ rest)).run t

namespace Works

variable {cx : Context} {c c' : Nat} {tasks tasks' tasks'' : List Task} {m m' : Lower Unit} {t : LowerState}

theorem done : Works cx 0 tasks (pure ()) tasks t := fun _ n _ => ⟨n, Nat.le_refl _, rfl⟩

theorem mono (h : Works cx c tasks m tasks' t) (hc : c ≤ c') : Works cx c' tasks m tasks' t := by
  intro rest n hn
  obtain ⟨n', hn', he⟩ := h rest n (Nat.le_trans hc hn)
  exact ⟨n', by omega, he⟩

/-- Other tasks may wait. -/
theorem wait (h : Works cx c tasks m tasks' t) (others : List Task) :
    Works cx c (tasks ++ others) m (tasks' ++ others) t := by
  intro rest n hn
  rw [List.append_assoc, List.append_assoc]
  exact h (others ++ rest) n hn

theorem bind (h : Works cx c tasks m tasks' t) (h' : Runs False m t fun _ t' => Works cx c' tasks' m' tasks'' t') :
    Works cx (c + c') tasks (m >>= fun _ => m') tasks'' t := by
  intro rest n hn
  obtain ⟨n', hn', he⟩ := h rest n (by omega)
  cases hm : m.run t with
  | error e =>
    refine ⟨n', by omega, ?_⟩
    rw [he, bind_assoc, StateT.run_bind, StateT.run_bind, hm]
    rfl
  | ok r =>
    obtain ⟨n'', hn'', he'⟩ := (Ends.of_ok h' hm) rest n' (by omega)
    refine ⟨n'', by omega, ?_⟩
    rw [he, bind_assoc, StateT.run_bind, StateT.run_bind, hm]
    exact he'

/-- One round of a task, which begins as `m` does, and what it leaves to be done. -/
theorem round {α : Type} {task : Task} {p : Lower α} {l : α → List Task} {r : α → Lower Unit}
    (hnext : (task.next cx).run t = (p >>= fun a => pure (l a)).run t) (hm : m.run t = (p >>= r).run t)
    (h : Runs False p t fun a t' => Works cx c (l a) (r a) tasks' t') :
    Works cx (c + 1) [task] m tasks' t := by
  intro rest n hn
  obtain ⟨n, rfl⟩ : ∃ n₀, n = n₀ + 1 := ⟨n - 1, by omega⟩
  have hwork : (work cx (n + 1) ([task] ++ rest)).run t = (p >>= fun a => work cx n (l a ++ rest)).run t := by
    show (task.next cx >>= fun tasks => work cx n (tasks ++ rest)).run t = _
    rw [StateT.run_bind, hnext, StateT.run_bind, StateT.run_bind]
    cases p.run t <;> rfl
  rw [hwork]
  cases hp : p.run t with
  | error e =>
    refine ⟨n, by omega, ?_⟩
    rw [StateT.run_bind, StateT.run_bind, hm, StateT.run_bind, hp]
    rfl
  | ok a =>
    obtain ⟨n', hn', he⟩ := (Ends.of_ok h hp) rest n (by omega)
    refine ⟨n', by omega, ?_⟩
    rw [StateT.run_bind, StateT.run_bind, hm, StateT.run_bind, hp]
    exact he

end Works

/-! ## Rounds of each kind -/

section Kinds

variable {cx : Context} {t : LowerState} {k : BlockId} {A B : List OpId} {o : OpId} {op : Operation} {fuel : Nat}

theorem run_bind_body {α β : Type} {f : Body → Except Failure α} {a : α} (h : f t.builder.body = .ok a) (g : α → Lower β) :
    (body f >>= g).run t = (g a).run t := by
  have hf : Runs True (body f) t fun a' t' => a' = a ∧ t' = t := .body (.of_eq_ok h ⟨rfl, rfl⟩)
  obtain ⟨⟨_, _⟩, hrun, rfl, rfl⟩ := hf.exists_ok trivial
  rw [StateT.run_bind, hrun]
  rfl

theorem run_bind_point {β : Type} (g : Point → Lower β) : (point >>= g).run t = (g t.builder.point).run t := rfl

theorem run_bind_moveTo {β : Type} (p : Point) (g : Unit → Lower β) :
    ((liftM (Build.moveTo p) : Lower Unit) >>= g).run t = (g ()).run ⟨⟨t.builder.body, p⟩, t.symbols⟩ := rfl

theorem slot_eq (hs : t.builder.body.slotsOf k = A ++ o :: B) :
    (do orOutOfRange (← t.builder.body.block k).slots[A.length]?) = .ok o := by
  have h : Ends True (do orOutOfRange (← t.builder.body.block k).slots[A.length]?) (o = ·) := Stages.slot_ends hs
  obtain ⟨_, ho, rfl⟩ := h.exists_ok trivial
  exact ho

theorem slotCount_eq (hs : t.builder.body.slotsOf k = A) (hA : A ≠ []) : t.builder.body.slotCount k = .ok A.length := by
  have h : Ends True (t.builder.body.slotCount k) (A.length = ·) := Stages.slotCount_runs hs hA
  obtain ⟨_, hn, rfl⟩ := h.exists_ok trivial
  exact hn

theorem op_eq (hop : t.builder.body.op? o = some op) : t.builder.body.op o = .ok op := by
  have h : Ends True (t.builder.body.op o) (op = ·) :=
    op_ends (fun _ h => Option.some.inj (hop.symm.trans h)) fun _ => by rw [hop]; rfl
  obtain ⟨_, ho, rfl⟩ := h.exists_ok trivial
  exact ho

theorem kindOf_eq (hop : t.builder.body.op? o = some op) : t.builder.body.kindOf o = .ok op.kind := by
  have h : Ends True (t.builder.body.kindOf o) (op.kind = ·) :=
    kindOf_ends (fun _ h => congrArg Operation.kind (Option.some.inj (hop.symm.trans h))) fun _ => by rw [hop]; rfl
  obtain ⟨_, ho, rfl⟩ := h.exists_ok trivial
  exact ho

theorem lowerOp_erased (hs : t.builder.body.slotsOf k = A ++ o :: B) (hop : t.builder.body.op? o = some op)
    (he : op.erased = true) : (lowerOp cx (fuel + 1) k A.length).run t = .ok ((), t) := by
  rw [lowerOp, slot, run_bind_body (slot_eq hs), run_bind_body (op_eq hop), if_pos he]
  rfl

theorem lowerOp_plain (hs : t.builder.body.slotsOf k = A ++ o :: B) (hop : t.builder.body.op? o = some op)
    (he : op.erased = false) (hk : op.kind.blocks = []) :
    (lowerOp cx (fuel + 1) k A.length).run t =
      (layer cx o op.kind k A.length >>= fun n => eachSlot (lowerOp cx fuel) k A.length n).run t := by
  have hcount := slotCount_eq hs (by simp)
  rw [lowerOp, slot, run_bind_body (slot_eq hs), run_bind_body (op_eq hop), if_neg (by simp [he]), layer]
  simp only [bind_assoc]
  rw [run_bind_point, run_bind_point, run_bind_body hcount, run_bind_body hcount, run_bind_moveTo, run_bind_moveTo,
    run_bind_body (t := ⟨⟨t.builder.body, ⟨k, A.length⟩⟩, t.symbols⟩) (kindOf_eq hop)]
  split
  next hkind =>
    rw [hkind] at hk
    cases hk
  refine congrArg (fun m : Lower Unit => m.run _) (bind_congr fun replaced => bind_congr fun _ => bind_congr fun after => ?_)
  cases replaced with
  | false => rfl
  | true => rw [if_pos rfl, if_pos rfl, bind_assoc]; rfl

theorem lowerOp_guard (hs : t.builder.body.slotsOf k = A ++ o :: B) (hop : t.builder.body.op? o = some op)
    (he : op.erased = false) (hk : op.kind.blocks ≠ []) :
    (lowerOp cx (fuel + 1) k A.length).run t = (do
      Build.moveTo ⟨k, A.length⟩
      op.kind.blocks.forM fun k => do eachSlot (lowerOp cx fuel) k 0 (← body (·.slotCount k))
      Build.moveTo t.builder.point
      let after ← body (·.slotCount k)
      eachSlot (lowerOp cx fuel) k A.length (after - (A ++ o :: B).length) : Lower Unit).run t := by
  have hcount := slotCount_eq hs (by simp)
  rw [lowerOp, slot, run_bind_body (slot_eq hs), run_bind_body (op_eq hop), if_neg (by simp [he])]
  rw [run_bind_point, run_bind_body hcount, run_bind_moveTo,
    run_bind_body (t := ⟨⟨t.builder.body, ⟨k, A.length⟩⟩, t.symbols⟩) (kindOf_eq hop)]
  split
  next hkind => rfl
  next hne =>
    refine absurd ?_ hk
    cases hkind : op.kind <;> first | rfl | exact absurd hkind (hne _ _)

theorem next_block (hcount : t.builder.body.slotCount k = .ok fuel) :
    (Task.next cx (.block k)).run t = .ok ([.slots k fuel], t) := by
  rw [Task.next, run_bind_body hcount]
  rfl

theorem next_erased (hs : t.builder.body.slotsOf k = A ++ o :: B) (hop : t.builder.body.op? o = some op)
    (he : op.erased = true) : (Task.next cx (.slots k (A.length + 1))).run t = .ok ([.slots k A.length], t) := by
  rw [Task.next, slot, run_bind_body (slot_eq hs), run_bind_body (op_eq hop), if_pos he]
  rfl

theorem next_plain (hs : t.builder.body.slotsOf k = A ++ o :: B) (hop : t.builder.body.op? o = some op)
    (he : op.erased = false) (hk : op.kind.blocks = []) :
    (Task.next cx (.slots k (A.length + 1))).run t =
      (layer cx o op.kind k A.length >>= fun n => pure [.slots k (A.length + n)]).run t := by
  rw [Task.next, slot, run_bind_body (slot_eq hs), run_bind_body (op_eq hop), if_neg (by simp [he])]
  split
  next hkind =>
    rw [hkind] at hk
    cases hk
  next => rfl

theorem next_guard (hs : t.builder.body.slotsOf k = A ++ o :: B) (hop : t.builder.body.op? o = some op)
    (he : op.erased = false) (hk : op.kind.blocks ≠ []) :
    (Task.next cx (.slots k (A.length + 1))).run t = .ok (op.kind.blocks.map .block ++
      [.resume k A.length (A ++ o :: B).length t.builder.point], ⟨⟨t.builder.body, ⟨k, A.length⟩⟩, t.symbols⟩) := by
  rw [Task.next, slot, run_bind_body (slot_eq hs), run_bind_body (op_eq hop), if_neg (by simp [he])]
  split
  next hkind =>
    rw [run_bind_point, run_bind_body (slotCount_eq hs (by simp)), run_bind_moveTo, hkind]
    rfl
  next hne =>
    refine absurd ?_ hk
    cases hkind : op.kind <;> first | rfl | exact absurd hkind (hne _ _)

theorem Works.drain {c : Nat} {tasks : List Task} {m : Lower Unit} (h : Works cx c tasks m [.slots k 0] t) :
    Works cx (c + 1) tasks m [] t := by
  have hround (t : LowerState) : Works cx 1 [.slots k 0] (pure ()) [] t :=
    .round (p := pure ()) (l := fun _ => []) (r := fun _ => pure ()) rfl rfl (.pure .done)
  rw [← bind_pure_unit (x := m)]
  exact h.bind (.intro (fun r _ => hround r.2) nofun)

end Kinds

end Lower

end Scalarize
