import Mathlib.Data.List.Chain
import Mathlib.Data.List.Induction
import Mathlib.Data.List.Nodup
import Mathlib.Logic.Relation
import Mathlib.Tactic.IntervalCases
import Scalarize.Proofs.Partition

/-!
# Calls on a partition

* `Partition.Call`, `Partition.answers` : calls, one after the other, on a partition or on what stands for one;
* `Partition.lead` : what a call means for the map from keys to leaders;
* `Partition.Forest` : links lead downward in rank, to keys with the same leader; `Forest.find`, `Forest.union` :
  each call keeps that, for the map that it should lead to;
* `Partition.answers_eq` : calls answer as the map does, and the partition represents the map at the end.
-/

namespace Scalarize.Partition

/-- A call on a partition. -/
inductive Call (α : Type) where
  | find (a : α)
  | union (leader member : α)
  deriving DecidableEq

variable {α σ : Type}

/-- The keys of a call. -/
def Call.keys : Call α → List α
  | find a => [a]
  | union leader member => [leader, member]

/-- The answers of calls, one after the other, and the state that they lead to. -/
def answers (step : σ → Call α → α × σ) (s : σ) : List (Call α) → List α × σ
  | [] => ([], s)
  | c :: cs => ((step s c).1 :: (answers step (step s c).2 cs).1, (answers step (step s c).2 cs).2)

theorem answers_append (step : σ → Call α → α × σ) (s : σ) (cs ds : List (Call α)) :
    answers step s (cs ++ ds) = ((answers step s cs).1 ++ (answers step (answers step s cs).2 ds).1,
      (answers step (answers step s cs).2 ds).2) := by
  induction cs generalizing s with
  | nil => rfl
  | cons d cs ih => simp only [List.cons_append, answers, ih]

variable [DecidableEq α] {p : Partition α} {rep : α → α} {rank : α → Nat} {a b c l m : α}

/-- Runs a call. -/
def call (p : Partition α) : Call α → α × Partition α
  | .find a => p.find a
  | .union leader member => p.union leader member

/-- What a call means for the map from keys to leaders: the set of the member joins that of the leader. -/
def lead (rep : α → α) : Call α → α × (α → α)
  | .find a => (rep a, rep)
  | .union leader member => (rep leader, fun a => if rep a = rep member then rep leader else rep a)

/-- A link leads from a key to another one. -/
def Link (p : Partition α) (a b : α) : Prop := a ≠ b ∧ p.parents.get? a = some b

/-- The key is tracked. -/
def Tracks (p : Partition α) (a : α) : Prop := (p.parents.get? a).isSome

theorem tracks_of_get? (h : p.parents.get? a = some b) : p.Tracks a := by
  rw [Tracks, h]
  rfl

theorem Tracks.mem_keys (h : p.Tracks a) : a ∈ p.parents.keys := by
  by_contra hnot
  rw [Tracks, (Assoc.get?_eq_none_iff _ _).2 hnot] at h
  cases h

/-! ## Links that lead to the leaders -/

/-- Links lead to tracked keys of a lower rank and with the same leader; a leader is linked to itself, and a key
that is not tracked leads itself alone. -/
structure Forest (p : Partition α) (rep : α → α) (rank : α → Nat) : Prop where
  keys : p.parents.keys.Nodup
  tracks : ∀ {a b}, p.parents.get? a = some b → p.Tracks b
  rank : ∀ {a b}, p.parents.get? a = some b → a ≠ b → rank b < rank a
  same : ∀ {a b}, p.parents.get? a = some b → rep b = rep a
  self : ∀ {a}, p.parents.get? a = some a → rep a = a
  alone : ∀ {a}, ¬p.Tracks a → rep a = a

namespace Forest

theorem empty : Forest ({} : Partition α) id fun _ => 0 :=
  ⟨.nil, nofun, nofun, nofun, nofun, fun _ => rfl⟩

/-- The leader of a tracked key is linked to itself, and lies below all other keys of its set. -/
theorem leader (h : p.Forest rep rank) (ha : p.Tracks a) :
    p.parents.get? (rep a) = some (rep a) ∧ (a = rep a ∨ rank (rep a) < rank a) := by
  induction hn : rank a using Nat.strongRecOn generalizing a with
  | ind n ih =>
    obtain ⟨b, hb⟩ := Option.isSome_iff_exists.1 ha
    by_cases hab : a = b
    · subst hab
      rw [h.self hb]
      exact ⟨hb, .inl rfl⟩
    · have hlt := h.rank hb hab
      obtain ⟨hself, hle⟩ := ih (rank b) (hn ▸ hlt) (h.tracks hb) rfl
      rw [h.same hb] at hself hle
      refine ⟨hself, .inr ?_⟩
      rcases hle with heq | hlt'
      · rwa [← hn, ← heq]
      · omega

theorem rep_rep (h : p.Forest rep rank) (a : α) : rep (rep a) = rep a := by
  by_cases ha : p.Tracks a
  · exact h.self (h.leader ha).1
  · rw [h.alone ha, h.alone ha]

/-- A key that is not tracked leads no other. -/
theorem eq_of_rep_eq (h : p.Forest rep rank) (ha : ¬p.Tracks a) (hb : rep b = a) : b = a := by
  by_cases htracks : p.Tracks b
  · exact absurd (tracks_of_get? (hb ▸ (h.leader htracks).1)) ha
  · rw [← hb, h.alone htracks]

theorem not_link_self (h : p.Forest rep rank) (a : α) : ¬Relation.TransGen p.Link a a := by
  have hlt : ∀ {a b}, Relation.TransGen p.Link a b → rank b < rank a := by
    intro a b hab
    induction hab with
    | single hl => exact h.rank hl.2 hl.1
    | tail _ hl ih => exact lt_trans (h.rank hl.2 hl.1) ih
  exact fun ha => lt_irrefl _ (hlt ha)

/-- The climb follows the links from a key to its leader. As much fuel as keys is enough: those that are still to
come are of ever lower rank. -/
theorem climb (h : p.Forest rep rank) {fuel : Nat} (hfuel : p.parents.length ≤ fuel) (ha : p.Tracks a) :
    ∃ below, p.climb fuel a = (below, rep a) ∧ (below ++ [rep a]).head? = some a ∧
      (below ++ [rep a]).IsChain p.Link := by
  suffices ∀ (fuel : Nat) (l : List α) (a : α), l.length ≤ fuel → p.Tracks a →
      (∀ b, p.Tracks b → rank b ≤ rank a → b ∈ l) → ∃ below, p.climb fuel a = (below, rep a) ∧
        (below ++ [rep a]).head? = some a ∧ (below ++ [rep a]).IsChain p.Link from
    this fuel p.parents.keys a (by simpa using hfuel) ha fun b hb _ => hb.mem_keys
  intro fuel
  induction fuel with
  | zero =>
    intro l a hl ha hmem
    have hal := hmem a ha le_rfl
    rw [List.length_eq_zero_iff.1 (Nat.le_zero.1 hl)] at hal
    cases hal
  | succ fuel ih =>
    intro l a hl ha hmem
    obtain ⟨b, hb⟩ := Option.isSome_iff_exists.1 ha
    rw [Partition.climb, hb]
    dsimp only
    by_cases hba : b = a
    · subst hba
      rw [if_pos rfl, h.self hb]
      exact ⟨[], rfl, rfl, .singleton _⟩
    · have hlt := h.rank hb (Ne.symm hba)
      obtain ⟨below, hclimb, hhead, hchain⟩ := ih (l.erase a) b
        (by rw [List.length_erase_of_mem (hmem a ha le_rfl)]; omega) (h.tracks hb) fun c hc hle =>
          (List.mem_erase_of_ne fun hca => by rw [hca] at hle; omega).2 (hmem c hc (le_trans hle hlt.le))
      rw [h.same hb] at hclimb hhead hchain
      rw [if_neg hba, hclimb]
      refine ⟨a :: below, rfl, rfl, ?_⟩
      rw [List.cons_append, List.isChain_cons]
      refine ⟨fun c hc => ?_, hchain⟩
      obtain rfl := Option.some.inj (hhead.symm.trans hc)
      exact ⟨Ne.symm hba, hb⟩

/-- On the way up all keys have the leader that the climb ends at, and none of them is that leader. -/
theorem of_mem_climb (h : p.Forest rep rank) {below : List α}
    (hchain : (below ++ [rep a]).IsChain p.Link) (hb : b ∈ below) :
    p.Tracks b ∧ rep b = rep a ∧ rank (rep a) < rank b := by
  induction below generalizing b with
  | nil => cases hb
  | cons c below ih =>
    rw [List.cons_append, List.isChain_cons] at hchain
    obtain ⟨hlink, hchain⟩ := hchain
    rcases List.mem_cons.1 hb with rfl | hb
    · cases below with
      | nil =>
        obtain ⟨hne, hget⟩ := hlink (rep a) rfl
        exact ⟨tracks_of_get? hget, by rw [← h.same hget, h.rep_rep], h.rank hget hne⟩
      | cons d below =>
        obtain ⟨hne, hget⟩ := hlink d rfl
        obtain ⟨-, hrep, hlt⟩ := ih hchain List.mem_cons_self
        exact ⟨tracks_of_get? hget, by rw [← h.same hget, hrep], lt_trans hlt (h.rank hget hne)⟩
    · exact ih hchain hb

end Forest

/-! ## Finding a leader -/

theorem get?_track (p : Partition α) (a c : α) :
    (p.track a).parents.get? c = if c = a then some ((p.parents.get? a).getD a) else p.parents.get? c := by
  cases ha : p.parents.get? a with
  | some b =>
    have htrack : p.track a = p := by rw [track, ha]
    rw [htrack]
    split
    next hc => rw [hc, ha]; rfl
    next => rfl
  | none =>
    have htrack : p.track a = ⟨p.parents ++ [(a, a)]⟩ := by rw [track, ha]
    rw [htrack]
    dsimp only
    cases hget : p.parents.get? c with
    | none =>
      rw [Assoc.get?_append_none hget, Assoc.get?, Assoc.get?]
      simp [eq_comm]
    | some b =>
      rw [Assoc.get?_append_some hget, if_neg]
      rintro rfl
      rw [ha] at hget
      cases hget

theorem Forest.track (h : p.Forest rep rank) (a : α) : (p.track a).Forest rep rank ∧ (p.track a).Tracks a := by
  refine ⟨?_, tracks_of_get? (by rw [get?_track, if_pos rfl])⟩
  cases ha : p.parents.get? a with
  | some b =>
    have htrack : p.track a = p := by rw [Partition.track, ha]
    rwa [htrack]
  | none =>
    have hnot : ¬p.Tracks a := by simp [Tracks, ha]
    have hget : ∀ c, (p.track a).parents.get? c = if c = a then some a else p.parents.get? c := fun c => by
      rw [get?_track, ha]
      rfl
    have htracks : ∀ {c}, (p.track a).Tracks c ↔ c = a ∨ p.Tracks c := fun {c} => by
      unfold Tracks
      rw [hget]
      split <;> simp [*]
    refine ⟨?_, fun {c d} hc => ?_, fun {c d} hc hne => ?_, fun {c d} hc => ?_, fun {c} hc => ?_, fun {c} hc => ?_⟩
    · have htrack : p.track a = ⟨p.parents ++ [(a, a)]⟩ := by rw [Partition.track, ha]
      show ((p.track a).parents.map (·.1)).Nodup
      rw [htrack]
      rw [List.map_append, List.nodup_append]
      refine ⟨h.keys, List.nodup_singleton _, ?_⟩
      rintro c hc _ hmem rfl
      obtain rfl := List.mem_singleton.1 hmem
      exact (Assoc.get?_eq_none_iff _ _).1 ha hc
    · rw [hget] at hc
      split at hc
      · exact htracks.2 (.inl (Option.some.inj hc).symm)
      · exact htracks.2 (.inr (h.tracks hc))
    · rw [hget] at hc
      split at hc
      next hca => exact absurd (hca.trans (Option.some.inj hc)) hne
      next => exact h.rank hc hne
    · rw [hget] at hc
      split at hc
      next hca => rw [hca, ← Option.some.inj hc]
      next => exact h.same hc
    · rw [hget] at hc
      split at hc
      next hca => rw [hca, h.alone hnot]
      next => exact h.self hc
    · exact h.alone fun hcp => hc (htracks.2 (.inr hcp))

theorem get?_foldl_put (parents : Assoc α α) (below : List α) (b c : α) :
    Assoc.get? (below.foldl (fun parents a => parents.put a b) parents) c =
      if c ∈ below then some b else parents.get? c := by
  induction below generalizing parents with
  | nil => rfl
  | cons a below ih =>
    rw [List.foldl_cons, ih, Assoc.get?_put]
    by_cases hc : c ∈ below
    · simp [hc]
    · by_cases hca : a = c
      · simp [hca]
      · simp [hc, hca, Ne.symm hca]

theorem keys_foldl_put {parents : Assoc α α} {below : List α} (h : ∀ a ∈ below, a ∈ parents.keys) (b : α) :
    Assoc.keys (below.foldl (fun parents a => parents.put a b) parents) = parents.keys := by
  induction below generalizing parents with
  | nil => rfl
  | cons a below ih =>
    have hkeys : (parents.put a b).keys = parents.keys := by
      rw [Assoc.keys_put, if_pos (h a List.mem_cons_self)]
    rw [List.foldl_cons, ih fun c hc => hkeys ▸ h c (List.mem_cons_of_mem _ hc), hkeys]

/-- Finding a leader links the keys on the way to it, which keeps all leaders. -/
theorem Forest.find (h : p.Forest rep rank) (a : α) : (p.find a).1 = rep a ∧ (p.find a).2.Forest rep rank ∧
    (p.find a).2.Tracks a ∧ ∀ {c}, p.Tracks c → (p.find a).2.Tracks c := by
  obtain ⟨ht, ha⟩ := h.track a
  obtain ⟨below, hclimb, -, hchain⟩ := ht.climb le_rfl ha
  have hfind : p.find a =
      (rep a, ⟨below.foldl (fun parents b => parents.put b (rep a)) (p.track a).parents⟩) := by
    rw [Partition.find, hclimb]
  have hbelow : ∀ b ∈ below, (p.track a).Tracks b ∧ rep b = rep a ∧ rank (rep a) < rank b :=
    fun b hb => ht.of_mem_climb hchain hb
  have hroot := (ht.leader ha).1
  have hget : ∀ c, (p.find a).2.parents.get? c = if c ∈ below then some (rep a) else (p.track a).parents.get? c := by
    intro c
    rw [hfind]
    exact get?_foldl_put _ below _ c
  have htracks : ∀ {c}, (p.find a).2.Tracks c ↔ (p.track a).Tracks c := fun {c} => by
    unfold Tracks
    rw [hget]
    split
    next hc => simpa [Tracks] using (hbelow c hc).1
    next => rfl
  refine ⟨by rw [hfind], ⟨?_, fun {c d} hc => ?_, fun {c d} hc hne => ?_, fun {c d} hc => ?_, fun {c} hc => ?_,
    fun {c} hc => ht.alone fun hct => hc (htracks.2 hct)⟩, htracks.2 ha, fun {c} hc => htracks.2 ?_⟩
  · rw [hfind]
    exact keys_foldl_put (fun b hb => (hbelow b hb).1.mem_keys) (rep a) ▸ ht.keys
  · rw [htracks]
    rw [hget] at hc
    split at hc
    · exact Option.some.inj hc ▸ tracks_of_get? hroot
    · exact ht.tracks hc
  · rw [hget] at hc
    split at hc
    next hmem => exact Option.some.inj hc ▸ (hbelow c hmem).2.2
    next => exact ht.rank hc hne
  · rw [hget] at hc
    split at hc
    next hmem => rw [← Option.some.inj hc, ht.rep_rep, (hbelow c hmem).2.1]
    next => exact ht.same hc
  · rw [hget] at hc
    split at hc
    next => rw [← Option.some.inj hc, ht.rep_rep]
    next => exact ht.self hc
  · rw [Tracks, get?_track]
    split
    · rfl
    · exact hc

/-! ## Joining sets -/

/-- Linking the leader of one set to that of another joins the sets. The first set rises above the leader. -/
theorem Forest.link (h : p.Forest rep rank) {root other : α} (hr : p.parents.get? root = some root)
    (ho : p.parents.get? other = some other) (hne : root ≠ other) :
    Forest ⟨p.parents.put other root⟩ (fun a => if rep a = other then root else rep a)
      fun a => if rep a = other then rank a + rank root + 1 else rank a := by
  have hget : ∀ c, (p.parents.put other root).get? c = if other = c then some root else p.parents.get? c :=
    fun c => Assoc.get?_put _ _ _ _
  have htracks : ∀ {c}, Tracks ⟨p.parents.put other root⟩ c ↔ p.Tracks c := fun {c} => by
    unfold Tracks
    rw [hget]
    split
    next hc => simp [← hc, ho]
    next => rfl
  have hrr := h.self hr
  have hro := h.self ho
  refine ⟨?_, fun {c d} hc => ?_, fun {c d} hc hcd => ?_, fun {c d} hc => ?_, fun {c} hc => ?_, fun {c} hc => ?_⟩
  · show (Assoc.keys (p.parents.put other root)).Nodup
    rw [Assoc.keys_put, if_pos (tracks_of_get? ho).mem_keys]
    exact h.keys
  · rw [htracks]
    rw [hget] at hc
    split at hc
    · exact Option.some.inj hc ▸ tracks_of_get? hr
    · exact h.tracks hc
  · rw [hget] at hc
    split at hc
    next hoc =>
      obtain rfl := Option.some.inj hc
      subst hoc
      rw [if_neg (by rwa [hrr]), if_pos hro]
      omega
    next =>
      have hlt := h.rank hc hcd
      rw [h.same hc]
      split <;> omega
  · rw [hget] at hc
    split at hc
    next hoc =>
      obtain rfl := Option.some.inj hc
      subst hoc
      rw [if_neg (by rwa [hrr]), if_pos hro, hrr]
    next => simp only [h.same hc]
  · rw [hget] at hc
    split at hc
    next hoc =>
      obtain rfl := Option.some.inj hc
      exact absurd hoc.symm hne
    next hoc =>
      have hself := h.self hc
      rw [hself, if_neg (Ne.symm hoc)]
  · have hself := h.alone fun hcp => hc (htracks.2 hcp)
    rw [hself, if_neg]
    rintro rfl
    exact hc (htracks.2 (tracks_of_get? ho))

/-- The set of the member joins that of the leader. -/
theorem Forest.union (h : p.Forest rep rank) (l m : α) : (p.union l m).1 = rep l ∧
    ∃ rank', (p.union l m).2.Forest (fun a => if rep a = rep m then rep l else rep a) rank' := by
  obtain ⟨hl, h₁, hl₁, -⟩ := h.find l
  obtain ⟨hm, h₂, hm₂, hkeep⟩ := h₁.find m
  unfold Partition.union
  dsimp only
  rw [hl, hm]
  refine ⟨rfl, ?_⟩
  split
  next heq =>
    refine ⟨rank, ?_⟩
    have hrep : (fun a => if rep a = rep m then rep l else rep a) = rep := by
      funext a
      split
      next ha => rw [heq, ha]
      next => rfl
    rwa [hrep]
  next hne => exact ⟨_, h₂.link (h₂.leader (hkeep hl₁)).1 (h₂.leader hm₂).1 hne⟩

/-! ## Any number of calls -/

/-- A call answers as the map does, and the links lead to the leaders that the map gives then. -/
theorem Forest.call (h : p.Forest rep rank) (d : Call α) : (p.call d).1 = (lead rep d).1 ∧
    ∃ rank', (p.call d).2.Forest (lead rep d).2 rank' := by
  cases d with
  | find a =>
    obtain ⟨ha, hf, -⟩ := h.find a
    exact ⟨ha, rank, hf⟩
  | union l m => exact h.union l m

theorem forest_answers (calls : List (Call α)) :
    (answers Partition.call {} calls).1 = (answers lead id calls).1 ∧
      ∃ rank, (answers Partition.call {} calls).2.Forest (answers lead id calls).2 rank := by
  induction calls using List.reverseRecOn with
  | nil => exact ⟨rfl, _, .empty⟩
  | append_singleton calls d ih =>
    obtain ⟨heq, rank, h⟩ := ih
    rw [answers_append, answers_append, heq]
    dsimp only [answers]
    obtain ⟨hd, hrank⟩ := h.call d
    rw [hd]
    exact ⟨rfl, hrank⟩

/-- The partition represents a map from keys to leaders. Links never lead around, and exactly the leaders are linked
to themselves, so that a climb along the links ends at the leader. -/
structure Represents (p : Partition α) (rep : α → α) : Prop where
  acyclic : ∀ a, ¬Relation.TransGen p.Link a a
  loop : ∀ a, p.parents.get? a = some a ↔ p.Tracks a ∧ rep a = a
  climb : ∀ a, p.Tracks a → ∀ fuel, p.parents.length ≤ fuel → ∃ below, p.climb fuel a = (below, rep a) ∧
    (below ++ [rep a]).head? = some a ∧ (below ++ [rep a]).IsChain p.Link
  find : ∀ a, (p.find a).1 = rep a ∧ ∀ b, ((p.find a).2.find b).1 = (p.find b).1

theorem Forest.represents (h : p.Forest rep rank) : p.Represents rep where
  acyclic := h.not_link_self
  loop a := by
    refine ⟨fun ha => ⟨tracks_of_get? ha, h.self ha⟩, fun ⟨ha, hself⟩ => ?_⟩
    have hroot := (h.leader ha).1
    rwa [hself] at hroot
  climb a ha fuel hfuel := h.climb hfuel ha
  find a := by
    obtain ⟨ha, hf, -⟩ := h.find a
    exact ⟨ha, fun b => by rw [(hf.find b).1, (h.find b).1]⟩

/-! ### The first leader of a set -/

/-- The map from keys to leaders after calls. -/
def leads (calls : List (Call α)) : α → α := (answers lead id calls).2

/-- Keys with one leader keep one leader. -/
theorem leads_append {done : List (Call α)} (h : leads done a = leads done b) (rest : List (Call α)) :
    leads (done ++ rest) a = leads (done ++ rest) b := by
  unfold leads at *
  rw [answers_append]
  generalize (answers lead id done).2 = rep at *
  induction rest generalizing rep with
  | nil => exact h
  | cons d rest ih =>
    refine ih _ ?_
    cases d with
    | find => exact h
    | union => simp only [lead, h]

theorem leads_concat_union (done : List (Call α)) (l m a : α) : leads (done ++ [.union l m]) a =
    if leads done a = leads done m then leads done l else leads done a := by
  unfold leads
  rw [answers_append]
  rfl

/-- A union joins its two keys for good. -/
theorem leads_union {calls : List (Call α)} (h : .union l m ∈ calls) : leads calls m = leads calls l := by
  obtain ⟨done, rest, rfl⟩ := List.append_of_mem h
  rw [List.append_cons]
  refine leads_append ?_ rest
  rw [leads_concat_union, leads_concat_union, if_pos rfl]
  split <;> rfl

/-- Each union that builds the set of a key has a member that no call before it has mentioned. -/
def JoinsNew (calls : List (Call α)) (a : α) : Prop :=
  ∀ done l m rest, calls = done ++ .union l m :: rest → leads calls m = leads calls a →
    m ≠ l ∧ m ∉ done.flatMap Call.keys

/-- A key that never was the member of a union leads itself, where unions of its set have new members. -/
theorem JoinsNew.leads_self {calls : List (Call α)} (h : JoinsNew calls a) (hb : leads calls b = leads calls a)
    (hnot : ∀ l, .union l b ∉ calls) : leads calls b = b := by
  suffices ∀ done rest, calls = done ++ rest → ∀ b, leads calls b = leads calls a → (∀ l, .union l b ∉ done) →
      leads done b = b from
    this calls [] (List.append_nil _).symm b hb hnot
  intro done
  induction done using List.reverseRecOn with
  | nil => exact fun _ _ _ _ _ => rfl
  | append_singleton done d ih =>
    rintro rest rfl b hb hnot
    have hcalls : done ++ [d] ++ rest = done ++ d :: rest := by simp
    have hself := ih (d :: rest) hcalls b hb fun l hl => hnot l (List.mem_append_left _ hl)
    cases d with
    | find c =>
      have hsame : leads (done ++ [.find c]) = leads done := by
        unfold leads
        rw [answers_append]
        rfl
      rw [hsame, hself]
    | union l m =>
      rw [leads_concat_union]
      split
      next hjoin =>
        -- the key would have been the member, which was new and led itself
        have hma : leads (done ++ [.union l m] ++ rest) m = leads (done ++ [.union l m] ++ rest) a := by
          rw [← hb, hcalls]
          exact (leads_append hjoin _).symm
        obtain ⟨-, hnew⟩ := h done l m rest hcalls hma
        have hm : leads done m = m := ih (.union l m :: rest) hcalls m hma fun l' hl' =>
          hnew (List.mem_flatMap.2 ⟨_, hl', by simp [Call.keys]⟩)
        obtain rfl : b = m := by rw [← hself, hjoin, hm]
        exact absurd (List.mem_append_right _ (List.mem_singleton_self _)) (hnot l)
      next => exact hself

/-- The leader of the first union of a set leads the set. -/
theorem JoinsNew.leads_eq {done rest : List (Call α)} (h : JoinsNew (done ++ .union l m :: rest) m)
    (hfirst : ∀ l' m', .union l' m' ∈ done →
      leads (done ++ .union l m :: rest) m' ≠ leads (done ++ .union l m :: rest) m) :
    leads (done ++ .union l m :: rest) m = l := by
  have hml : leads (done ++ .union l m :: rest) m = leads (done ++ .union l m :: rest) l :=
    leads_union (List.mem_append_right _ List.mem_cons_self)
  rw [hml]
  refine h.leads_self hml.symm fun l' hl' => ?_
  -- the leader was no member before, and it cannot become one
  rcases List.mem_append.1 hl' with hl' | hl'
  · exact hfirst l' l hl' hml.symm
  rcases List.mem_cons.1 hl' with heq | hl'
  · obtain ⟨-, rfl⟩ := Call.union.inj heq
    exact (h done _ _ rest rfl rfl).1 rfl
  · obtain ⟨mid, last, rfl⟩ := List.append_of_mem hl'
    refine (h (done ++ .union l m :: mid) l' l last (by simp) hml.symm).2 ?_
    simp [Call.keys]

/-- Calls on the empty partition answer as they do on the map that takes each key to itself, and the partition
represents the map that they lead to. A set whose unions had new members is led by the leader of the first of
them. -/
theorem answers_eq (calls : List (Call α)) :
    (answers call {} calls).1 = (answers lead id calls).1 ∧
      (answers call {} calls).2.Represents (leads calls) ∧
      ∀ done l m rest, calls = done ++ .union l m :: rest → JoinsNew calls m →
        (∀ l' m', .union l' m' ∈ done → leads calls m' ≠ leads calls m) → leads calls m = l := by
  obtain ⟨heq, _, hf⟩ := forest_answers calls
  refine ⟨heq, hf.represents, ?_⟩
  rintro done l m rest rfl hnew hfirst
  exact hnew.leads_eq hfirst

/-- Calls that join three keys, and a key with itself. -/
def chainCalls : List (Call Nat) := [.union 1 2, .union 4 4, .union 2 3, .find 3]

theorem answers_eq_chain : (answers call {} chainCalls).1 = [1, 4, 1, 1] ∧
    (answers call {} chainCalls).2.Represents (leads chainCalls) ∧ leads chainCalls 2 = 1 := by
  obtain ⟨heq, hrep, hfirst⟩ := answers_eq chainCalls
  refine ⟨heq.trans rfl, hrep, hfirst [] 1 2 _ rfl (fun done l m rest h hm => ?_) nofun⟩
  have hlen := congrArg List.length h
  have hdone : done.length < 4 := by
    rw [List.length_append, List.length_cons] at hlen
    exact Nat.lt_of_lt_of_eq (by omega) hlen.symm
  have hget : chainCalls[done.length]? = some (.union l m) := by rw [h]; simp
  have htake : done = chainCalls.take done.length := by rw [h]; simp
  rw [htake]
  generalize done.length = n at hdone hget
  interval_cases n
  · obtain ⟨rfl, rfl⟩ := Call.union.inj (Option.some.inj hget)
    decide
  · obtain ⟨rfl, rfl⟩ := Call.union.inj (Option.some.inj hget)
    exact absurd hm (by decide)
  · obtain ⟨rfl, rfl⟩ := Call.union.inj (Option.some.inj hget)
    decide
  · cases hget

end Scalarize.Partition
