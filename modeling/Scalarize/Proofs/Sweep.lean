import Scalarize.Proofs.Sweep.Spread

/-!
# The cursor neither skips nor repeats

* `Sweep.Clean` : what the record of a call shows, as seen in a body; `Clean.contiguous`;
* `Records.clean` : it holds of every call when the call ends, and as long as its block is left alone;
* `Records.exists_last`, `Records.exists_clean` : the last call for a block is clean in the end;
* `Records.nodup` : where blocks are nested like a tree, there is one call for each;
* `Sweep.Exhaustive`, `swept_of_lowerBlock` : all of this for every call that lowers a block, and for all below.
-/

namespace Scalarize

open Body Relation

namespace Lower

variable {α : Type} {cx : Context} {k m : BlockId} {i j : Nat} {t t' : LowerState} {c c' : Sweep}

/-- The body when the visits are still to come, which is `b` if none are. -/
def bodyBefore (b : Body) : List (Visit α) → Body
  | [] => b
  | v :: _ => v.start.builder.body

/-- The record of a call shows that nothing was skipped or repeated, in the body `b` at the end. -/
structure Sweep.Clean (c : Sweep) (b : Body) : Prop where
  /-- No operation is dispatched twice. -/
  nodup : (c.visits.map (·.op)).Nodup
  /-- What stands in the block was dispatched, from the last operation to the first. -/
  live : (c.visits.map (·.op)).filter b.stands = (b.live c.block).reverse
  /-- The answer was `false` for what stands. -/
  stays : ∀ v ∈ c.visits, b.stands v.op → v.replaced = false
  /-- If the answer was `true`, the operation is erased. -/
  gone : ∀ v ∈ c.visits, v.replaced = true → ∃ op, b.op? v.op = some op ∧ op.erased = true
  /-- What a dispatch made in the block is in the order in which it was made. -/
  creation : ∀ v ∈ c.visits, (v.made c.block).Pairwise (·.index < ·.index)
  /-- From then on it stands in a row in front of the operation, but for what is put in front of those that gave way. -/
  inFront : ∀ {V v V' W}, c.visits = V ++ v :: (V' ++ W) → ∃ A C B,
    (bodyBefore b W).slotsOf c.block = A ++ C ++ v.op :: B ∧ Spread (GaveWay V') (v.made c.block) C
  /-- What else is new once an operation that guards nothing was dispatched lies below what was made in the block. -/
  below : ∀ v ∈ c.visits, v.calls = [] → ∀ x, v.start.builder.body.op? x = none → (v.stop.builder.body.op? x).isSome →
    x ∈ v.made c.block ∨ ∃ g ∈ v.made c.block, v.stop.builder.body.Encloses g x
  /-- New blocks list it in the order in which it was made. -/
  inside : ∀ v ∈ c.visits, v.calls = [] → ∀ m, v.start.builder.body.block? m = none →
    (v.stop.builder.body.slotsOf m).Pairwise (·.index < ·.index)
  /-- New operations go in where they did at first. -/
  point : c.stop.builder.point = c.start.builder.point

/-- What a dispatch made stands in a row in front of the operation until some of it gives way. -/
theorem Sweep.Clean.contiguous {b : Body} (h : c.Clean b) {V V' W : List (Visit Sweep)} {v : Visit Sweep}
    (hvis : c.visits = V ++ v :: (V' ++ W)) (hstay : ∀ x ∈ v.made c.block, ¬GaveWay V' x) :
    ∃ A B, (bodyBefore b W).slotsOf c.block = A ++ v.made c.block ++ v.op :: B := by
  obtain ⟨A, C, B, hslots, hspread⟩ := h.inFront hvis
  exact ⟨A, B, hspread.eq_of_none hstay ▸ hslots⟩

/-! ## Rounds one by one -/

namespace Rounds

variable {V W : List (Visit α)} {v : Visit α}

theorem split {V' : List (Visit α)} (h : Rounds k i t (V ++ V') j t') :
    ∃ l s, Rounds k i t V l s ∧ Rounds k l s V' j t' := by
  generalize hL : V ++ V' = L at h
  induction h generalizing V with
  | done =>
    obtain ⟨rfl, rfl⟩ := List.append_eq_nil_iff.1 hL
    exact ⟨_, _, .done, .done⟩
  | skip hs hop he _ ih =>
    obtain ⟨l, s, h, h'⟩ := ih hL
    exact ⟨l, s, .skip hs hop he h, h'⟩
  | visit hs hop he start leave rest ih =>
    cases V with
    | nil =>
      obtain rfl : V' = _ := hL
      exact ⟨_, _, .done, .visit hs hop he start leave rest⟩
    | cons w V =>
      obtain ⟨rfl, hL'⟩ := List.cons_eq_cons.1 hL
      obtain ⟨l, s, h, h'⟩ := ih hL'
      exact ⟨l, s, .visit hs hop he start leave h, h'⟩

/-- The next visit; until then nothing changes. -/
theorem next (h : Rounds k i t (v :: V) j t') : ∃ l b, v.start = ⟨⟨t.builder.body, ⟨k, l⟩⟩, t.symbols⟩ ∧ v.Leaves b ∧
    Rounds k (l + ((v.stop.builder.body.slotsOf k).length - (t.builder.body.slotsOf k).length))
      ⟨⟨b, t.builder.point⟩, v.stop.symbols⟩ V j t' := by
  generalize hL : v :: V = L at h
  induction h with
  | done => cases hL
  | skip _ _ _ _ ih => exact ih hL
  | visit hs hop he start leave rest ih =>
    obtain ⟨rfl, rfl⟩ := List.cons_eq_cons.1 hL
    exact ⟨_, _, start, leave, rest⟩

theorem eq_of_nil (h : Rounds k i t ([] : List (Visit α)) j t') : t' = t := by
  generalize hL : ([] : List (Visit α)) = L at h
  induction h with
  | done => rfl
  | skip _ _ _ _ ih => exact ih hL
  | visit => cases hL

theorem bodyBefore_eq (h : Rounds k i t W j t') : bodyBefore t'.builder.body W = t.builder.body := by
  cases W with
  | nil => rw [bodyBefore, h.eq_of_nil]
  | cons w W =>
    obtain ⟨l, b, hstart, -⟩ := h.next
    rw [bodyBefore, hstart]

end Rounds

/-- What the dispatch made in the block is what it put there. -/
theorem Visit.Puts.made_eq {v : Visit α} {N : List OpId} (hN : v.Puts k N) (hv : v.At k)
    (hb : v.start.builder.body.Slotted) : v.made k = N := by
  obtain ⟨A, B, hAB, hA⟩ := hv.split
  have hold : ∀ x ∈ A ++ v.op :: B, (v.start.builder.body.op? x).isNone = false := fun x hx => by
    have hsome := (hb.lies (hAB ▸ hx)).isSome
    cases hop : v.start.builder.body.op? x with
    | none => rw [hop] at hsome; cases hsome
    | some op => rfl
  have hnew : ∀ x ∈ N, (v.start.builder.body.op? x).isNone = true := fun x hx => by rw [hN.fresh x hx]; rfl
  have hA' : A.filter (fun x => (v.start.builder.body.op? x).isNone) = [] :=
    List.filter_eq_nil_iff.2 fun x hx => by simp [hold x (List.mem_append_left _ hx)]
  have hB' : (v.op :: B).filter (fun x => (v.start.builder.body.op? x).isNone) = [] :=
    List.filter_eq_nil_iff.2 fun x hx => by simp [hold x (List.mem_append_right _ hx)]
  rw [Visit.made, hN.slots hAB hA, List.filter_append, List.filter_append, hA', hB', List.filter_eq_self.2 hnew,
    List.nil_append, List.append_nil]

/-! ## Every call is clean -/

namespace Sweep

theorem Records.rounds (h : c.Records cx) :
    Rounds c.block (c.start.builder.body.slotsOf c.block).length c.start c.visits 0 c.stop := by
  cases h with
  | mk hn rounds dispatches calls => exact eq_length_of_slotCount hn ▸ rounds

theorem Records.made (h : c.Records cx) (hb : c.start.builder.body.Slotted) {v : Visit Sweep} (hv : v ∈ c.visits) :
    v.Puts c.block (v.made c.block) := by
  obtain ⟨N, hN⟩ := h.puts hv
  rwa [hN.made_eq (h.at v hv) ((h.between v hv).before.slotted hb)]

/-- What a dispatch put in front of its operation stays there in a row until the next dispatch, and until the end. -/
theorem Records.inFront (h : c.Records cx) (hb : c.start.builder.body.Slotted) {b : Body}
    (hs : b.slotsOf c.block = c.stop.builder.body.slotsOf c.block) {V V' W : List (Visit Sweep)} {v : Visit Sweep}
    (hvis : c.visits = V ++ v :: (V' ++ W)) : ∃ A C B,
      (bodyBefore b W).slotsOf c.block = A ++ C ++ v.op :: B ∧ Spread (GaveWay V') (v.made c.block) C := by
  have hv : v ∈ c.visits := by rw [hvis]; simp
  have hV' : ∀ w ∈ V', w ∈ c.visits := fun w hw => by rw [hvis]; simp [hw]
  have hmoves := h.moves.1
  have hrounds := h.rounds
  rw [hvis] at hrounds
  obtain ⟨i₁, t₁, -, hrounds⟩ := hrounds.split
  obtain ⟨l, b₁, hstart, hleave, hrounds⟩ := hrounds.next
  obtain ⟨i₂, t₂, hrounds, hrest⟩ := hrounds.split
  obtain ⟨A, B, hAB, rfl, hb₁, hlen⟩ := (h.made hb hv).round (h.at v hv) (hmoves v hv) hstart hleave
  obtain ⟨A', C', hslots, hspread⟩ := hrounds.spread (fun w hw => hmoves w (hV' w hw)) (fun w hw => h.puts (hV' w hw))
    hb₁ (by simp [hlen]) (Spread.refl (fun _ => False) _)
  refine ⟨A', C', B, ?_, hspread.mono fun x hx => hx.resolve_left id⟩
  rw [← hslots, ← hrest.bodyBefore_eq]
  cases W with
  | nil => exact hs
  | cons w W => rfl

theorem Records.gone (h : c.Records cx) {b : Body} (hadv : c.stop.builder.body.Advances b) {v : Visit Sweep}
    (hv : v ∈ c.visits) (hr : v.replaced = true) : ∃ op, b.op? v.op = some op ∧ op.erased = true := by
  obtain ⟨op, hop, he⟩ := (h.between v hv).gone hr
  obtain ⟨op', hop', hp⟩ := hadv.op? hop
  exact ⟨op', hop', hp.erased he⟩

/-- What lowering an operation by one layer makes is in its block, or below that. -/
theorem Records.fills (h : c.Records cx) (hb : c.start.builder.body.Slotted) {v : Visit Sweep} (hv : v ∈ c.visits)
    (hc : v.calls = []) : v.start.builder.Fills v.stop.builder (v.made c.block) := by
  cases h.dispatches v hv with
  | guard hop hk kept blocks run =>
    rw [hc] at blocks
    exact absurd blocks.symm hk
  | plain hop hk _ run =>
    obtain ⟨⟨N, hN⟩, hidle⟩ := Visit.Dispatches.fills (h.at v hv) run
    have hmade := ((h.at v hv).puts hN hidle).made_eq (h.at v hv) ((h.between v hv).before.slotted hb)
    rwa [hmade]

/-- A call is clean, as seen in any body in which its block lists what it did when the call ended. -/
theorem Records.clean (h : c.Records cx) (hb : c.start.builder.body.Slotted) {b : Body}
    (hadv : c.stop.builder.body.Advances b) (hs : b.slotsOf c.block = c.stop.builder.body.slotsOf c.block) :
    c.Clean b := by
  obtain ⟨C, hC, hsub, hlive⟩ := h.rounds.covers rfl h.moves.1 (fun v hv => h.puts hv) (Nat.le_refl _)
  rw [List.drop_length, List.append_nil] at hC
  constructor
  case nodup =>
    rw [← List.nodup_reverse]
    exact ((h.advances.slotted hb).nodup c.block).sublist (hC ▸ hsub)
  case live => rw [live_eq, hs, hC, hlive b hadv, List.filter_reverse, List.reverse_reverse]
  case stays =>
    intro v hv hst
    by_contra hr
    obtain ⟨op, hop, he⟩ := h.gone hadv hv (Bool.ne_false_iff.1 hr)
    simp [stands_eq, hop, he] at hst
  case gone => exact fun v hv => h.gone hadv hv
  case creation => exact fun v hv => (h.made hb hv).sorted
  case inFront => exact h.inFront hb hs
  case below => exact fun v hv hc x => (h.fills hb hv hc).below
  case inside => exact fun v hv hc m => (h.fills hb hv hc).inside
  case point => exact h.rounds.point

end Sweep

/-! ## The last call for a block -/

/-- The slots of the block are in the end what they were when the last call for it ended. -/
theorem Follows.last_call {cs : List Sweep} (h : Follows t cs t') (hrec : ∀ c ∈ cs, c.Records cx)
    (hlast : ∀ c ∈ cs, m ∈ c.all.map (·.block) →
      ∃ c' ∈ c.all, c'.block = m ∧ c.stop.builder.body.slotsOf m = c'.stop.builder.body.slotsOf m)
    (hex : ∃ c ∈ cs, m ∈ c.all.map (·.block)) :
    ∃ c ∈ cs, ∃ c' ∈ c.all, c'.block = m ∧ t'.builder.body.slotsOf m = c'.stop.builder.body.slotsOf m := by
  induction h with
  | nil => simp at hex
  | @cons c cs t h ih =>
    have hrec' : ∀ c' ∈ cs, c'.Records cx := fun c' hc' => hrec c' (List.mem_cons_of_mem c hc')
    by_cases hlater : ∃ c' ∈ cs, m ∈ c'.all.map (·.block)
    · obtain ⟨c₁, hc₁, hres⟩ := ih hrec' (fun c' hc' => hlast c' (List.mem_cons_of_mem c hc')) hlater
      exact ⟨c₁, List.mem_cons_of_mem c hc₁, hres⟩
    -- no later call is for the block
    have hmem : m ∈ c.all.map (·.block) := by
      obtain ⟨c', hc', hm⟩ := hex
      rcases List.mem_cons.1 hc' with rfl | hc'
      · exact hm
      · exact absurd ⟨c', hc', hm⟩ hlater
    have hc := hrec c List.mem_cons_self
    obtain ⟨c', hc', rfl, hslots⟩ := hlast c List.mem_cons_self hmem
    refine ⟨c, List.mem_cons_self, c', hc', rfl, .trans ?_ hslots⟩
    refine h.slotsOf_eq (fun c' hc' => (hrec' c' hc').advances) (hc.isSome_of_mem hc') fun c₁ hc₁ hblk => ?_
    exact (hrec' c₁ hc₁).slotsOf_eq hblk fun hm => hlater ⟨c₁, hc₁, hm⟩

theorem Rounds.last_call {V : List (Visit Sweep)} (h : Rounds k i t V j t') (hran : Ran cx V) (hne : m ≠ k)
    (hlast : ∀ v ∈ V, ∀ c ∈ v.calls, m ∈ c.all.map (·.block) →
      ∃ c' ∈ c.all, c'.block = m ∧ c.stop.builder.body.slotsOf m = c'.stop.builder.body.slotsOf m)
    (hex : ∃ v ∈ V, ∃ c ∈ v.calls, m ∈ c.all.map (·.block)) :
    ∃ v ∈ V, ∃ c ∈ v.calls, ∃ c' ∈ c.all, c'.block = m ∧
      t'.builder.body.slotsOf m = c'.stop.builder.body.slotsOf m := by
  induction h with
  | done => simp at hex
  | skip _ _ _ _ ih => exact ih hran hlast hex
  | @visit i j t t' v V op b hs hop he start leave rest ih =>
    have hat : v.At k := .of_start hs hop he start
    obtain ⟨hdisp, hrec⟩ := hran v List.mem_cons_self
    have hran' : Ran cx V := fun w hw => hran w (List.mem_cons_of_mem v hw)
    by_cases hlater : ∃ w ∈ V, ∃ c ∈ w.calls, m ∈ c.all.map (·.block)
    · obtain ⟨w, hw, hres⟩ := ih hran' (fun w hw => hlast w (List.mem_cons_of_mem v hw)) hlater
      exact ⟨w, List.mem_cons_of_mem v hw, hres⟩
    -- no later dispatch calls for the block
    have hmem : ∃ c ∈ v.calls, m ∈ c.all.map (·.block) := by
      obtain ⟨w, hw, hres⟩ := hex
      rcases List.mem_cons.1 hw with rfl | hw
      · exact hres
      · exact absurd ⟨w, hw, hres⟩ hlater
    obtain ⟨hquiet, -⟩ := (hdisp.moves hat fun c hc => (hrec c hc).advances).leaves hat.isSome_op leave
    have hcalls := fun {c} (hc : c ∈ v.calls) => hdisp.calls_advance hrec hc
    cases hdisp with
    | plain hop hk hc run => simp [hc] at hmem
    | guard hop hk kept blocks run =>
      obtain ⟨c, hc, c', hc', rfl, hslots⟩ := run.last_call hrec (hlast v List.mem_cons_self) hmem
      refine ⟨v, List.mem_cons_self, c, hc, c', hc', rfl, .trans ?_ hslots⟩
      rw [← hquiet.slotsOf]
      refine rest.slotsOf_other hran' hne ?_ fun w hw c₁ hc₁ hm => hlater ⟨w, hw, c₁, hc₁, hm⟩
      show (b.block? c'.block).isSome
      rw [hquiet.block?]
      exact (hcalls hc).2.block ((hrec c hc).isSome_of_mem hc')

namespace Sweep

/-- Among the calls for a block is one since whose end the slots of the block have stayed as they were. -/
theorem Records.exists_last (h : c.Records cx) : m ∈ c.all.map block →
    ∃ c' ∈ c.all, c'.block = m ∧ c.stop.builder.body.slotsOf m = c'.stop.builder.body.slotsOf m := by
  induction h with
  | @mk c n hn rounds dispatches calls ih =>
    intro hm
    by_cases hne : m = c.block
    · exact ⟨c, c.self_mem_all, hne.symm, rfl⟩
    obtain ⟨c₀, hc₀, rfl⟩ := List.mem_map.1 hm
    obtain ⟨v, hv, c₁, hc₁, hc₀⟩ := (mem_all.1 hc₀).resolve_left fun he => hne (by rw [he])
    obtain ⟨v, hv, c₁, hc₁, c', hc', hres⟩ := rounds.last_call (fun v hv => ⟨dispatches v hv, calls v hv⟩) hne ih
      ⟨v, hv, c₁, hc₁, List.mem_map_of_mem hc₀⟩
    exact ⟨c', mem_all_of_call hv hc₁ hc', hres⟩

theorem Records.clean_self (h : c.Records cx) (hb : c.start.builder.body.Slotted) : c.Clean c.stop.builder.body :=
  h.clean hb (.refl _) rfl

/-- The calls of a call below are below. -/
theorem Records.call_mem (h : c.Records cx) : ∀ c' ∈ c.all, ∀ v ∈ c'.visits, ∀ c'' ∈ v.calls, c'' ∈ c.all := by
  induction h with
  | mk hn rounds dispatches calls ih =>
    intro c' hc' v hv c'' hc''
    rcases mem_all.1 hc' with rfl | ⟨w, hw, c₁, hc₁, hc'⟩
    · exact mem_all_of_call hv hc'' c''.self_mem_all
    · exact mem_all_of_call hw hc₁ (ih w hw c₁ hc₁ c' hc' v hv c'' hc'')

/-- For every block that is below in the end there is a call that is clean in the end. -/
theorem Records.exists_clean (h : c.Records cx) (hb : c.start.builder.body.Slotted)
    (hm : ReflTransGen c.stop.builder.body.Opens c.block m) :
    ∃ c' ∈ c.all, c'.block = m ∧ c'.Clean c.stop.builder.body := by
  -- the last call for a block is clean in the end
  have hlast : ∀ c' ∈ c.all, ∃ c'' ∈ c.all, c''.block = c'.block ∧ c''.Clean c.stop.builder.body := fun c' hc' => by
    obtain ⟨c'', hc'', he, hs⟩ := h.exists_last (List.mem_map_of_mem (f := block) hc')
    obtain ⟨hstart, hstop⟩ := h.advances_all c'' hc''
    exact ⟨c'', hc'', he, (h.of_mem_all hc'').clean (hstart.slotted hb) hstop (he ▸ hs)⟩
  induction hm with
  | refl => exact ⟨c, c.self_mem_all, rfl, h.clean_self hb⟩
  | @tail k' m _ ho ih =>
    obtain ⟨c', hc', rfl, hclean⟩ := ih
    obtain ⟨g, hg, hm⟩ := ho
    -- the guard stands, so that it was dispatched, and its blocks were lowered
    have hvisited : g ∈ (c'.visits.map (·.op)).filter c.stop.builder.body.stands := by
      rw [hclean.live, List.mem_reverse]
      exact hg
    obtain ⟨v, hv, rfl⟩ := List.mem_map.1 (List.mem_filter.1 hvisited).1
    have hrec := h.of_mem_all hc'
    have hadv := (hrec.visit_advances hv).trans (h.advances_all c' hc').2
    rw [hadv.guardedBlocks (hrec.at v hv).isSome_op] at hm
    obtain ⟨c'', hc'', rfl⟩ := (hrec.dispatches v hv).exists_call hm
    exact hlast c'' (h.call_mem c' hc' v hv c'' hc'')

end Sweep

/-! ## Blocks nested like a tree -/

namespace Sweep

section Tree

variable {b : Body} {v w : Visit Sweep} {c₁ c₂ : Sweep}

theorem Records.call_mem_guardedBlocks (h : c.Records cx) (hv : v ∈ c.visits) (hc₁ : c₁ ∈ v.calls)
    (hb : c.stop.builder.body.Advances b) : c₁.block ∈ b.guardedBlocks v.op := by
  rw [((h.visit_advances hv).trans hb).guardedBlocks (h.at v hv).isSome_op]
  exact (h.dispatches v hv).mem_guardedBlocks hc₁

theorem Records.opens (h : c.Records cx) (hv : v ∈ c.visits) (hc₁ : c₁ ∈ v.calls)
    (hb : c.stop.builder.body.Advances b) : b.Opens c.block c₁.block :=
  ((h.visit_advances hv).trans hb).opens ((h.dispatches v hv).opens (h.at v hv) hc₁)

/-- A guard guards each of its blocks once, and they are lowered in turn. -/
theorem Records.nodup_calls (h : c.Records cx) (hv : v ∈ c.visits) (hb : c.stop.builder.body.Advances b)
    (htree : b.BlockTree) : (v.calls.map block).Nodup := by
  have hguards := ((h.visit_advances hv).trans hb).guardedBlocks (h.at v hv).isSome_op
  cases h.dispatches v hv with
  | plain hop hk hc run => simp [hc]
  | guard hop hk kept blocks run =>
    rw [blocks, ← guardedBlocks_eq hop, ← hguards]
    exact htree.distinct v.op

/-- Calls for two blocks right below lie apart. -/
theorem Records.calls_disjoint (h : c.Records cx) (hb : c.stop.builder.body.Advances b) (htree : b.BlockTree)
    (hs : b.Slotted) (hv : v ∈ c.visits) (hw : w ∈ c.visits) (hc₁ : c₁ ∈ v.calls) (hc₂ : c₂ ∈ w.calls)
    (hne : c₁.block ≠ c₂.block) : (c₁.all.map block).Disjoint (c₂.all.map block) := by
  have hbelow : ∀ {v c₁}, v ∈ c.visits → c₁ ∈ v.calls → ∀ m ∈ c₁.all.map block, ReflTransGen b.Opens c₁.block m := by
    intro v c₁ hv hc₁ m hm
    obtain ⟨c', hc', rfl⟩ := List.mem_map.1 hm
    exact ((h.call_advances hv hc₁).2.trans hb).below ((h.calls v hv c₁ hc₁).reaches c' hc')
  intro m hm₁ hm₂
  exact htree.apart hs (h.opens hv hc₁ hb) (h.opens hw hc₂ hb) hne (hbelow hv hc₁ m hm₁) (hbelow hw hc₂ m hm₂)

/-- In a tree of blocks no two calls are for the same block. -/
theorem Records.nodup (h : c.Records cx) (htree : b.BlockTree) (hs : b.Slotted) :
    c.start.builder.body.Slotted → c.stop.builder.body.Advances b → (c.all.map block).Nodup := by
  induction h with
  | @mk c n hn rounds dispatches calls ih =>
    intro hslotted hb
    have h : c.Records cx := .mk hn rounds dispatches calls
    have hvisits : (c.visits.map (·.op)).Nodup := (h.clean_self hslotted).nodup
    rw [all_eq, List.map_append]
    simp only [List.map_flatMap, List.map_cons, List.map_nil]
    refine List.nodup_append.2 ⟨List.nodup_flatMap.2 ⟨fun v hv => List.nodup_flatMap.2 ⟨fun c₁ hc₁ => ?_, ?_⟩, ?_⟩,
      List.nodup_singleton _, ?_⟩
    · have hcall := h.call_advances hv hc₁
      exact ih v hv c₁ hc₁ (hcall.1.slotted hslotted) (hcall.2.trans hb)
    · exact (List.pairwise_map.1 (h.nodup_calls hv hb htree)).imp_of_mem fun hc₁ hc₂ =>
        h.calls_disjoint hb htree hs hv hv hc₁ hc₂
    · refine (List.pairwise_map.1 hvisits).imp_of_mem fun {v w} hv hw hne m hm₁ hm₂ => ?_
      obtain ⟨c₁, hc₁, hm₁⟩ := List.mem_flatMap.1 hm₁
      obtain ⟨c₂, hc₂, hm₂⟩ := List.mem_flatMap.1 hm₂
      -- a block has one guard
      have hne' : c₁.block ≠ c₂.block := fun he => hne (htree.owner (h.call_mem_guardedBlocks hv hc₁ hb)
        (he ▸ h.call_mem_guardedBlocks hw hc₂ hb))
      exact h.calls_disjoint hb htree hs hv hw hc₁ hc₂ hne' hm₁ hm₂
    · intro m hm m' hm' he
      obtain ⟨v, hv, hm⟩ := List.mem_flatMap.1 hm
      obtain ⟨c₁, hc₁, hm⟩ := List.mem_flatMap.1 hm
      obtain ⟨c', hc', rfl⟩ := List.mem_map.1 hm
      exact h.block_ne hv hc₁ hc' (he.trans (List.mem_singleton.1 hm'))

end Tree

end Sweep

/-- What holds of a call that lowers a block, and of all calls below. -/
structure Sweep.Exhaustive (c : Sweep) : Prop where
  /-- Every call is clean when it ends. -/
  each : ∀ c' ∈ c.all, c'.Clean c'.stop.builder.body
  /-- For every block below, some call is clean in the end. -/
  last : ∀ {m}, ReflTransGen c.stop.builder.body.Opens c.block m →
    ∃ c' ∈ c.all, c'.block = m ∧ c'.Clean c.stop.builder.body
  /-- In a tree of blocks, such as that of every reachable body, there is one call for each block, and all are clean in
  the end. -/
  tree : c.start.builder.body.BlockTree →
    (c.all.map (·.block)).Nodup ∧ ∀ c' ∈ c.all, c'.Clean c.stop.builder.body

theorem Sweep.Records.exhaustive (h : c.Records cx) (hb : c.start.builder.body.Slotted) : c.Exhaustive where
  each c' hc' := (h.of_mem_all hc').clean_self ((h.advances_all c' hc').1.slotted hb)
  last := h.exists_clean hb
  tree htree := by
    have hnodup := h.nodup (h.advances.blockTree htree) (h.advances.slotted hb) hb (.refl _)
    refine ⟨hnodup, fun c' hc' => ?_⟩
    -- the last call for a block is the only one
    obtain ⟨c'', hc'', he, hs⟩ := h.exists_last (List.mem_map_of_mem (f := (·.block)) hc')
    obtain rfl := List.inj_on_of_nodup_map hnodup hc'' hc' he
    exact (h.of_mem_all hc').clean ((h.advances_all _ hc').1.slotted hb) (h.advances_all _ hc').2 hs

/-- Whenever a block is lowered to the end, in any body that is formed, the cursor has neither skipped nor repeated an
operation that stands, here and in all blocks below: the one record that agrees with what lowering did shows it. -/
theorem swept_of_lowerBlock {fuel : Nat} (hb : t.builder.body.Formed)
    (h : (lowerBlock cx fuel k).run t = .ok ((), t')) :
    ∃ c : Sweep, c.block = k ∧ c.start = t ∧ c.stop = t' ∧ c.Records cx ∧ c.Exhaustive ∧
      ∀ c' : Sweep, c'.Records cx → c'.block = k → c'.start = t → c' = c := by
  obtain ⟨c, rfl, rfl, rfl, hrec⟩ := exists_records h
  exact ⟨c, rfl, rfl, rfl, hrec, hrec.exhaustive hb.slotted, fun c' => hrec.unique⟩

/-! ### A guard over a wire with two fields -/

def guardedBody : Body where
  values := #[⟨.uint 1, .argument, [⟨⟨0⟩, 0⟩]⟩,
    ⟨.bundle [⟨"a", false, .uint 1⟩, ⟨"b", true, .vector (.uint 2) 2⟩], .result ⟨1⟩ 0, []⟩]
  ops := #[⟨.when ⟨1⟩ none, [⟨0⟩], [], Body.entry, false⟩, ⟨.wire {}, [], [⟨1⟩], ⟨1⟩, false⟩]
  blocks := #[⟨[⟨0⟩], none⟩, ⟨[⟨1⟩], some ⟨0⟩⟩]
  args := [⟨0⟩]

theorem guardedBody_built : Builder.Built [.uint 1] ⟨guardedBody, ⟨⟨1⟩, 1⟩⟩ :=
  .call (.wire (.bundle [⟨"a", false, .uint 1⟩, ⟨"b", true, .vector (.uint 2) 2⟩]) {}) (.call (.moveTo ⟨⟨1⟩, 0⟩)
    (.call (.when ⟨0⟩ false) (.start ⟨Body.entry, 0⟩ rfl) rfl) rfl) rfl

def guardedStart : LowerState := ⟨⟨guardedBody, ⟨Body.entry, 1⟩⟩, { moduleName := "M" }⟩

theorem swept_of_lowerBlock_guarded : ∃ t',
    (lowerBlock ⟨{}, []⟩ guardedBody.loweringDepth Body.entry).run guardedStart = .ok ((), t') ∧
    ∃ c : Sweep, c.block = Body.entry ∧ c.start = guardedStart ∧ c.stop = t' ∧ c.Records ⟨{}, []⟩ ∧
      c.Exhaustive ∧ ∀ c' : Sweep, c'.Records ⟨{}, []⟩ → c'.block = Body.entry → c'.start = guardedStart → c' = c := by
  have hok : ((lowerBlock ⟨{}, []⟩ guardedBody.loweringDepth Body.entry).run guardedStart).isOk := by decide +kernel
  cases hr : (lowerBlock ⟨{}, []⟩ guardedBody.loweringDepth Body.entry).run guardedStart with
  | error => rw [hr] at hok; cases hok
  | ok r => exact ⟨r.2, rfl, swept_of_lowerBlock guardedBody_built.reachable.formed hr⟩

/-- The wire gave way to two wires, and the second of those to two more. -/
example : ((lowerBlock ⟨{}, []⟩ guardedBody.loweringDepth Body.entry).run guardedStart).toOption.map (fun r =>
      (r.2.builder.body.slotsOf ⟨1⟩, r.2.builder.body.live ⟨1⟩)) =
    some ([⟨2⟩, ⟨4⟩, ⟨5⟩, ⟨3⟩, ⟨1⟩], [⟨2⟩, ⟨4⟩, ⟨5⟩]) := by
  decide +kernel

end Lower

end Scalarize
