import Scalarize.Proofs.Body.Scope
import Scalarize.Proofs.Edits.Walk

/-!
# What one operation gives way to

An operation that is lowered to the end gives way to operations in front of it, and in blocks that these
guard. Here a property of just these operations is carried along the walk, whatever the rest of the body is
like.

* `StandFor` : each operation of a list stands for some things, and all together stand for a whole;
* `Body.Prefixed`, `Prefixed.grows` : operations made in front of the one that is lowered by one layer;
* `Body.Region` : the operation, with all that it gave way to so far, pending or done;
* `Body.Layer`, `Region.stages` : a property of regions that every layer keeps is kept throughout the walk;
* `Region.lowerOp_runs` : so it holds once the operation is lowered to the end.
-/

namespace Scalarize

open Body Lower

/-! ## What operations stand for -/

section StandFor

variable {α β γ : Type} {R R' : α → List β → Prop} {l l₁ l₂ n : List α} {whole m m₁ m₂ : List β} {a : α}

/-- Each element stands for a list, and all together stand for `whole`, in order. -/
def StandFor (R : α → List β → Prop) (l : List α) (whole : List β) : Prop :=
  ∃ ms, List.Forall₂ R l ms ∧ ms.flatten = whole

namespace StandFor

theorem nil : StandFor R [] [] := ⟨[], .nil, rfl⟩

theorem single (h : R a m) : StandFor R [a] m := ⟨[m], .cons h .nil, by simp⟩

/-- What stands for nothing may come first. -/
theorem skip (ha : R a []) (h : StandFor R l m) : StandFor R (a :: l) m := by
  obtain ⟨ms, h, rfl⟩ := h
  exact ⟨[] :: ms, .cons ha h, rfl⟩

/-- Nothing stands for anything. -/
theorem none (h : ∀ a ∈ l, R a []) : StandFor R l [] := by
  induction l with
  | nil => exact nil
  | cons a l ih => exact skip (h a (by simp)) (ih fun a ha => h a (List.mem_cons_of_mem _ ha))

theorem append (h₁ : StandFor R l₁ m₁) (h₂ : StandFor R l₂ m₂) : StandFor R (l₁ ++ l₂) (m₁ ++ m₂) := by
  obtain ⟨ms₁, h₁, rfl⟩ := h₁
  obtain ⟨ms₂, h₂, rfl⟩ := h₂
  exact ⟨ms₁ ++ ms₂, List.rel_append h₁ h₂, List.flatten_append⟩

theorem mono (h : StandFor R l m) (hR : ∀ a ∈ l, ∀ m, R a m → R' a m) : StandFor R' l m := by
  obtain ⟨ms, h, rfl⟩ := h
  refine ⟨ms, ?_, rfl⟩
  induction h with
  | nil => exact .nil
  | cons ha _ ih => exact .cons (hR _ (by simp) _ ha) (ih fun a ha => hR a (List.mem_cons_of_mem _ ha))

theorem of_append (h : StandFor R (l₁ ++ l₂) m) : ∃ m₁ m₂, m = m₁ ++ m₂ ∧ StandFor R l₁ m₁ ∧ StandFor R l₂ m₂ := by
  obtain ⟨ms, h, rfl⟩ := h
  induction l₁ generalizing ms with
  | nil => exact ⟨[], _, rfl, nil, ms, h, rfl⟩
  | cons a l₁ ih =>
    cases h with
    | @cons _ _ _ ms ha h =>
      obtain ⟨m₁, m₂, hm, h₁, h₂⟩ := ih ms h
      exact ⟨_, m₂, by rw [List.flatten_cons, hm, ← List.append_assoc], (single ha).append h₁, h₂⟩

theorem of_single (h : StandFor R [a] m) : R a m := by
  obtain ⟨ms, h, rfl⟩ := h
  cases h with
  | cons ha h =>
    cases h
    simpa using ha

theorem of_nil (h : StandFor R [] m) : m = [] := by
  obtain ⟨ms, h, rfl⟩ := h
  cases h
  rfl

theorem exists_of_mem (h : StandFor R l m) (ha : a ∈ l) : ∃ m, R a m := by
  obtain ⟨ms, h, -⟩ := h
  obtain ⟨m, -, hm⟩ := exists_of_forall₂ h.flip ha
  exact ⟨m, hm⟩

/-- What one element stands for lies between what the others stand for. -/
theorem middle (h : StandFor R (l₁ ++ a :: l₂) whole) :
    ∃ m₁ m m₂, whole = m₁ ++ m ++ m₂ ∧ StandFor R l₁ m₁ ∧ R a m ∧ StandFor R l₂ m₂ := by
  obtain ⟨m₁, m', rfl, h₁, h'⟩ := h.of_append
  rw [← List.singleton_append] at h'
  obtain ⟨m, m₂, rfl, hm, h₂⟩ := h'.of_append
  exact ⟨m₁, m, m₂, (List.append_assoc ..).symm, h₁, hm.of_single, h₂⟩

/-- One element gives way to others that stand for the same, and stands for nothing any more. -/
theorem expand (h₁ : StandFor R l₁ m₁) (h₂ : StandFor R l₂ m₂) (hold : ∀ c ∈ l₁ ++ l₂, ∀ m, R c m → R' c m)
    (hn : StandFor R' n m) (ha : R' a []) : StandFor R' (l₁ ++ n ++ a :: l₂) (m₁ ++ m ++ m₂) := by
  have h₂' := h₂.mono fun c hc => hold c (List.mem_append_right _ hc)
  exact ((h₁.mono fun c hc => hold c (List.mem_append_left _ hc)).append hn).append (h₂'.skip ha)

/-- Elements that stand for nothing are left out, the others stand for one thing each. -/
theorem filter {S : α → β → Prop} {p : α → Bool} (h : StandFor R l whole)
    (hR : ∀ a ∈ l, ∀ m, R a m → (p a = true ∧ ∃ c, m = [c] ∧ S a c) ∨ (p a = false ∧ m = [])) :
    List.Forall₂ S (l.filter p) whole := by
  obtain ⟨ms, h, rfl⟩ := h
  induction h with
  | nil => exact .nil
  | cons ha _ ih =>
    have ih := ih fun a ha => hR a (List.mem_cons_of_mem _ ha)
    obtain ⟨hp, c, rfl, hc⟩ | ⟨hp, rfl⟩ := hR _ (by simp) _ ha
    · rw [List.filter_cons_of_pos hp]
      exact .cons hc ih
    · rw [List.filter_cons_of_neg (by simp [hp])]
      exact ih

end StandFor

end StandFor

namespace Body

variable {must : Prop} {cx : Context} {b₀ b b' : Body} {o x : OpId} {k : BlockId} {A B P D N : List OpId}
  {s : Builder} {op opx : Operation}

/-- The operations `N` were made since `b₀`, in front of `o` in block `k`, which lies between `A` and `B`. -/
def Prefixed (b₀ : Body) (o : OpId) (k : BlockId) (A B N : List OpId) (s : Builder) : Prop :=
  (∃ H, InFront b₀ k A (o :: B) H N s) ∧ b₀.Grown N s.body

namespace Prefixed

theorem start (hb : s.body.Coherent) (hs : s.body.slotsOf k = A ++ o :: B) (hp : s.point = ⟨k, A.length⟩) :
    s.body.Prefixed o k A B [] s := by
  obtain ⟨blk, hblk⟩ := exists_block_of_mem_slotsOf (o := o) (b := s.body) (k := k) (by simp [hs])
  exact ⟨⟨[], .start hb hs (by rw [hblk]; rfl) hp⟩, .refl hb⟩

theorem coherent (h : b₀.Prefixed o k A B N s) : s.body.Coherent := h.2.edited.coherent

theorem fresh (h : b₀.Prefixed o k A B N s) : ∀ x ∈ N, b₀.op? x = none := by
  obtain ⟨⟨H, hH⟩, -⟩ := h
  exact hH.fresh

theorem known (h : b₀.Prefixed o k A B N s) : ∀ x ∈ N, (s.body.op? x).isSome := by
  obtain ⟨⟨H, hH⟩, -⟩ := h
  exact hH.known

/-- What was there is as it was. -/
theorem op?_old (h : b₀.Prefixed o k A B N s) (hext : Extends b₀ s.body) (hx : b₀.op? x = some op) :
    s.body.op? x = some op := by
  obtain ⟨op₁, hop₁, -, hops, hres, hblock, he⟩ := hext.op? hx
  obtain ⟨op₂, hop₂, hkind, -⟩ := h.2.edited.op? hx
  obtain rfl := Option.some.inj (hop₁.symm.trans hop₂)
  rw [hop₁]
  obtain ⟨⟩ := op
  obtain ⟨⟩ := op₁
  simp_all

/-- Readers may be handed over, and operations without blocks may be erased. -/
theorem replaced {v w : ValueId} (h : b₀.Prefixed o k A B N s) (hr : Replaced s.body v w b')
    (hv : (s.body.value? v).isSome) (hw : (s.body.value? w).isSome) (hne : v ≠ w) :
    b₀.Prefixed o k A B N ⟨b', s.point⟩ := by
  obtain ⟨⟨H, hH⟩, hg⟩ := h
  exact ⟨⟨H, hH.outlives hr.outlives⟩, hg.replaced hr (hg.edited.replaced hr hv hw hne)⟩

theorem dropped {f : Bool → Bool} (h : b₀.Prefixed o k A B N s) (hf : f true = true) (hd : Dropped s.body x f b')
    (hx : f false = true → ∀ opx, s.body.op? x = some opx → opx.kind.blocks = []) :
    b₀.Prefixed o k A B N ⟨b', s.point⟩ := by
  obtain ⟨⟨H, hH⟩, hg⟩ := h
  exact ⟨⟨H, hH.outlives (hd.outlives hf)⟩, hg.dropped hd (hg.edited.dropped hf hd) hx⟩

/-- Building steps go on in front of the operation, whatever they make. -/
theorem grows (b₀ : Body) (o : OpId) (k : BlockId) (A B : List OpId) :
    Grows (fun _ => True) (fun _ _ _ _ => True) (fun _ _ => True) (Prefixed b₀ o k A B) where
  coherent := coherent
  place := fun ⟨⟨_, hH⟩, _⟩ => hH.place
  make := by
    rintro N s kind vs ins tys x b' ⟨⟨H, hH⟩, hg⟩ - hc - - - -
    refine ⟨⟨H ++ [x], ?_⟩, hg.created hH.known hc⟩
    rw [hH.point]
    simpa [Nat.add_assoc] using hH.created hg.edited.coherent hc
  declare := by
    rintro N s x f ⟨⟨H, hH⟩, hg⟩ hx -
    exact ⟨⟨H, hH.declared f⟩, hg.declared (hH.fresh x hx) f⟩

end Prefixed

/-! ## Regions -/

/-- The guards that are erased. -/
def ErasedGuard (b : Body) (x : OpId) : Prop :=
  ∃ op, b.op? x = some op ∧ op.kind.blocks ≠ [] ∧ op.erased

/-- `P` are pending and `D` are done; both together are `o` and what it gave way to since `b₀`. -/
structure Region (b₀ : Body) (o : OpId) (b : Body) (P D : List OpId) : Prop where
  tidy : b.Tidy b₀.ErasedGuard P D
  edited : b₀.Edited b
  new : ∀ x ∈ P ++ D, x = o ∨ b₀.op? x = none

namespace Region

theorem start (hb : b.Coherent) (hop : b.op? o = some op) : b.Region o b [o] [] where
  tidy := .begin hb (List.nodup_singleton o) fun x hx => by
    rw [List.mem_singleton.1 hx, hop]
    rfl
  edited := .refl hb
  new x hx := .inl (by simpa using hx)

theorem coherent (h : b₀.Region o b P D) : b.Coherent := h.edited.coherent

theorem perm {P' D' : List OpId} (h : b₀.Region o b P D) (hP : (P ++ D).Perm (P' ++ D')) : b₀.Region o b P' D' where
  tidy := h.tidy.perm hP
  edited := h.edited
  new x hx := h.new x (hP.mem_iff.2 hx)

/-- Guards of the region are not erased. -/
theorem plain (h : b₀.Region o b P D) (hop : b₀.op? o = some op) (hk : op.kind.blocks = []) (hx : x ∈ P ++ D)
    (hopx : b.op? x = some opx) (he : opx.erased) : opx.kind.blocks = [] := by
  by_contra hblocks
  obtain ⟨op₀, hop₀, hk₀, -⟩ := (h.tidy.guards hopx hblocks).1 he
  rcases h.new x hx with rfl | hnew
  · rw [Option.some.inj (hop₀.symm.trans hop)] at hk₀
    exact hk₀ hk
  · rw [hnew] at hop₀
    cases hop₀

/-- An operation of the region is replaced by what was placed in front of it, and erased. -/
theorem stepped (h : b₀.Region o b (P ++ [x]) D) (hopx : b.op? x = some opx) (hk : opx.kind.blocks = [])
    (hN : b.Prefixed x k A B N s) (he : Erased s.body x b') : b₀.Region o b' (P ++ N) (x :: D) := by
  have hout := he.outlives
  have hplain : ∀ opx', s.body.op? x = some opx' → opx'.kind.blocks = [] := fun opx' hopx' => by
    obtain ⟨opx'', hopx'', hk', -⟩ := hN.2.edited.op? hopx
    rw [Option.some.inj (hopx'.symm.trans hopx''), hk', hk]
  have hg := hN.2.dropped he.dropped (hN.2.edited.dropped rfl he.dropped) fun _ => hplain
  refine ⟨h.tidy.stepped hg hN.fresh fun y hy => ?_, h.edited.trans hg.edited, fun y hy => ?_⟩
  · exact (hout.local [] []).isSome (hN.known y hy)
  · have hcases : y ∈ P ++ [x] ++ D ∨ y ∈ N := by
      simp only [List.mem_append, List.mem_cons, List.not_mem_nil, or_false] at hy ⊢
      tauto
    rcases hcases with hy | hy
    · exact h.new y hy
    · right
      cases hop : b₀.op? y with
      | none => rfl
      | some op =>
        obtain ⟨op', hop', -⟩ := h.edited.op? hop
        rw [hN.fresh y hy] at hop'
        cases hop'

end Region

/-! ## Layers -/

variable {Sem : Body → (OpId → Nat) → List OpId → List OpId → Prop} {R : OpId → Nat} {t : LowerState} {fuel : Nat}

/-- What is left of a step that replaces `o`: the operations `N` in front of it are pending, and once `o` is erased
it is done. -/
def Layer (must : Prop) (Sem : Body → (OpId → Nat) → List OpId → List OpId → Prop) (b : Body) (R : OpId → Nat)
    (o : OpId) (k : BlockId) (A B P D : List OpId) (t : LowerState) : Prop :=
  ∃ N R', b.Prefixed o k A B N t.builder ∧ (∀ x, (b.op? x).isSome → R' x = R x) ∧
    (must → (∀ x ∈ N, R' x < R o) ∧ ¬t.builder.body.ResultRead o) ∧
    ∀ b', Erased t.builder.body o b' → Sem b' R' (P ++ N) (o :: D)

/-- A property `Sem` of regions that every layer keeps, and that does not mind when guards and erased operations are
passed. Where failures are excluded, `R` bounds how deep operations nest. -/
structure KeptByLayers (must : Prop) (cx : Context) (b₀ : Body) (o : OpId)
    (Sem : Body → (OpId → Nat) → List OpId → List OpId → Prop) : Prop where
  nested : must → ∀ {b R P D x x'}, Sem b R P D → x ∈ P → x' ∈ b.inner x → R x' < R x
  settle : ∀ {b R P D x opx}, b₀.Region o b (P ++ [x]) D → Sem b R (P ++ [x]) D → b.op? x = some opx →
    opx.erased = true ∨ opx.kind.blocks ≠ [] → Sem b R P (x :: D)
  step : ∀ {t : LowerState} {R P D x opx k A B}, b₀.Region o t.builder.body (P ++ [x]) D →
    Sem t.builder.body R (P ++ [x]) D → t.builder.body.op? x = some opx → opx.erased = false →
    opx.kind.blocks = [] → t.builder.body.slotsOf k = A ++ x :: B → t.builder.point = ⟨k, A.length⟩ →
    Runs must (Lower.step cx x opx.kind) t fun replaced t' =>
      if replaced then Layer must Sem t.builder.body R x k A B P D t'
      else t'.builder.body = t.builder.body ∧ Sem t.builder.body R P (x :: D)

namespace Region

/-- What every layer keeps holds throughout the walk. -/
theorem stages (h : KeptByLayers must cx b₀ o Sem) (hop : b₀.op? o = some op) (hk : op.kind.blocks = []) :
    Stages must cx fun b _ R P D => b₀.Region o b P D ∧ Sem b R P D where
  coherent hI := hI.1.coherent
  nodup hI := hI.1.tidy.nodup
  known hI := hI.1.tidy.known
  guards := ⟨_, fun hI => hI.1.tidy.guards⟩
  nested hI hm := h.nested hm hI.2
  skip {b y R P D x opx L} hI hopx he hL := by
    -- an erased operation of the region guards nothing
    have hplain := hI.1.plain hop hk (x := x) (by simp) hopx he
    rw [inner_eq_nil hopx hplain] at hL
    cases hL
    exact ⟨hI.1.perm (by simp), h.settle hI.1 hI.2 hopx (.inl he)⟩
  pass hI hopx hblocks _ := ⟨hI.1.perm (by simp), h.settle hI.1 hI.2 hopx (.inr hblocks)⟩
  step {t R P D x opx k A B} hI hopx hw hblocks hs hp := by
    have he := erased_of_stands hopx hw.stands
    refine (h.step hI.1 hI.2 hopx he hblocks hs hp).mono fun replaced t' hout => ?_
    cases replaced with
    | false =>
      obtain ⟨hbody, hsem⟩ := hout
      refine ⟨[], [], R, by simpa [hbody] using hs, .nil, hbody ▸ .refl _ _ _, by simp, fun _ _ => rfl, by simp, ?_⟩
      refine .ok ⟨.refl _, ?_⟩
      rw [hbody, List.append_nil]
      exact ⟨hI.1.perm (by simp), hsem⟩
    | true =>
      obtain ⟨N, R', hN, hR, hm, hsem⟩ := hout
      obtain ⟨⟨H, hH⟩, hg⟩ := id hN
      refine ⟨H, N, R', hH.slots, hH.unfolds, hH.untouched, hH.fresh, hR, fun hmust => (hm hmust).1, ?_⟩
      obtain ⟨opx', hopx', hkind, -⟩ := hg.edited.op? hopx
      have hplain : ∀ op', t'.builder.body.op? x = some op' → op'.kind.blocks = [] := fun op' hop' => by
        rw [Option.some.inj (hop'.symm.trans hopx'), hkind, hblocks]
      refine (eraseOp_ends hg.edited.coherent hplain fun hmust => ⟨by simp [hopx'], (hm hmust).2⟩).mono
        fun b' he' => ⟨he'.outlives, hI.1.stepped hopx hblocks hN he', hsem b' he'⟩

end Region

/-- In place of `o` stands `C`, in front of `o` itself: the operations `N` with all that these guard are done. -/
structure Cleared (b₀ : Body) (o : OpId) (k : BlockId) (A B C N : List OpId) (b : Body) : Prop where
  slots : b.slotsOf k = A ++ C ++ o :: B
  unfolds : Unfolds b (C ++ [o]) N
  region : b₀.Region o b [] N
  untouched : Local b₀ [k] [o] b

/-- An operation is lowered to the end. -/
theorem Region.lowerOp_runs (h : KeptByLayers must cx t.builder.body o Sem) (hb : t.builder.body.Coherent)
    (hop : t.builder.body.op? o = some op) (hk : op.kind.blocks = []) (hw : t.builder.body.Walked o)
    (hs : t.builder.body.slotsOf k = A ++ o :: B) (hsem : Sem t.builder.body R [o] []) (hfuel : must → R o < fuel) :
    Runs must (Lower.lowerOp cx fuel k A.length) t fun _ t' =>
      ∃ C N R', t.builder.body.Cleared o k A B C N t'.builder.body ∧ Sem t'.builder.body R' [] N := by
  have ho : o ∈ t.builder.body.slotsOf k := by simp [hs]
  refine ((Region.stages h hop hk).lowerOp_runs fuel (P := []) (L := []) (D := [])
    ⟨.start hb hop, by simpa using hsem⟩ (hw.exposed hb ho) hs ?_ fun hm x hx => ?_).mono ?_
  · rw [inner_eq_nil hop hk]
    exact .nil
  · rw [List.mem_singleton.1 hx]
    exact hfuel hm
  · rintro - t' ⟨⟨C', N, R', hs', hC, ⟨hregion, hsem'⟩, hlocal, -, -⟩, C, hsC⟩
    obtain rfl : C' = C ++ [o] := by
      rw [hs', List.append_assoc, List.append_assoc] at hsC
      exact List.append_cancel_right (show C' ++ B = C ++ [o] ++ B by simpa using List.append_cancel_left hsC)
    rw [List.append_nil] at hregion hsem'
    exact ⟨C, N, R', ⟨by simpa using hs', hC, hregion, hlocal⟩, hsem'⟩

end Body

end Scalarize
