import Mathlib.Data.List.Forall2
import Scalarize.Lower.State

/-!
# How computations end

One pass over a computation shows both what holds of its result and, where its failures are excluded,
that it has one.

* `Ends must m Q` : `m` has a result with `Q`, or it fails, which it may not if `must` holds;
* `Runs must m s Q` : the same for a computation over a state, started at `s`;
* `Ends.bind`, `Ends.foldlM`, `Runs.mapM`, `Runs.forM`, `Runs.foldlM` : sequences and loops, each with an
  invariant over the part of the list that is done;
* `Runs.build`, `Runs.body`, `Runs.change` : the layers of lowering.
-/

namespace Scalarize

variable {must : Prop} {ε σ α β : Type}

/-- Every element on the right of a pointwise relation is related to one on the left. -/
theorem exists_of_forall₂ {R : α → β → Prop} {l : List α} {m : List β} (h : List.Forall₂ R l m)
    {b : β} (hb : b ∈ m) : ∃ a ∈ l, R a b := by
  induction h with
  | nil => cases hb
  | cons hab _ ih =>
    rcases List.mem_cons.1 hb with rfl | hb
    · exact ⟨_, List.mem_cons_self, hab⟩
    · obtain ⟨a, ha, hr⟩ := ih hb
      exact ⟨a, List.mem_cons_of_mem _ ha, hr⟩

theorem forall₂_flatMap {γ : Type} {R : α → β → Prop} {l : List γ} {f : γ → List α}
    {g : γ → List β} (h : ∀ c ∈ l, List.Forall₂ R (f c) (g c)) :
    List.Forall₂ R (l.flatMap f) (l.flatMap g) := by
  induction l with
  | nil => exact .nil
  | cons c l ih =>
    rw [List.flatMap_cons, List.flatMap_cons]
    exact List.rel_append (h c List.mem_cons_self) (ih fun c' hc' => h c' (List.mem_cons_of_mem _ hc'))

/-- The computation has a result with `Q`, or it fails, which it may not if `must` holds. -/
def Ends (must : Prop) (m : Except ε α) (Q : α → Prop) : Prop :=
  match m with
  | .ok a => Q a
  | .error _ => ¬must

/-- The computation, started at `s`, has a result with `Q`, or it fails, which it may not if `must`
holds. -/
def Runs (must : Prop) (m : StateT σ (Except ε) α) (s : σ) (Q : α → σ → Prop) : Prop :=
  Ends must (m.run s) fun r => Q r.1 r.2

namespace Ends

variable {m : Except ε α} {P Q : α → Prop}

theorem pure {a : α} (h : Q a) : Ends must (Pure.pure a : Except ε α) Q := h

theorem ok {a : α} (h : Q a) : Ends must (.ok a : Except ε α) Q := h

theorem throw {e : ε} (h : ¬must) : Ends must (throw e : Except ε α) Q := h

theorem error {e : ε} (h : ¬must) : Ends must (.error e : Except ε α) Q := h

theorem bind {f : α → Except ε β} {R : β → Prop} (h : Ends must m P)
    (hf : ∀ a, P a → Ends must (f a) R) : Ends must (m >>= f) R := by
  cases m with
  | ok a => exact hf a h
  | error e => exact h

theorem mono (h : Ends must m P) (hPQ : ∀ a, P a → Q a) : Ends must m Q := by
  cases m with
  | ok a => exact hPQ a h
  | error e => exact h

theorem map {f : α → β} {R : β → Prop} (h : Ends must m fun a => R (f a)) : Ends must (f <$> m) R := by
  cases m with
  | ok a => exact h
  | error e => exact h

theorem of_ok (h : Ends must m Q) {a : α} (ha : m = .ok a) : Q a := by
  rw [ha] at h
  exact h

/-- What ends without failing has a result. -/
theorem exists_ok (h : Ends must m Q) (hm : must) : ∃ a, m = .ok a ∧ Q a := by
  cases m with
  | ok a => exact ⟨a, rfl, h⟩
  | error e => exact absurd hm h

theorem and (hP : Ends must m P) (hQ : Ends must m Q) : Ends must m fun a => P a ∧ Q a := by
  cases m with
  | ok a => exact ⟨hP, hQ⟩
  | error e => exact hP

/-- A result may be assumed to be one. -/
theorem with_ok (h : Ends must m Q) : Ends must m fun a => m = .ok a ∧ Q a := by
  cases m with
  | ok a => exact ⟨rfl, h⟩
  | error e => exact h

/-- Ending of a computation known to have a result. -/
theorem of_eq_ok {a : α} (h : m = .ok a) (hQ : Q a) : Ends must m Q := by
  rw [h]
  exact hQ

/-- Ending by cases on the result. -/
theorem intro (hok : ∀ a, m = .ok a → Q a) (herr : must → ∃ a, m = .ok a) : Ends must m Q := by
  cases m with
  | ok a => exact hok a rfl
  | error e =>
    intro hm
    obtain ⟨a, ha⟩ := herr hm
    cases ha

theorem orOutOfRange {o : Option α} {Q : α → Prop} (h : ∀ a, o = some a → Q a)
    (hm : must → o.isSome) : Ends must (Scalarize.orOutOfRange o) Q := by
  cases o with
  | some a => exact h a rfl
  | none => exact fun h => by simpa using hm h

theorem orOverflow {o : Option α} {Q : α → Prop} (h : ∀ a, o = some a → Q a)
    (hm : must → o.isSome) : Ends must (Scalarize.orOverflow o) Q := by
  cases o with
  | some a => exact h a rfl
  | none => exact fun h => by simpa using hm h

theorem bind_some {o : Option α} {a : α} {f : α → Except Failure β} {R : β → Prop} (ho : o = some a)
    (hf : Ends must (f a) R) : Ends must (Scalarize.orOverflow o >>= f) R := by
  rw [ho]
  exact hf

/-- A loop keeps what each of its rounds keeps. -/
theorem foldlM {f : β → α → Except ε β} (I : List α → β → Prop) (l : List α) {b : β} (h0 : I [] b)
    (hf : ∀ done a rest b, l = done ++ a :: rest → I done b → Ends must (f b a) (I (done ++ [a]))) :
    Ends must (l.foldlM f b) (I l) := by
  suffices h : ∀ rest done b, l = done ++ rest → I done b → Ends must (rest.foldlM f b) (I l) from
    h l [] b rfl h0
  intro rest
  induction rest with
  | nil =>
    intro done b hl hb
    rw [List.append_nil] at hl
    rw [List.foldlM_nil, hl]
    exact hb
  | cons a rest ih =>
    intro done b hl hb
    rw [List.foldlM_cons]
    refine (hf done a rest b hl hb).bind fun b' hb' => ?_
    exact ih (done ++ [a]) b' (by simp [hl]) hb'

theorem mapM {f : α → Except ε β} (R : α → β → Prop) (l : List α)
    (hf : ∀ a ∈ l, Ends must (f a) (R a)) : Ends must (l.mapM f) (List.Forall₂ R l) := by
  induction l with
  | nil => exact .pure .nil
  | cons a l ih =>
    rw [List.mapM_cons]
    refine (hf a List.mem_cons_self).bind fun b hb => ?_
    refine (ih fun a ha => hf a (List.mem_cons_of_mem _ ha)).bind fun bs hbs => ?_
    exact .pure (.cons hb hbs)

end Ends

namespace Runs

variable {m : StateT σ (Except ε) α} {s : σ} {P Q : α → σ → Prop}

theorem pure {a : α} (h : Q a s) : Runs must (Pure.pure a : StateT σ (Except ε) α) s Q := h

theorem throw {e : ε} (h : ¬must) : Runs must (throw e : StateT σ (Except ε) α) s Q := h

theorem bind {f : α → StateT σ (Except ε) β} {R : β → σ → Prop} (h : Runs must m s P)
    (hf : ∀ a s', P a s' → Runs must (f a) s' R) : Runs must (m >>= f) s R := by
  unfold Runs at h ⊢
  rw [StateT.run_bind]
  exact h.bind fun r hr => hf r.1 r.2 hr

theorem and (hP : Runs must m s P) (hQ : Runs must m s Q) :
    Runs must m s fun a s' => P a s' ∧ Q a s' :=
  Ends.and hP hQ

theorem bind_throw {e : ε} {f : α → StateT σ (Except ε) β} {R : β → σ → Prop} (h : ¬must) :
    Runs must ((MonadExcept.throw e : StateT σ (Except ε) α) >>= f) s R := h

theorem mono (h : Runs must m s P) (hPQ : ∀ a s', P a s' → Q a s') : Runs must m s Q :=
  Ends.mono h fun r hr => hPQ r.1 r.2 hr

theorem map {f : α → β} {R : β → σ → Prop} (h : Runs must m s fun a s' => R (f a) s') :
    Runs must (f <$> m) s R := by
  unfold Runs at h ⊢
  rw [StateT.run_map]
  exact h.map

theorem get {Q : σ → σ → Prop} (h : Q s s) : Runs must (get : StateT σ (Except ε) σ) s Q := h

theorem modify {f : σ → σ} {Q : Unit → σ → Prop} (h : Q () (f s)) :
    Runs must (modify f : StateT σ (Except ε) Unit) s Q := h

/-- A result may be assumed to be one. -/
theorem with_ok (h : Runs must m s Q) : Runs must m s fun a s' => m.run s = .ok (a, s') ∧ Q a s' :=
  Ends.with_ok h

/-- A computation of the layer below. -/
theorem lift {x : Except ε α} (h : Ends must x fun a => Q a s) :
    Runs must (liftM x : StateT σ (Except ε) α) s Q := by
  cases x with
  | ok a => exact h
  | error e => exact h

/-- A loop keeps what each of its rounds keeps. -/
theorem foldlM {f : β → α → StateT σ (Except ε) β} (I : List α → β → σ → Prop) (l : List α) {b : β}
    {s : σ} (h0 : I [] b s)
    (hf : ∀ done a rest b s, l = done ++ a :: rest → I done b s →
      Runs must (f b a) s (I (done ++ [a]))) :
    Runs must (l.foldlM f b) s (I l) := by
  suffices h : ∀ rest done b s, l = done ++ rest → I done b s →
      Runs must (rest.foldlM f b) s (I l) from h l [] b s rfl h0
  intro rest
  induction rest with
  | nil =>
    intro done b s hl hb
    rw [List.append_nil] at hl
    rw [List.foldlM_nil, hl]
    exact hb
  | cons a rest ih =>
    intro done b s hl hb
    rw [List.foldlM_cons]
    refine (hf done a rest b s hl hb).bind fun b' s' hb' => ?_
    exact ih (done ++ [a]) b' s' (by simp [hl]) hb'

/-- A loop that collects results keeps what each of its rounds keeps. -/
theorem mapM {f : α → StateT σ (Except ε) β} (I : List α → List β → σ → Prop) (l : List α) {s : σ}
    (h0 : I [] [] s)
    (hf : ∀ done a rest bs s, l = done ++ a :: rest → I done bs s →
      Runs must (f a) s fun b s' => I (done ++ [a]) (bs ++ [b]) s') :
    Runs must (l.mapM f) s (I l) := by
  suffices h : ∀ rest done bs s, l = done ++ rest → I done bs s →
      Runs must (rest.mapM f) s fun bs' s' => I l (bs ++ bs') s' from by
    simpa using h l [] [] s rfl h0
  intro rest
  induction rest with
  | nil =>
    intro done bs s hl hb
    rw [List.append_nil] at hl
    subst hl
    rw [List.mapM_nil]
    exact .pure (by simpa using hb)
  | cons a rest ih =>
    intro done bs s hl hb
    rw [List.mapM_cons]
    refine (hf done a rest bs s hl hb).bind fun b s' hb' => ?_
    refine (ih (done ++ [a]) (bs ++ [b]) s' (by simp [hl]) hb').bind fun bs' s'' hbs => ?_
    exact .pure (by simpa using hbs)

/-- A loop keeps what each of its rounds keeps. -/
theorem forM {f : α → StateT σ (Except ε) PUnit} (I : List α → σ → Prop) (l : List α) {s : σ}
    (h0 : I [] s)
    (hf : ∀ done a rest s, l = done ++ a :: rest → I done s →
      Runs must (f a) s fun _ s' => I (done ++ [a]) s') :
    Runs must (l.forM f) s fun _ s' => I l s' := by
  suffices h : ∀ rest done s, l = done ++ rest → I done s →
      Runs must (rest.forM f) s fun _ s' => I l s' from h l [] s rfl h0
  intro rest
  induction rest with
  | nil =>
    intro done s hl hb
    rw [List.append_nil] at hl
    subst hl
    exact .pure hb
  | cons a rest ih =>
    intro done s hl hb
    change Runs must (f a >>= fun _ => rest.forM f) s _
    refine (hf done a rest s hl hb).bind fun _ s' hb' => ?_
    exact ih (done ++ [a]) s' (by simp [hl]) hb'

end Runs

/-! ## The layers of lowering -/

namespace Runs

variable {s : Builder} {t : LowerState}

theorem read {f : Body → Except Failure α} {Q : α → Builder → Prop}
    (h : Ends must (f s.body) fun a => Q a s) : Runs must (Build.read f) s Q := by
  unfold Runs Build.read
  change Ends must (f s.body >>= fun a => Pure.pure (a, s)) _
  exact h.bind fun a ha => .pure ha

theorem build {m : Build α} {Q : α → LowerState → Prop}
    (h : Runs must m t.builder fun a b => Q a { t with builder := b }) : Runs must (Lower.build m) t Q := by
  unfold Runs Lower.build
  change Ends must (m t.builder >>= fun r => Pure.pure (r.1, (⟨r.2, t.symbols⟩ : LowerState))) _
  exact Ends.bind h fun r hr => .pure hr

theorem body {f : Body → Except Failure α} {Q : α → LowerState → Prop}
    (h : Ends must (f t.builder.body) fun a => Q a t) : Runs must (Lower.body f) t Q := by
  unfold Lower.body
  refine bind (get ⟨rfl, rfl⟩ : Runs must _ t fun a s => a = t ∧ s = t) fun a s hs => ?_
  obtain ⟨rfl, rfl⟩ := hs
  exact build (lift h)

/-- Reading the body leaves the state as it is. -/
theorem bind_body {f : Body → Except Failure α} {g : α → Lower β} {P : α → Prop}
    {Q : β → LowerState → Prop} (h : Ends must (f t.builder.body) P)
    (hg : ∀ a, P a → Runs must (g a) t Q) : Runs must (Lower.body f >>= g) t Q :=
  bind (body (Q := fun a t' => t' = t ∧ P a) (h.mono fun _ ha => ⟨rfl, ha⟩))
    fun a _ ⟨ht, ha⟩ => ht ▸ hg a ha

/-- Reading the body leaves the builder as it is. -/
theorem bind_read {f : Body → Except Failure α} {g : α → Build β} {P : α → Prop}
    {Q : β → Builder → Prop} (h : Ends must (f s.body) P) (hg : ∀ a, P a → Runs must (g a) s Q) :
    Runs must (Build.read f >>= g) s Q :=
  bind (read (Q := fun a s' => s' = s ∧ P a) (h.mono fun _ ha => ⟨rfl, ha⟩))
    fun a _ ⟨hs, ha⟩ => hs ▸ hg a ha

/-- Building steps leave the symbols as they are. -/
theorem bind_build {m : Build α} {g : α → Lower β} {P : α → Builder → Prop}
    {Q : β → LowerState → Prop} (h : Runs must m t.builder P)
    (hg : ∀ a s', P a s' → Runs must (g a) ⟨s', t.symbols⟩ Q) :
    Runs must ((liftM m : Lower α) >>= g) t Q := by
  refine bind (P := fun a t' => P a t'.builder ∧ t'.symbols = t.symbols)
    (build (h.mono fun a s' ha => ⟨ha, rfl⟩)) fun a t' ⟨ha, hy⟩ => ?_
  obtain ⟨s', y⟩ := t'
  obtain rfl : y = t.symbols := hy
  exact hg a s' ha

/-- A computation without a state leaves the state as it is. -/
theorem bind_except {x : Except Failure α} {g : α → Lower β} {P : α → Prop}
    {Q : β → LowerState → Prop} (h : Ends must x P) (hg : ∀ a, P a → Runs must (g a) t Q) :
    Runs must ((liftM x : Lower α) >>= g) t Q := by
  refine bind (P := fun a t' => t' = t ∧ P a) ?_ fun a _ ⟨ht, ha⟩ => ht ▸ hg a ha
  refine build (lift (h.mono fun a ha => ⟨rfl, ha⟩))

/-- The same while building. -/
theorem bind_exceptBuild {x : Except Failure α} {g : α → Build β} {P : α → Prop}
    {Q : β → Builder → Prop} (h : Ends must x P) (hg : ∀ a, P a → Runs must (g a) s Q) :
    Runs must ((liftM x : Build α) >>= g) s Q :=
  bind (lift (Q := fun a s' => s' = s ∧ P a) (h.mono fun _ ha => ⟨rfl, ha⟩))
    fun a _ ⟨hs, ha⟩ => hs ▸ hg a ha

theorem change {f : Body → Except Failure Body} {Q : Unit → LowerState → Prop}
    (h : Ends must (f t.builder.body) fun b => Q () ⟨⟨b, t.builder.point⟩, t.symbols⟩) :
    Runs must (Lower.change f) t Q := by
  refine build ?_
  unfold Runs Build.change
  change Ends must (f t.builder.body >>= fun b => Pure.pure ((), (⟨b, t.builder.point⟩ : Builder))) _
  exact h.bind fun b hb => .pure hb

theorem bind_change {f : Body → Except Failure Body} {g : Unit → Lower β} {P : Body → Prop}
    {Q : β → LowerState → Prop} (h : Ends must (f t.builder.body) P)
    (hg : ∀ b, P b → Runs must (g ()) ⟨⟨b, t.builder.point⟩, t.symbols⟩ Q) :
    Runs must (Lower.change f >>= g) t Q := by
  refine bind (change (Q := fun _ t' => ∃ b, P b ∧ t' = ⟨⟨b, t.builder.point⟩, t.symbols⟩)
    (h.mono fun b hb => ⟨b, hb, rfl⟩)) ?_
  rintro _ _ ⟨b, hb, rfl⟩
  exact hg b hb

theorem mint {f : Symbols → String × Symbols} {Q : String → LowerState → Prop}
    (h : Q (f t.symbols).1 ⟨t.builder, (f t.symbols).2⟩) : Runs must (Lower.mint f) t Q := h

theorem bind_mint {f : Symbols → String × Symbols} {g : String → α} {k : α → Lower β}
    {Q : β → LowerState → Prop}
    (h : Runs must (k (g (f t.symbols).1)) ⟨t.builder, (f t.symbols).2⟩ Q) :
    Runs must (g <$> Lower.mint f >>= k) t Q := h

theorem point {Q : Point → LowerState → Prop} (h : Q t.builder.point t) :
    Runs must Lower.point t Q := h

theorem bind_point {f : Point → Lower β} {Q : β → LowerState → Prop}
    (h : Runs must (f t.builder.point) t Q) : Runs must (Lower.point >>= f) t Q := h

theorem bind_moveTo {p : Point} {f : Unit → Lower β} {Q : β → LowerState → Prop}
    (h : Runs must (f ()) ⟨⟨t.builder.body, p⟩, t.symbols⟩ Q) :
    Runs must ((liftM (Build.moveTo p) : Lower Unit) >>= f) t Q := h

theorem moveTo {p : Point} {Q : Unit → Builder → Prop} (h : Q () { s with point := p }) :
    Runs must (Build.moveTo p) s Q := h

end Runs

end Scalarize
