import Scalarize.Proofs.Carriers
import Scalarize.Proofs.Partition

/-!
# Descent of symbols

While a module is lowered, carriers give way to carriers of their parts, whose symbols descend from
theirs. Nothing is lost on the way: neither a piece of a type, nor the record of a ground carrier.

* `Symbols.root` : the symbol from which a symbol descends; `Symbols.Gains`, `Symbols.LabelsPart` : what is
  recorded once a symbol is made;
* `Descent` : the carriers at first, those now, and what is recorded;
* `Descent.add`, `Descent.remove`, `Descent.swap` : one carrier comes, goes or is made anew;
* `Parting` : a carrier gave way, some of its parts are still to be made; `Descent.part`, `Parting.label`,
  `Parting.finish` : the beginning, a part and the end.
-/

namespace Scalarize

/-! ## The record -/

namespace Symbols

variable {y y' : Symbols} {base : String} {sym? : Option String}

/-- The symbol from which a symbol descends, itself if it descends from no other. -/
def root (y : Symbols) (s : String) : String := y.origins.leader s

/-- Symbols that descend from others are linked to their roots, and are taken. -/
structure Rooted (y : Symbols) : Prop where
  star : y.origins.Star
  tracked : ∀ {s r}, y.origins.parents.get? s = some r → s ∈ y.names.taken
  detached : ∀ {s}, s ∈ y.detachedSyms → s ∈ y.names.taken

theorem Rooted.get?_eq_none (h : y.Rooted) {s : String} (hs : s ∉ y.names.taken) :
    y.origins.parents.get? s = none := by
  cases hget : y.origins.parents.get? s with
  | none => rfl
  | some r => exact absurd (h.tracked hget) hs

theorem Rooted.root_eq (h : y.Rooted) {s : String} (hs : s ∉ y.names.taken) : y.root s = s := by
  rw [root, Partition.leader, h.get?_eq_none hs, Option.getD_none]

/-- A symbol was made, or none; nothing else that concerns symbols that were taken is different. -/
structure Gains (y : Symbols) (sym? : Option String) (y' : Symbols) : Prop where
  moduleName : y'.moduleName = y.moduleName
  rooted : y'.Rooted
  taken : y'.names.taken = sym?.toList ++ y.names.taken
  new : ∀ s, sym? = some s → s ∉ y.names.taken
  root : ∀ s ∈ y.names.taken, y'.root s = y.root s
  detached : ∀ s ∈ y.names.taken, (s ∈ y'.detachedSyms ↔ s ∈ y.detachedSyms)

namespace Gains

theorem refl (h : y.Rooted) : y.Gains none y := ⟨rfl, h, rfl, nofun, fun _ _ => rfl, fun _ _ => .rfl⟩

theorem mem (h : y.Gains sym? y') {s : String} (hs : s ∈ y.names.taken) : s ∈ y'.names.taken := by
  rw [h.taken]
  exact List.mem_append_right _ hs

theorem mem_new (h : y.Gains sym? y') {s : String} (hs : sym? = some s) : s ∈ y'.names.taken := by
  rw [h.taken, hs]
  exact List.mem_append_left _ List.mem_cons_self

end Gains

theorem gains_fresh (h : y.Rooted) (text : String) : y.Gains (some (y.fresh text).1) (y.fresh text).2 where
  moduleName := rfl
  rooted :=
    { star := h.star
      tracked := fun hs => by
        rw [show (y.fresh text).2.names.taken = _ from y.names.taken_fresh text]
        exact List.mem_cons_of_mem _ (h.tracked hs)
      detached := fun hs => by
        rw [show (y.fresh text).2.names.taken = _ from y.names.taken_fresh text]
        exact List.mem_cons_of_mem _ (h.detached hs) }
  taken := y.names.taken_fresh text
  new _ hs := Option.some.inj hs ▸ y.names.fresh_not_mem text
  root _ _ := rfl
  detached _ _ := .rfl

/-- A new symbol is detached. -/
theorem Gains.detach {s : String} (h : y.Gains (some s) y') :
    y.Gains (some s) { y' with detachedSyms := s :: y'.detachedSyms } where
  moduleName := h.moduleName
  rooted :=
    { star := h.rooted.star
      tracked := h.rooted.tracked
      detached := fun {c} hc => by
        rcases List.mem_cons.1 hc with rfl | hc
        · exact h.mem_new rfl
        · exact h.rooted.detached hc }
  taken := h.taken
  new := h.new
  root := h.root
  detached c hc := by
    refine Iff.trans ⟨fun hmem => ?_, List.mem_cons_of_mem _⟩ (h.detached c hc)
    rcases List.mem_cons.1 hmem with rfl | hmem
    · exact absurd hc (h.new c rfl)
    · exact hmem

theorem gains_detached (h : y.Rooted) (name : Option String) (suffix : String) :
    y.Gains (some (y.detached name suffix).1) (y.detached name suffix).2 := by
  unfold detached
  cases name.filter (· ≠ "") with
  | some name => exact (gains_fresh h (name ++ suffix)).detach
  | none =>
    have h' : ({ y with generated := y.generated + 1 } : Symbols).Rooted := ⟨h.star, h.tracked, h.detached⟩
    have hg := (gains_fresh h' (generatedName y.generated ++ suffix)).detach
    exact ⟨hg.moduleName, hg.rooted, hg.taken, hg.new, hg.root, hg.detached⟩

theorem mem_detachedSyms_detached (y : Symbols) (name : Option String) (suffix : String) :
    (y.detached name suffix).1 ∈ (y.detached name suffix).2.detachedSyms := by
  unfold detached
  cases name.filter (· ≠ "") <;> exact List.mem_cons_self

theorem targets_detached (y : Symbols) (name : Option String) (suffix : String) :
    (y.detached name suffix).2.targets = y.targets := by
  unfold detached
  cases name.filter (· ≠ "") <;> rfl

theorem root_detached (h : y.Rooted) (name : Option String) (suffix : String) :
    (y.detached name suffix).2.root (y.detached name suffix).1 = (y.detached name suffix).1 := by
  have horigins : (y.detached name suffix).2.origins = y.origins := by
    unfold detached
    cases name.filter (· ≠ "") <;> rfl
  have hroot := h.root_eq ((gains_detached h name suffix).new _ rfl)
  unfold root at hroot ⊢
  rw [horigins, hroot]

/-- A new symbol descends from what its base descends from, and is recorded there if it is to be. -/
theorem derive_spec (h : y.Rooted) (hbase : base ∈ y.names.taken) (suffix : String) (ground : Bool)
    (place : TargetKind) :
    y.Gains (some (y.derive base suffix ground place).1) (y.derive base suffix ground place).2 ∧
      (y.derive base suffix ground place).2.root (y.derive base suffix ground place).1 = y.root base ∧
      (y.derive base suffix ground place).2.targets =
        if ground = true ∧ y.root base ∉ y.detachedSyms then
          y.targets.adjust (y.root base) [] (· ++ [⟨(y.derive base suffix ground place).1, place⟩])
        else y.targets := by
  have hfresh : (y.names.fresh (base ++ suffix)).1 ∉ y.names.taken := y.names.fresh_not_mem _
  have hnone := h.get?_eq_none hfresh
  have hne : (y.names.fresh (base ++ suffix)).1 ≠ base := fun heq => hfresh (by rwa [heq])
  have hunion := fun c => Partition.get?_union (a := base) h.star hnone hne c
  have hleader := fun c => Partition.leader_union (a := base) h.star hnone hne c
  have htaken := y.names.taken_fresh (base ++ suffix)
  have hderive : y.derive base suffix ground place =
      ((y.names.fresh (base ++ suffix)).1,
        { y with
          names := (y.names.fresh (base ++ suffix)).2
          origins := (y.origins.union base (y.names.fresh (base ++ suffix)).1).2
          targets := if ground = true ∧ y.root base ∉ y.detachedSyms then
            y.targets.adjust (y.root base) [] (· ++ [⟨(y.names.fresh (base ++ suffix)).1, place⟩])
            else y.targets }) := by
    unfold derive fresh
    dsimp only
    rw [(hunion base).1, show y.origins.leader base = y.root base from rfl]
    by_cases hg : ground = true ∧ y.root base ∉ y.detachedSyms
    · rw [if_pos hg, if_pos (by simpa using hg)]
    · rw [if_neg hg, if_neg (by simpa using hg)]
  rw [hderive]
  refine ⟨⟨rfl, ⟨Partition.star_union h.star hnone hne, fun {c r} hc => ?_, fun hd => ?_⟩, htaken, ?_,
    fun c hc => ?_, fun _ _ => .rfl⟩, ?_, rfl⟩
  · dsimp only at hc ⊢
    rw [htaken]
    rw [(hunion c).2] at hc
    split at hc
    next hor =>
      rcases hor with rfl | rfl
      · exact List.mem_cons_self
      · exact List.mem_cons_of_mem _ hbase
    next => exact List.mem_cons_of_mem _ (h.tracked hc)
  · dsimp only at hd ⊢
    rw [htaken]
    exact List.mem_cons_of_mem _ (h.detached hd)
  · exact fun s hs => Option.some.inj hs ▸ hfresh
  · refine (hleader c).trans (if_neg ?_)
    rintro rfl
    exact hfresh hc
  · exact (hleader _).trans (if_pos rfl)

/-- How a part of a carrier with the symbol `sym`, or with none, gets its own symbol, or none. -/
inductive LabelsPart (y : Symbols) (place : TargetKind) (part : Part) :
    Option String → Option String → Symbols → Prop
  | derived (base : String) : LabelsPart y place part (some base)
      (some (y.derive base part.suffix part.ty.isGround place).1)
      (y.derive base part.suffix part.ty.isGround place).2
  | detached (name : Option String) : LabelsPart y place part none
      (some (y.detached name part.suffix).1) (y.detached name part.suffix).2
  | none : LabelsPart y place part none none y

end Symbols

/-! ## Descent -/

/-- The pieces that a carrier is split into in the end. -/
def Carrier.pieces (e : Carrier) : List Ty := e.ty.elim [] (Ty.pieces e.keep)

/-- A carrier of the module with the symbol gives way to its parts. -/
def Module.GivesWay (options : Options) (m : Module) (s : String) : Prop :=
  ∃ e ∈ m.carriers options, e.sym = some s ∧ e.Splits

/-- A carrier of the module has an annotation that is scoped to the path, and no symbol or this one. -/
def Module.Scopes (options : Options) (m : Module) (sym? : Option String) (path : String) : Prop :=
  ∃ e ∈ m.carriers options, (∃ a ∈ e.annotations, a.path = some path) ∧ (e.sym = none ∨ e.sym = sym?)

/-- Where a carrier with the symbol `s` comes from: it was there at first, or it is an instance that was
made anew, or its symbol descends from one that gave way or that is nobody's target. -/
inductive Carrier.Stems (options : Options) (m : Module) (y : Symbols) (e : Carrier) (s : String) : Prop
  | first (h : e ∈ m.carriers options)
  | anew (hty : e.ty = none) (hroot : y.root s = s)
      (h : ∀ e₀ ∈ m.carriers options, e₀.sym = some s → e₀.ty = none)
  | descends (hty : e.ty.isSome) (h : ∀ e₀ ∈ m.carriers options, e₀.sym ≠ some s)
      (hroot : m.GivesWay options (y.root s) ∨ y.root s ∈ y.detachedSyms)

/-- Target `t` of the symbol `r` is the symbol of a ground carrier that descends from it. -/
def Symbols.Aims (y : Symbols) (E : Carrier → Prop) (r : String) (t : Target) : Prop :=
  y.root t.sym = r ∧ ∃ e, E e ∧ e.sym = some t.sym ∧ e.place = t.kind ∧ e.ground = true

/-- The carriers of the module `m` gave way to the carriers `E`, except that `left` is still to be made for
each of their symbols. -/
structure Descent (options : Options) (m : Module) (E : Carrier → Prop) (left : String → List Ty)
    (y : Symbols) : Prop where
  moduleName : y.moduleName = m.name
  rooted : y.Rooted
  own : ∀ {e s}, e ∈ m.carriers options → e.sym = some s →
    s ∈ y.names.taken ∧ y.root s = s ∧ s ∉ y.detachedSyms
  single : ∀ {e e' s}, e ∈ m.carriers options → e' ∈ m.carriers options → e.sym = some s →
    e'.sym = some s → e = e'
  taken : ∀ {e s}, E e → e.sym = some s → s ∈ y.names.taken
  stem : ∀ {e s}, E e → e.sym = some s → e.Stems options m y s
  /-- Symbols that do not give way are still carried. -/
  kept : ∀ {e₀ s}, e₀ ∈ m.carriers options → e₀.sym = some s → ¬e₀.Splits → ∃ e, E e ∧ e.sym = some s
  targets : ∀ {r ts}, y.targets.get? r = some ts →
    m.GivesWay options r ∧ ts ≠ [] ∧ (ts.map (·.sym)).Nodup ∧ ∀ t ∈ ts, y.Aims E r t
  keys : y.targets.keys.Nodup
  /-- Every ground carrier is recorded that descends from a symbol that gave way. -/
  complete : ∀ {e s}, E e → e.sym = some s → e.ground = true → m.GivesWay options (y.root s) →
    ∃ ts, y.targets.get? (y.root s) = some ts ∧ ⟨s, e.place⟩ ∈ ts
  annotated : ∀ {e a p}, E e → a ∈ e.annotations → a.path = some p → m.Scopes options (e.sym.map y.root) p
  /-- The carriers that descend from a symbol hold all pieces of the type that its carrier held. -/
  divided : ∀ {e₀ s t}, e₀ ∈ m.carriers options → e₀.sym = some s → e₀.ty = some t →
    ∃ l : List Carrier, l.Nodup ∧ (∀ e, e ∈ l ↔ E e ∧ e.sym.map y.root = some s) ∧
      (∀ e ∈ l, e.ty.isSome ∧ e.keep = e₀.keep) ∧
      (t.pieces e₀.keep).Perm (l.flatMap Carrier.pieces ++ left s)

namespace Descent

variable {options : Options} {m : Module} {E E' : Carrier → Prop} {left left' : String → List Ty}
  {y y' : Symbols} {c e : Carrier} {r s : String}

theorem congr (h : Descent options m E left y) (hE : ∀ e, E' e ↔ E e) : Descent options m E' left y := by
  obtain rfl : E' = E := funext fun e => propext (hE e)
  exact h

theorem mem_taken (h : Descent options m E left y) (hr : m.GivesWay options r) : r ∈ y.names.taken := by
  obtain ⟨e₀, he₀, hs, -⟩ := hr
  exact (h.own he₀ hs).1

/-- A symbol that gave way is not detached. -/
theorem not_detached (h : Descent options m E left y) (hr : m.GivesWay options r) : r ∉ y.detachedSyms := by
  obtain ⟨e₀, he₀, hs, -⟩ := hr
  exact (h.own he₀ hs).2.2

/-- A carrier that gives way descends from a symbol that gave way, or from a detached one. -/
theorem root_of_splits (h : Descent options m E left y) (he : E e) (hs : e.sym = some s) (hsplits : e.Splits) :
    m.GivesWay options (y.root s) ∨ y.root s ∈ y.detachedSyms := by
  cases h.stem he hs with
  | first he₀ =>
    rw [(h.own he₀ hs).2.1]
    exact .inl ⟨e, he₀, hs, hsplits⟩
  | anew hty =>
    obtain ⟨t, ht, -⟩ := hsplits
    rw [hty] at ht
    cases ht
  | descends _ _ hroot => exact hroot

/-- A carrier comes with a new symbol, or with none. -/
theorem add (h : Descent options m E left y) (hg : y.Gains c.sym y') (hE : ∀ e, E' e ↔ E e ∨ e = c)
    (hstem : ∀ s, c.sym = some s → c.Stems options m y' s)
    (htargets : (∃ s, c.sym = some s ∧ c.ground = true ∧ m.GivesWay options (y'.root s) ∧
        y'.targets = y.targets.adjust (y'.root s) [] (· ++ [⟨s, c.place⟩])) ∨
      y'.targets = y.targets ∧ ∀ s, c.sym = some s → c.ground = true → ¬m.GivesWay options (y'.root s))
    (hann : ∀ a ∈ c.annotations, ∀ p, a.path = some p → m.Scopes options (c.sym.map y'.root) p)
    (hleft : ∀ e₀ ∈ m.carriers options, ∀ s, e₀.sym = some s →
      if c.sym.map y'.root = some s then
        c.ty.isSome ∧ c.keep = e₀.keep ∧ (left s).Perm (c.pieces ++ left' s) else left s = left' s) :
    Descent options m E' left' y' := by
  have hroot : ∀ {e}, E e → e.sym.map y'.root = e.sym.map y.root := fun {e} he => by
    cases hs : e.sym with
    | none => rfl
    | some s => rw [Option.map_some, Option.map_some, hg.root s (h.taken he hs)]
  have hnew : ¬E c ∨ c.sym = none := by
    cases hs : c.sym with
    | none => exact .inr rfl
    | some s => exact .inl fun he => hg.new s hs (h.taken he hs)
  have haims : ∀ {r t}, y.Aims E r t → y'.Aims E' r t := by
    rintro r t ⟨hr, e, he, hs, hrest⟩
    exact ⟨(hg.root _ (h.taken he hs)).trans hr, e, (hE e).2 (.inl he), hs, hrest⟩
  refine
    { moduleName := hg.moduleName.trans h.moduleName, rooted := hg.rooted
      own := fun {e s} he hs => ?own, single := h.single, taken := fun {e s} he hs => ?taken
      stem := fun {e s} he hs => ?stem, kept := fun {e₀ s} he₀ hs hsplits => ?kept
      targets := fun {r ts} hget => ?targets, keys := ?keys
      complete := fun {e s} he hs hground hr => ?complete
      annotated := fun {e a p} he ha hp => ?annotated
      divided := fun {e₀ s t} he₀ hs ht => ?divided }
  case own =>
    obtain ⟨htaken, hown, hdet⟩ := h.own he hs
    exact ⟨hg.mem htaken, (hg.root s htaken).trans hown, fun hd => hdet ((hg.detached s htaken).1 hd)⟩
  case taken =>
    rcases (hE e).1 he with he | rfl
    · exact hg.mem (h.taken he hs)
    · exact hg.mem_new hs
  case stem =>
    rcases (hE e).1 he with he | rfl
    · have htaken := h.taken he hs
      cases h.stem he hs with
      | first hfirst => exact .first hfirst
      | anew hty hroot hnone => exact .anew hty ((hg.root s htaken).trans hroot) hnone
      | descends hty hnone hroot =>
        refine .descends hty hnone ?_
        rw [hg.root s htaken]
        exact hroot.imp_right fun hd => (hg.detached _ (h.rooted.detached hd)).2 hd
    · exact hstem s hs
  case kept =>
    obtain ⟨e, he, hs⟩ := h.kept he₀ hs hsplits
    exact ⟨e, (hE e).2 (.inl he), hs⟩
  case targets =>
    rcases htargets with ⟨s, hs, hground, hr, htargets⟩ | ⟨htargets, -⟩
    · rw [htargets, Assoc.adjust, Assoc.get?_put] at hget
      split at hget
      next heq =>
        subst heq
        obtain rfl := Option.some.inj hget
        have haim : y'.Aims E' (y'.root s) ⟨s, c.place⟩ :=
          ⟨rfl, c, (hE c).2 (.inr rfl), hs, rfl, hground⟩
        refine ⟨hr, by simp, ?_, fun t ht => ?_⟩
        · cases hold : y.targets.get? (y'.root s) with
          | none => simp
          | some ts =>
            obtain ⟨-, -, hnd, hall⟩ := h.targets hold
            rw [Option.getD_some, List.map_append]
            refine List.nodup_append.2 ⟨hnd, List.nodup_singleton _, ?_⟩
            rintro u hu v hv rfl
            obtain ⟨t, ht, htu⟩ := List.mem_map.1 hu
            obtain ⟨-, e, he, hes, -⟩ := hall t ht
            exact hg.new s hs (h.taken he (by rw [hes, htu, List.mem_singleton.1 hv]))
        · rcases List.mem_append.1 ht with ht | ht
          · cases hold : y.targets.get? (y'.root s) with
            | none => rw [hold] at ht; cases ht
            | some ts =>
              rw [hold] at ht
              exact haims ((h.targets hold).2.2.2 t ht)
          · rw [List.mem_singleton.1 ht]
            exact haim
      next =>
        obtain ⟨hr, hne, hnd, hall⟩ := h.targets hget
        exact ⟨hr, hne, hnd, fun t ht => haims (hall t ht)⟩
    · rw [htargets] at hget
      obtain ⟨hr, hne, hnd, hall⟩ := h.targets hget
      exact ⟨hr, hne, hnd, fun t ht => haims (hall t ht)⟩
  case keys =>
    rcases htargets with ⟨s, -, -, -, htargets⟩ | ⟨htargets, -⟩
    · rw [htargets, Assoc.adjust, Assoc.keys_put]
      split
      · exact h.keys
      next hmem =>
        refine List.nodup_append.2 ⟨h.keys, List.nodup_singleton _, ?_⟩
        rintro a ha _ hb rfl
        exact hmem (List.mem_singleton.1 hb ▸ ha)
    · rw [htargets]
      exact h.keys
  case complete =>
    rcases (hE e).1 he with he | rfl
    · rw [hg.root s (h.taken he hs)] at hr ⊢
      obtain ⟨ts, hget, hmem⟩ := h.complete he hs hground hr
      rcases htargets with ⟨s', -, -, -, htargets⟩ | ⟨htargets, -⟩
      · rw [htargets, Assoc.adjust, Assoc.get?_put]
        split
        next heq => exact ⟨_, rfl, List.mem_append_left _ (by rw [heq, hget]; exact hmem)⟩
        next => exact ⟨ts, hget, hmem⟩
      · exact ⟨ts, by rw [htargets, hget], hmem⟩
    · rcases htargets with ⟨s', hs', -, -, htargets⟩ | ⟨-, hnot⟩
      · obtain rfl := Option.some.inj (hs.symm.trans hs')
        rw [htargets, Assoc.adjust, Assoc.get?_put, if_pos rfl]
        exact ⟨_, rfl, List.mem_append_right _ (List.mem_singleton_self _)⟩
      · exact absurd hr (hnot s hs hground)
  case annotated =>
    rcases (hE e).1 he with he | rfl
    · rw [hroot he]
      exact h.annotated he ha hp
    · exact hann a ha p hp
  case divided =>
    obtain ⟨l, hnd, hmem, hall, hperm⟩ := h.divided he₀ hs ht
    have hold : ∀ {e}, E e → (e.sym.map y'.root = some s ↔ e ∈ l) := fun {e} he => by
      rw [hroot he, hmem]
      exact ⟨fun hr => ⟨he, hr⟩, And.right⟩
    have hl := hleft e₀ he₀ s hs
    split at hl
    next hc =>
      -- the carrier is new, for its symbol is
      obtain ⟨hty, hkeep, hleft⟩ := hl
      have hcl : c ∉ l := fun hcl => by
        rcases hnew with hnew | hnew
        · exact hnew ((hmem c).1 hcl).1
        · rw [hnew] at hc
          cases hc
      refine ⟨c :: l, List.nodup_cons.2 ⟨hcl, hnd⟩, fun e => ?_, fun e he => ?_, hperm.trans ?_⟩
      · rw [List.mem_cons, hE]
        constructor
        · rintro (rfl | he)
          · exact ⟨.inr rfl, hc⟩
          · have hEe := ((hmem e).1 he).1
            exact ⟨.inl hEe, (hold hEe).2 he⟩
        · rintro ⟨he | rfl, hr⟩
          · exact .inr ((hold he).1 hr)
          · exact .inl rfl
      · rcases List.mem_cons.1 he with rfl | he
        · exact ⟨hty, hkeep⟩
        · exact hall e he
      · rw [List.flatMap_cons]
        refine (hleft.append_left _).trans ?_
        rw [← List.append_assoc]
        exact List.perm_append_comm.append_right _
    next hc =>
      refine ⟨l, hnd, fun e => ?_, hall, hl ▸ hperm⟩
      rw [hE]
      constructor
      · intro he
        have hEe := ((hmem e).1 he).1
        exact ⟨.inl hEe, (hold hEe).2 he⟩
      · rintro ⟨he | rfl, hr⟩
        · exact (hold he).1 hr
        · exact absurd hr hc

/-- A carrier goes that gives way, or that has no symbol. -/
theorem remove (h : Descent options m E left y) (he : E e) (hsub : ∀ e', E' e' → E e')
    (hrest : ∀ e', E e' → e' = e ∨ E' e') (hgone : e.sym.isSome → ¬E' e) (hsplits : e.sym = none ∨ e.Splits)
    (hleft : ∀ s, if e.sym.map y.root = some s then (e.pieces ++ left s).Perm (left' s) else left s = left' s) :
    Descent options m E' left' y where
  moduleName := h.moduleName
  rooted := h.rooted
  own := h.own
  single := h.single
  taken he' := h.taken (hsub _ he')
  stem he' := h.stem (hsub _ he')
  kept {e₀ s} he₀ hs hnot := by
    obtain ⟨e₁, he₁, hs₁⟩ := h.kept he₀ hs hnot
    refine ⟨e₁, (hrest e₁ he₁).resolve_left ?_, hs₁⟩
    rintro rfl
    -- what gave way was not there at first with a symbol that is kept
    replace hsplits := hsplits.resolve_left (by rw [hs₁]; nofun)
    cases h.stem he₁ hs₁ with
    | first he₁' => exact hnot (h.single he₁' he₀ hs₁ hs ▸ hsplits)
    | anew hty =>
      obtain ⟨t, ht, -⟩ := hsplits
      rw [hty] at ht
      cases ht
    | descends _ hnone => exact hnone e₀ he₀ hs
  targets hget := by
    obtain ⟨hr, hne, hnd, hall⟩ := h.targets hget
    refine ⟨hr, hne, hnd, fun t ht => ?_⟩
    obtain ⟨hroot, e₁, he₁, hs₁, hplace, hground⟩ := hall t ht
    refine ⟨hroot, e₁, (hrest e₁ he₁).resolve_left ?_, hs₁, hplace, hground⟩
    rintro rfl
    rcases hsplits with hsplits | hsplits
    · rw [hs₁] at hsplits
      cases hsplits
    · rw [hsplits.not_ground] at hground
      cases hground
  keys := h.keys
  complete he' := h.complete (hsub _ he')
  annotated he' := h.annotated (hsub _ he')
  divided {e₀ s t} he₀ hs ht := by
    obtain ⟨l, hnd, hmem, hall, hperm⟩ := h.divided he₀ hs ht
    have hl := hleft s
    split at hl
    next hr =>
      have hsome : e.sym.isSome := by
        cases hs : e.sym with
        | none => rw [hs] at hr; cases hr
        | some s => rfl
      obtain ⟨l₁, l₂, rfl⟩ := List.append_of_mem ((hmem e).2 ⟨he, hr⟩)
      rw [List.nodup_middle] at hnd
      obtain ⟨hel, hnd⟩ := List.nodup_cons.1 hnd
      refine ⟨l₁ ++ l₂, hnd, fun e' => ?_, fun e' he' => hall e' ?_, hperm.trans ?_⟩
      · constructor
        · intro he'
          obtain ⟨hE, hr'⟩ := (hmem e').1 (by simp only [List.mem_append, List.mem_cons] at he' ⊢; tauto)
          exact ⟨(hrest e' hE).resolve_left fun heq => hel (heq ▸ he'), hr'⟩
        · rintro ⟨hE, hr'⟩
          have he' := (hmem e').2 ⟨hsub e' hE, hr'⟩
          have hne : e' ≠ e := fun heq => hgone hsome (heq ▸ hE)
          simpa [hne] using he'
      · simp only [List.mem_append, List.mem_cons] at he' ⊢
        tauto
      · refine List.Perm.trans ?_ (hl.append_left _)
        simp only [List.flatMap_append, List.flatMap_cons, List.append_assoc]
        refine List.Perm.append_left _ ?_
        rw [← List.append_assoc, ← List.append_assoc]
        exact List.perm_append_comm.append_right _
    next hr =>
      refine ⟨l, hnd, fun e' => ⟨fun he' => ?_, fun ⟨hE, hr'⟩ => (hmem e').2 ⟨hsub e' hE, hr'⟩⟩, hall,
        hl ▸ hperm⟩
      obtain ⟨hE, hr'⟩ := (hmem e').1 he'
      refine ⟨(hrest e' hE).resolve_left ?_, hr'⟩
      rintro rfl
      exact hr hr'

/-- An instance without a symbol is made anew, with a new symbol or with none. -/
theorem renew (h : Descent options m E left y) (he : E e) (hs : e.sym = none)
    (hc : c.ty = none ∧ c.annotations = e.annotations) (hg : y.Gains c.sym y') (htargets : y'.targets = y.targets)
    (hroot : ∀ s, c.sym = some s → y'.root s = s) {E₁ : Carrier → Prop} (hsub : ∀ e', E₁ e' → E e')
    (hrest : ∀ e', E e' → e' = e ∨ E₁ e') (hE : ∀ e', E' e' ↔ E₁ e' ∨ e' = c) :
    Descent options m E' left y' := by
  have hrem : Descent options m E₁ left y := by
    refine h.remove he hsub hrest (fun hsome => ?_) (.inl hs) fun s => ?_
    · rw [hs] at hsome
      cases hsome
    · rw [hs]
      rfl
  have hfirst : ∀ {s}, c.sym = some s → ∀ e₀ ∈ m.carriers options, e₀.sym ≠ some s :=
    fun hs e₀ he₀ hs₀ => hg.new _ hs (h.own he₀ hs₀).1
  refine hrem.add hg hE (fun s hs => .anew hc.1 (hroot s hs) fun e₀ he₀ hs₀ => absurd hs₀ (hfirst hs e₀ he₀))
    (.inr ⟨htargets, fun s _ hground => ?_⟩) (fun a ha p hp => ?_) fun e₀ he₀ s hs₀ => ?_
  · rw [Carrier.ground, hc.1] at hground
    cases hground
  · obtain ⟨e₀, he₀, ha₀, hs₀⟩ := h.annotated he (hc.2 ▸ ha) hp
    rw [hs] at hs₀
    exact ⟨e₀, he₀, ha₀, .inl (hs₀.elim id id)⟩
  · rw [if_neg]
    intro hr
    obtain ⟨s', hs', hr⟩ := Option.map_eq_some_iff.1 hr
    rw [hroot s' hs'] at hr
    exact hfirst hs' e₀ he₀ (hr ▸ hs₀)

/-- An instance is made anew, with the symbol that it had. -/
theorem swap (h : Descent options m E left y) (he : E e) (hty : e.ty = none) (hs : e.sym = some s)
    (hc : c.sym = some s ∧ c.ty = none ∧ c.annotations = e.annotations) (hE : ∀ e', E' e' → E e' ∨ e' = c)
    (hrest : ∀ e', E e' → e' = e ∨ E' e') (hnew : E' c) : Descent options m E' left y where
  moduleName := h.moduleName
  rooted := h.rooted
  own := h.own
  single := h.single
  taken {e' s'} he' hs' := by
    rcases hE e' he' with he' | rfl
    · exact h.taken he' hs'
    · exact h.taken he (hs.trans (hc.1.symm.trans hs'))
  stem {e' s'} he' hs' := by
    rcases hE e' he' with he' | rfl
    · exact h.stem he' hs'
    obtain rfl := Option.some.inj (hc.1.symm.trans hs')
    cases h.stem he hs with
    | first hfirst =>
      exact .anew hc.2.1 (h.own hfirst hs).2.1 fun e₀ he₀ hs₀ => h.single hfirst he₀ hs hs₀ ▸ hty
    | anew _ hroot hnone => exact .anew hc.2.1 hroot hnone
    | descends hsome =>
      rw [hty] at hsome
      cases hsome
  kept {e₀ s'} he₀ hs₀ hnot := by
    obtain ⟨e₁, he₁, hs₁⟩ := h.kept he₀ hs₀ hnot
    rcases hrest e₁ he₁ with rfl | he₁
    · exact ⟨c, hnew, hc.1.trans (hs.symm.trans hs₁)⟩
    · exact ⟨e₁, he₁, hs₁⟩
  targets hget := by
    obtain ⟨hr, hne, hnd, hall⟩ := h.targets hget
    refine ⟨hr, hne, hnd, fun t ht => ?_⟩
    obtain ⟨hroot, e₁, he₁, hs₁, hplace, hground⟩ := hall t ht
    refine ⟨hroot, e₁, (hrest e₁ he₁).resolve_left ?_, hs₁, hplace, hground⟩
    rintro rfl
    rw [Carrier.ground, hty] at hground
    cases hground
  keys := h.keys
  complete {e' s'} he' hs' hground := by
    rcases hE e' he' with he' | rfl
    · exact h.complete he' hs' hground
    · rw [Carrier.ground, hc.2.1] at hground
      cases hground
  annotated {e' a p} he' := by
    rcases hE e' he' with he' | rfl
    · exact h.annotated he'
    · rw [hc.1, hc.2.2, ← hs]
      exact h.annotated he
  divided {e₀ s' t} he₀ hs₀ ht := by
    -- what has a type is no instance
    obtain ⟨l, hnd, hmem, hall, hperm⟩ := h.divided he₀ hs₀ ht
    have hel : e ∉ l := fun hel => by
      have := (hall e hel).1
      rw [hty] at this
      cases this
    refine ⟨l, hnd, fun e' => ⟨fun he' => ?_, ?_⟩, hall, hperm⟩
    · obtain ⟨hEe, hr⟩ := (hmem e').1 he'
      exact ⟨(hrest e' hEe).resolve_left fun heq => hel (heq ▸ he'), hr⟩
    · rintro ⟨he', hr⟩
      rcases hE e' he' with he' | rfl
      · exact (hmem e').2 ⟨he', hr⟩
      · exact absurd ((hmem e).2 ⟨he, by rw [hs, ← hc.1]; exact hr⟩) hel

end Descent

/-! ## Giving way -/

/-- The carrier `e` gave way, and the carriers of the parts `rest` are still to be made. -/
structure Parting (options : Options) (m : Module) (E : Carrier → Prop) (e : Carrier) (rest : List Part)
    (y : Symbols) : Prop where
  descent : Descent options m E (fun s => if e.sym.map y.root = some s then
    rest.flatMap fun part => part.ty.pieces e.keep else []) y
  taken : ∀ {s}, e.sym = some s → s ∈ y.names.taken
  root : ∀ {s}, e.sym = some s → m.GivesWay options (y.root s) ∨ y.root s ∈ y.detachedSyms
  keep : ∀ {e₀}, e₀ ∈ m.carriers options → e₀.sym.isSome → e.sym.map y.root = e₀.sym → e.keep = e₀.keep
  annotated : ∀ {a p}, a ∈ e.annotations → a.path = some p → m.Scopes options (e.sym.map y.root) p

section

variable {options : Options} {m : Module} {E E' : Carrier → Prop} {y y' : Symbols} {e : Carrier}

/-- A carrier gives way to its parts. -/
theorem Descent.part (h : Descent options m E (fun _ => []) y) (he : E e) {t : Ty} (ht : e.ty = some t)
    {ps : List Part} (hps : t.peel e.keep = .ok (some ps)) (hsub : ∀ e', E' e' → E e')
    (hrest : ∀ e', E e' → e' = e ∨ E' e') (hgone : e.sym.isSome → ¬E' e) : Parting options m E' e ps y := by
  obtain ⟨hparts, hkeep⟩ := (Ty.peel_ends (nofun : False → _)).of_ok hps
  have hsplits : e.Splits := ⟨t, ht, hparts.aggregate, hkeep⟩
  refine ⟨h.remove he hsub hrest hgone (.inr hsplits) fun s => ?_, fun hs => h.taken he hs,
    fun hs => h.root_of_splits he hs hsplits, fun {e₀} he₀ hsome hr => ?_, h.annotated he⟩
  · split
    · rw [List.append_nil, Carrier.pieces, ht, Option.elim_some, hparts.pieces_eq hkeep]
    · rfl
  · -- what the symbol held at first is divided among carriers that keep what the first one keeps
    obtain ⟨s, hs⟩ := Option.isSome_iff_exists.1 hsome
    rw [hs] at hr
    cases ht₀ : e₀.ty with
    | some t₀ =>
      obtain ⟨l, -, hmem, hall, -⟩ := h.divided he₀ hs ht₀
      exact (hall e ((hmem e).2 ⟨he, hr⟩)).2
    | none =>
      obtain ⟨u, hu, hroot⟩ := Option.map_eq_some_iff.1 hr
      rcases h.root_of_splits he hu hsplits with ⟨e₁, he₁, hs₁, u', hu', -⟩ | hd
      · rw [hroot] at hs₁
        rw [h.single he₁ he₀ hs₁ hs, ht₀] at hu'
        cases hu'
      · exact absurd (hroot ▸ hd) (h.own he₀ hs).2.2

/-- What is known of the carrier that gave way does not depend on symbols that are made later. -/
theorem Parting.gain {part : Part} {rest : List Part} (h : Parting options m E e (part :: rest) y)
    {sym? : Option String} (hg : y.Gains sym? y')
    (hd : Descent options m E' (fun s => if e.sym.map y.root = some s then
      rest.flatMap fun part => part.ty.pieces e.keep else []) y') : Parting options m E' e rest y' := by
  have hroot : e.sym.map y'.root = e.sym.map y.root := by
    cases hs : e.sym with
    | none => rfl
    | some s => rw [Option.map_some, Option.map_some, hg.root s (h.taken hs)]
  refine ⟨by rw [hroot]; exact hd, fun hs => hg.mem (h.taken hs), fun {s} hs => ?_, ?_, ?_⟩
  · rw [hg.root s (h.taken hs)]
    exact (h.root hs).imp_right fun hd => (hg.detached _ (h.descent.rooted.detached hd)).2 hd
  · rw [hroot]
    exact h.keep
  · rw [hroot]
    exact h.annotated

/-- The carrier of a part comes. -/
theorem Parting.label {part : Part} {rest : List Part} (h : Parting options m E e (part :: rest) y)
    {place : TargetKind} {sym? : Option String} (hl : y.LabelsPart place part e.sym sym? y')
    (annotations : List Annotation)
    (hE : ∀ e', E' e' ↔ E e' ∨ e' = ⟨place, sym?, annotations, some part.ty, e.keep⟩)
    (hann : ∀ a ∈ annotations, ∀ p, a.path = some p → ∃ a' ∈ e.annotations, a'.path = some p) :
    Parting options m E' e rest y' := by
  have hscopes : ∀ a ∈ annotations, ∀ p, a.path = some p → m.Scopes options (e.sym.map y.root) p := by
    intro a ha p hp
    obtain ⟨a', ha', hp'⟩ := hann a ha p hp
    exact h.annotated ha' hp'
  -- a new symbol was not there at first
  have hfirst : ∀ {s}, s ∉ y.names.taken → ∀ e₀ ∈ m.carriers options, e₀.sym ≠ some s :=
    fun hs e₀ he₀ hs₀ => hs (h.descent.own he₀ hs₀).1
  generalize hsym : e.sym = base? at hl
  cases hl with
  | derived base =>
    obtain ⟨hg, hroot, htargets⟩ := Symbols.derive_spec h.descent.rooted (h.taken hsym) part.suffix part.ty.isGround
      place
    have hbase := h.root hsym
    refine h.gain hg (h.descent.add hg hE (fun s hs => ?_) ?_ (fun a ha p hp => ?_) fun e₀ he₀ s hs => ?_)
    · obtain rfl := Option.some.inj hs
      refine .descends rfl (hfirst (hg.new _ rfl)) ?_
      rw [hroot]
      exact hbase.imp_right fun hd => (hg.detached _ (h.descent.rooted.detached hd)).2 hd
    · by_cases hground : part.ty.isGround = true ∧ y.root base ∉ y.detachedSyms
      · rw [if_pos hground] at htargets
        exact .inl ⟨_, rfl, hground.1, hroot ▸ hbase.resolve_right hground.2, hroot ▸ htargets⟩
      · rw [if_neg hground] at htargets
        refine .inr ⟨htargets, fun s hs hg' hr => hground ⟨hg', ?_⟩⟩
        obtain rfl := Option.some.inj hs
        exact h.descent.not_detached (hroot ▸ hr)
    · rw [Option.map_some, hroot]
      have := hscopes a ha p hp
      rwa [hsym] at this
    · dsimp only
      rw [Option.map_some, hroot, hsym, Option.map_some]
      split
      next hr =>
        exact ⟨rfl, h.keep he₀ (by rw [hs]; rfl) (by rw [hsym, hs]; exact hr), .of_eq List.flatMap_cons⟩
      next => rfl
  | detached name =>
    have hg := Symbols.gains_detached h.descent.rooted name part.suffix
    have hdet := y.mem_detachedSyms_detached name part.suffix
    have hroot := Symbols.root_detached h.descent.rooted name part.suffix
    have hmap : e.sym.map y.root = none := by rw [hsym]; rfl
    refine h.gain hg (h.descent.add hg hE (fun s hs => ?_)
      (.inr ⟨y.targets_detached name part.suffix, fun s hs _ hr => ?_⟩) (fun a ha p hp => ?_)
      fun e₀ he₀ s hs => ?_)
    · obtain rfl := Option.some.inj hs
      exact .descends rfl (hfirst (hg.new _ rfl)) (.inr (hroot.symm ▸ hdet))
    · obtain rfl := Option.some.inj hs
      obtain ⟨e₀, he₀, hs₀, -⟩ := hr
      exact hfirst (hg.new _ rfl) e₀ he₀ (hroot ▸ hs₀)
    · obtain ⟨e₀, he₀, ha₀, hs₀⟩ := hscopes a ha p hp
      exact ⟨e₀, he₀, ha₀, .inl (by simpa [hmap] using hs₀)⟩
    · rw [if_neg]
      · simp [hmap]
      · intro hr
        rw [Option.map_some, hroot, Option.some.injEq] at hr
        exact hfirst (hg.new _ rfl) e₀ he₀ (hr ▸ hs)
  | none =>
    have hmap : e.sym.map y.root = none := by rw [hsym]; rfl
    refine h.gain (.refl h.descent.rooted) (h.descent.add (.refl h.descent.rooted) hE nofun (.inr ⟨rfl, nofun⟩)
      (fun a ha p hp => ?_) fun e₀ he₀ s hs => ?_)
    · have := hscopes a ha p hp
      rwa [hmap] at this
    · rw [if_neg (by simp)]
      simp [hmap]

/-- All parts are made. -/
theorem Parting.finish (h : Parting options m E e [] y) : Descent options m E (fun _ => []) y := by
  have := h.descent
  simpa using this

end

end Scalarize
