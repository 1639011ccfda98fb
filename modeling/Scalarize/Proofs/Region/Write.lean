import Scalarize.Proofs.Region.Connect
import Scalarize.Proofs.Region.GuardedWrite

/-!
# Writes at computed positions

A connection whose destination lies behind computed accesses is lowered to one connection for each tuple of positions,
behind guards that choose this tuple. Each connection on the way stands for the elements that it still leads to, and all
together always stand for all of them, in order.

* `Picks.literal_runs` : an access at a literal position;
* `Write` : such a connection, with the way to its destination;
* `Write.Drives` : a connection leads from one element further on; `Write.Role` : what operations stand for, where the
  accessors that nothing but a connection reads belong to it;
* `Write.Keeps`, `Write.Clears` : what the rest of the body is like, and operations that are taken out;
* `Write.Expanding` : what holds between two layers; `Expanding.literal_layer` : one of them, for a literal position.
-/

namespace Scalarize

open Body Lower

namespace Body

variable {b₀ b : Body} {o y : OpId} {P Q D : List OpId}

/-- What is not there now was not there before. -/
theorem Edited.op?_eq_none (h : b₀.Edited b) (hy : b.op? y = none) : b₀.op? y = none := by
  cases hop : b₀.op? y with
  | none => rfl
  | some op =>
    obtain ⟨op', hop', -⟩ := h.op? hop
    rw [hy] at hop'
    cases hop'

/-- The other operations of a region. -/
theorem Region.apart {c : List OpId} (hr : b₀.Region o b (Q ++ c) D) (hy : y ∈ Q ++ D) :
    (b.op? y).isSome ∧ y ∉ c ∧ (y = o ∨ b₀.op? y = none) := by
  have hmem : y ∈ Q ++ c ++ D := by
    rcases List.mem_append.1 hy with hy | hy <;> simp [hy]
  refine ⟨hr.tidy.known y hmem, fun hc => ?_, hr.new y hmem⟩
  have hnd := hr.tidy.nodup
  rw [List.append_assoc, List.nodup_append, List.nodup_append] at hnd
  rcases List.mem_append.1 hy with hy | hy
  · exact hnd.2.2 y hy y (List.mem_append_left _ hc) rfl
  · exact hnd.2.1.2.2 y hc y hy rfl

end Body

theorem concat_eq_singleton {α : Type} {c : List α} {x y : α} (h : c ++ [x] = [y]) : c = [] ∧ x = y := by
  rcases List.append_eq_singleton_iff.1 h with ⟨rfl, hx⟩ | ⟨-, hx⟩
  · exact ⟨rfl, (List.cons.inj hx).1⟩
  · cases hx

/-- The kinds that stay as they are and drive nothing. -/
def OpKind.isIdle : OpKind → Bool
  | subfield _ | subindex _ | constant _ | prim _ | when _ _ => true
  | _ => false

/-- An access at a literal position gives way to an access at this fixed position. -/
theorem Body.Picks.literal_runs {must : Prop} {x : OpId} {u r : ValueId} {k : BlockId} {A B : List OpId} {t : LowerState} {i : Nat}
    {op : Operation} (hx : t.builder.body.Picks x u (.fixed i) r) (hb : t.builder.body.Coherent)
    (hop : t.builder.body.op? x = some op) (hk : op.kind = .subaccess)
    (hs : t.builder.body.slotsOf k = A ++ x :: B) (hp : t.builder.point = ⟨k, A.length⟩) :
    Runs must (Lower.subaccess x) t fun replaced t' => replaced = true ∧ ∃ d w s,
      t.builder.body.Prefixed x k A B [d] s ∧ t.builder.body.Since (· = u) [d] s.body ∧ s.body.Picks d u (.fixed i) w ∧
      (∃ op, s.body.op? d = some op ∧ op.kind = .subindex i) ∧ r ≠ w ∧ s.body.ty? w = s.body.ty? r ∧
      Replaced s.body r w t'.builder.body ∧ t'.builder.point = s.point := by
  cases hx with
  | fixed hx _ hr =>
    obtain ⟨op', hop', hbare, -⟩ := hx
    have hfix := hr.fixedIndex?
    rw [← OpKind.fixedIndex?_eq_of_bare_eq hbare, ← Option.some.inj (hop.symm.trans hop'), hk] at hfix
    cases hfix
  | @literal y _ n e _ hx hu hy hl hsize hr =>
    obtain ⟨op', hop', -, hops, hres, -⟩ := hx
    obtain rfl := Option.some.inj (hop.symm.trans hop')
    have hgrows : Grows (· = u) _ _ fun N s => t.builder.body.Prefixed x k A B ([] ++ N) s ∧
        t.builder.body.Since (· = u) ([] ++ N) s.body ∧ ∀ z ∈ N, s.body.Lies z k :=
      Since.grows (Prefixed.grows t.builder.body x k A B) Prefixed.point t.builder.body (· = u) [] []
    have hread : (t.builder.body.value? y).isSome := isSome_value?.2 (hb.operand hop (by simp [hops]))
    unfold Lower.subaccess
    refine Body.bind_operand hop (v := u) (by rw [hops]; rfl) ?_
    refine Body.bind_operand hop (v := y) (by rw [hops]; rfl) ?_
    refine Body.bind_result hop (v := r) (by rw [hres]; rfl) ?_
    refine Runs.bind_body (P := fun en => en = (e, n)) ((vectorOf_ends fun _ => ⟨e, n, hu⟩).mono fun en hen => ?_) ?_
    · rw [hu] at hen
      obtain ⟨h₁, h₂⟩ : e = en.1 ∧ n = en.2 := by simpa using hen
      rw [h₁, h₂]
    rintro _ rfl
    dsimp only
    rw [if_neg (by omega)]
    refine Runs.bind_body (constant?_ends hb fun _ => hread) fun l? hl? => ?_
    rw [(hl? i).1 hy]
    dsimp only
    rw [Nat.mod_eq_of_lt hsize]
    refine Runs.bind_build (hgrows.subindex_runs (N := []) ⟨.start hb hs hp, .start hb, by simp⟩ (.inl rfl)
      (fun _ _ _ _ _ => trivial) fun _ => ⟨e, n, hu, hl⟩) ?_
    rintro w s ⟨-, tv, c, kind, htv, hreach, d, hg, hd, hw, hsize'⟩
    obtain rfl := Option.some.inj (hu.symm.trans htv)
    obtain rfl : e = c := by simpa [Ty.child?, hl] using hreach.1
    obtain ⟨hpre, hsince, -⟩ := hg.holds
    have hkind : kind = .subindex i := by
      obtain ⟨-, ⟨-, fs, hfs⟩ | ⟨hk, -⟩⟩ := hreach
      · cases hfs
      · exact hk
    have hlt : ∀ {v t'}, t.builder.body.ty? v = some t' → v.index < t.builder.body.values.size := fun hv =>
      isSome_ty?.1 (by rw [hv]; rfl)
    have hne : r ≠ w := by
      rintro rfl
      have := hlt hr
      omega
    refine Runs.bind_change (hpre.coherent.replaceAllUses_ends hne fun _ => ⟨?_, ?_⟩) fun b' hb' => .pure ?_
    · exact isSome_value?.2 (isSome_ty?.1 (by rw [hg.body.ty?_some hr]; rfl))
    · exact isSome_value?.2 (isSome_ty?.1 (by rw [hw]; rfl))
    refine ⟨rfl, d, w, s, by simpa using hpre, by simpa using hsince, .fixed hd (hg.body.ty?_some hu) hreach hw, ?_, hne, ?_, hb', rfl⟩
    · obtain ⟨opd, hopd, hbare, -⟩ := hd
      refine ⟨opd, hopd, ?_⟩
      rw [hkind] at hbare
      exact (OpKind.eq_of_bare_eq hbare.symm rfl).symm
    · rw [hw, hg.body.ty?_some hr]

/-- A connection in a block of a body, which drives with `src` what a way leads to from a root. -/
structure Write where
  body : Body
  op : OpId
  block : BlockId
  strict : Bool
  root : ValueId
  src : ValueId
  way : List (OpId × Access)

namespace Write

/-- The accesses on the way. -/
def accesses (q : Write) : List Access := q.way.map Prod.snd

variable {must : Prop} {cx : Context} {q : Write} {b b' : Body} {x y z d : OpId} {e : Element} {k : BlockId}
  {ys : List (OpId × Access)} {R R' : OpId → Nat} {c A B P D N : List OpId} {m : List Element} {f : Bool → Bool}
  {u v w r : ValueId} {a : Access} {pending : Bool} {S : ValueId → Prop}

/-- The connection stands, and the way leads to a ground value, from a root. -/
structure Sound (q : Write) : Prop where
  coherent : q.body.Coherent
  root : q.body.Root q.root
  lies : q.body.Lies q.op q.block
  way : ∃ u g, q.body.Way q.root q.way u ∧ q.body.ty? u = some (.ground g) ∧
    q.body.Makes q.op (.connect q.strict) [u, q.src] []

namespace Sound

theorem src (hq : q.Sound) : (q.body.value? q.src).isSome := by
  obtain ⟨u, -, -, -, op, hop, -, hops, -⟩ := hq.way
  exact isSome_value?.2 (hq.coherent.operand hop (by simp [hops]))

/-- The accessors on the way are there. -/
theorem known (hq : q.Sound) {p : OpId × Access} (hp : p ∈ q.way) : (q.body.op? p.1).isSome := by
  obtain ⟨u, -, hway, -⟩ := hq.way
  obtain ⟨u, w, hpick⟩ := hway.exists_picks hp
  obtain ⟨op, hop, -⟩ := hpick.accessor
  rw [hop]
  rfl

/-- In a region of the connection all but connections is new. -/
theorem op?_eq_none (hq : q.Sound) (hr : q.body.Region q.op b P D) {op : Operation} (hx : x ∈ P ++ D) (hop : b.op? x = some op)
    (hk : op.kind.isConnect = false) : q.body.op? x = none := by
  refine (hr.new x hx).resolve_left ?_
  rintro rfl
  obtain ⟨u, g, -, -, op₀, hop₀, hbare, -⟩ := hq.way
  obtain ⟨op', hop', hkind, -⟩ := hr.edited.op? hop₀
  rw [Option.some.inj (hop.symm.trans hop'), hkind, ← OpKind.eq_of_bare_eq hbare.symm rfl] at hk
  cases hk

/-- The positions that are computed are there. -/
theorem index (hq : q.Sound) {y : ValueId} {n : Nat} (hy : .computed y n ∈ q.accesses) : (q.body.value? y).isSome := by
  obtain ⟨u, -, hway, -⟩ := hq.way
  obtain ⟨p, hp, ha⟩ := List.mem_map.1 hy
  obtain ⟨u, w, hpick⟩ := hway.exists_picks hp
  exact isSome_value?.2 (hq.coherent.lt_of_reads (hpick.index ha))

end Sound

/-! ## What a connection leads to -/

/-- The connection drives what lies `ys` behind an element of the root, in a block that is reached just for the choices
of this element. -/
structure Drives (q : Write) (b : Body) (x : OpId) (e : Element) (ys : List (OpId × Access)) : Prop where
  place : ∃ k, b.Lies x k ∧ b.Nested q.block e.choices k
  way : ∃ (zs : List (OpId × Access)) (u : ValueId) (g : Ground), zs.map Prod.snd = e.path.map .fixed ∧
    b.Way q.root (zs ++ ys) u ∧ b.ty? u = some (.ground g) ∧ b.Makes x (.connect q.strict) [u, q.src] []

namespace Drives

/-- The connection and the accessors are there. -/
theorem known (h : q.Drives b x e ys) (hz : z ∈ x :: ys.map Prod.fst) : (b.op? z).isSome := by
  obtain ⟨zs, u, g, -, hway, -, op, hop, -⟩ := h.way
  rcases List.mem_cons.1 hz with rfl | hz
  · rw [hop]
    rfl
  · obtain ⟨p, hp, rfl⟩ := List.mem_map.1 hz
    obtain ⟨u', w', hpick⟩ := hway.exists_picks (List.mem_append_right zs hp)
    obtain ⟨op, hop, -⟩ := hpick.accessor
    rw [hop]
    rfl

theorem makes (h : q.Drives b x e ys) : ∃ op, b.op? x = some op ∧ op.kind = .connect q.strict ∧ op.erased = false := by
  obtain ⟨zs, u, g, -, -, -, op, hop, hbare, -, -, he⟩ := h.way
  exact ⟨op, hop, (OpKind.eq_of_bare_eq hbare.symm rfl).symm, he⟩

theorem mono (h : q.Drives b x e ys) (hb : b.Coherent) (hext : Extends b b') : q.Drives b' x e ys := by
  obtain ⟨k, hk, hn⟩ := h.place
  obtain ⟨zs, u, g, hzs, hway, hu, hx⟩ := h.way
  exact ⟨⟨k, hk.mono hext, hn.mono hext⟩, zs, u, g, hzs, hway.mono hb hext, hext.ty?_some hu, hx.mono hext⟩

/-- Another operation is taken out that nothing reads. -/
theorem dropped (h : q.Drives b x e ys) (hd : Dropped b z f b') (hf : f true = true) (hz : ¬b.ResultRead z)
    (hk : ∀ op, b.op? z = some op → op.kind.isAccessor = true ∨ ∃ strict, op.kind = .connect strict) (hne : x ≠ z) :
    q.Drives b' x e ys := by
  obtain ⟨k, hl, hn⟩ := h.place
  obtain ⟨zs, u, g, hzs, hway, hu, hx⟩ := h.way
  have hout := hd.outlives hf
  refine ⟨⟨k, hl.outlives hout, hn.dropped hd hf hk⟩, zs, u, g, hzs, ?_, by rw [hout.ty?, hu], hx.dropped hd hne⟩
  exact hway.dropped hd hf hz ⟨x, hx.reads.2 (by simp)⟩

/-- A fixed accessor that is not behind the element gives way to another one. -/
theorem replaced {o : OpId} {i : Nat} (h : q.Drives b x e ys) (hb : b.Coherent) (hr : Replaced b r w b')
    (ho : b.Picks o u (.fixed i) r) (hd : b.Picks d u (.fixed i) w) (hty : b.ty? w = b.ty? r) (hself : u ≠ r)
    (hroot : q.root ≠ r) (hsrc : q.src ≠ r) (hchoices : ∀ c ∈ e.choices, c.index ≠ r)
    (hindex : ∀ {y n}, .computed y n ∈ ys.map Prod.snd → y ≠ r) (hys : ∀ p ∈ ys, p.1 ≠ o) : q.Drives b' x e ys := by
  obtain ⟨k, hl, hn⟩ := h.place
  obtain ⟨zs, u', g, hzs, hway, hu, hx⟩ := h.way
  have hout := hr.outlives
  have hall : ∀ {y n}, Access.computed y n ∈ (zs ++ ys).map Prod.snd → y ≠ r := fun {y n} hm => by
    rw [List.map_append, hzs, List.mem_append] at hm
    rcases hm with hm | hm
    · simp at hm
    · exact hindex hm
  have hway' := hway.replaced hb hr ho hd hty hself nofun hall
  have hmap : ys.map (fun p => if p.1 = o then (d, p.2) else p) = ys :=
    (List.map_congr_left fun p hp => if_neg (hys p hp)).trans (List.map_id ys)
  rw [if_neg hroot, List.map_append, hmap] at hway'
  have hx' := hx.replaced hr
  rw [List.map_cons, List.map_singleton, if_neg hsrc] at hx'
  refine ⟨⟨k, hl.outlives hout, hn.replaced hb hr ho hchoices⟩, _, _, g, ?_, hway', ?_, hx'⟩
  · rw [List.map_map, ← hzs]
    refine List.map_congr_left fun p _ => ?_
    simp only [Function.comp_apply]
    split <;> rfl
  · rw [hout.ty?]
    split
    next he => rw [hty, ← he, hu]
    next => exact hu

end Drives

/-! ## What operations stand for -/

/-- What the operations of a list make is read by later ones of the list only. -/
def Private (b : Body) (c : List OpId) : Prop :=
  ∀ {l r x op v z}, c = l ++ x :: r → b.op? x = some op → v ∈ op.results → b.Reads z v → z ∈ r

/-- The accessors are the write's own, or on the way of the connection that was there. -/
def Owns (q : Write) (b : Body) (x : OpId) (c : List OpId) (ys : List (OpId × Access)) : Prop :=
  (c = ys.map Prod.fst ∧ Private b (c ++ [x])) ∨ (x = q.op ∧ c = [] ∧ ys ⊆ q.way)

/-- What operations stand for, as a part of what the write stands for. A connection stands for the elements that it leads
to, together with the accessors from the first computed one on; if it is done it leads to just one element. A literal may
take the place of an index as long as it is pending, and all else stands for nothing. -/
inductive Role (must : Prop) (q : Write) (b : Body) (R : OpId → Nat) (pending : Bool) : List OpId → List Element → Prop
  | write {x : OpId} {e : Element} {ys : List (OpId × Access)} {as : List Access} {c : List OpId} (hx : q.Drives b x e ys)
      (hhead : ∀ p, ys.head? = some p → p.2.isComputed = true) (has : q.accesses = as ++ ys.map Prod.snd)
      (he : e ∈ expand as)
      (hown : q.Owns b x c ys)
      (hR : must → 2 * (lengths (ys.map Prod.snd)).length + 2 ≤ R x) (hdone : pending = false → ys = []) :
      Role must q b R pending (c ++ [x]) ((expand (ys.map Prod.snd)).map e.under)
  | literal {x : OpId} {u w : ValueId} {i : Nat} {op : Operation} (hx : b.Picks x u (.fixed i) w) (hop : b.op? x = some op)
      (hk : op.kind = .subaccess) (hself : u ≠ w) (hR : must → 1 ≤ R x) (hdone : pending = true) :
      Role must q b R pending [x] []
  | idle {x : OpId} {op : Operation} (hop : b.op? x = some op)
      (hk : op.erased = true ∨ op.kind.isIdle = true) : Role must q b R pending [x] []

namespace Role

theorem of_makes {kind : OpKind} {vs rs : List ValueId} (hx : b.Makes x kind vs rs) (hk : kind.bare.isIdle = true) :
    Role must q b R pending [x] [] := by
  obtain ⟨op, hop, hbare, -⟩ := hx
  refine .idle hop (.inr ?_)
  rw [← hbare] at hk
  cases hkind : op.kind <;> rw [hkind] at hk <;> first | rfl | cases hk

/-- An access at a fixed position stands for nothing, whether its position is a literal or not. -/
theorem of_picks {i : Nat} (hx : b.Picks x u (.fixed i) w) (hself : u ≠ w) (hR : must → 1 ≤ R x) :
    Role must q b R true [x] [] := by
  cases id hx with
  | fixed hmk _ hreach =>
    refine of_makes hmk ?_
    obtain ⟨-, ⟨rfl, -⟩ | ⟨rfl, -⟩⟩ := hreach <;> rfl
  | literal hmk =>
    obtain ⟨op, hop, hbare, -⟩ := id hmk
    exact .literal hx hop (OpKind.eq_of_bare_eq hbare.symm rfl).symm hself hR rfl

theorem exists_last (h : Role must q b R pending c m) : ∃ c' x, c = c' ++ [x] := by
  cases h with
  | write => exact ⟨_, _, rfl⟩
  | literal => exact ⟨[], _, rfl⟩
  | idle => exact ⟨[], _, rfl⟩

/-- What a connection stands for. -/
theorem exists_drives (h : Role must q b R pending (c ++ [x]) m) {op : Operation} (hop : b.op? x = some op)
    (hk : op.kind.isConnect = true) (he : op.erased = false) : ∃ e ys as, q.Drives b x e ys ∧
      (∀ p, ys.head? = some p → p.2.isComputed = true) ∧ q.accesses = as ++ ys.map Prod.snd ∧ e ∈ expand as ∧
      q.Owns b x c ys ∧ (must → 2 * (lengths (ys.map Prod.snd)).length + 2 ≤ R x) ∧
      m = (expand (ys.map Prod.snd)).map e.under ∧ (pending = false → ys = []) := by
  generalize hl : c ++ [x] = l at h
  cases h with
  | write hx hhead has he hown hR hdone =>
    obtain ⟨rfl, hxx⟩ := List.append_inj' hl rfl
    obtain rfl := (List.cons.inj hxx).1
    exact ⟨_, _, _, hx, hhead, has, he, hown, hR, rfl, hdone⟩
  | literal _ hop' hk' =>
    obtain ⟨-, rfl⟩ := concat_eq_singleton hl
    rw [Option.some.inj (hop.symm.trans hop'), hk'] at hk
    cases hk
  | idle hop' hk' =>
    obtain ⟨-, rfl⟩ := concat_eq_singleton hl
    rw [← Option.some.inj (hop.symm.trans hop'), he] at hk'
    cases hkind : op.kind <;> simp_all [OpKind.isConnect, OpKind.isIdle]

/-- What is erased or a guard stands alone, and is done. -/
theorem passed (h : Role must q b R pending (c ++ [x]) m) {op : Operation} (hop : b.op? x = some op)
    (hpass : op.erased = true ∨ op.kind.blocks ≠ []) : c = [] ∧ Role must q b R false [x] m := by
  generalize hl : c ++ [x] = l at h
  cases h with
  | write hx =>
    obtain ⟨rfl, hxx⟩ := List.append_inj' hl rfl
    obtain rfl := (List.cons.inj hxx).1
    obtain ⟨op', hop', hk, he⟩ := hx.makes
    rw [Option.some.inj (hop.symm.trans hop'), he, hk] at hpass
    simp [OpKind.blocks] at hpass
  | literal hx hop' hk =>
    obtain ⟨-, rfl⟩ := concat_eq_singleton hl
    obtain ⟨op₁, hop₁, -, -, he⟩ := hx.accessor
    rw [Option.some.inj (hop.symm.trans hop'), hk, ← Option.some.inj (hop₁.symm.trans hop'), he] at hpass
    simp [OpKind.blocks] at hpass
  | idle hop' hk =>
    obtain ⟨hc, rfl⟩ := concat_eq_singleton hl
    exact ⟨hc, .idle hop' hk⟩

/-- What is no connection stands alone, for nothing. -/
theorem alone (h : Role must q b R pending (c ++ [x]) m) {op : Operation} (hop : b.op? x = some op)
    (hk : op.kind.isConnect = false) : c = [] ∧ m = [] := by
  generalize hl : c ++ [x] = l at h
  cases h with
  | write hx =>
    obtain ⟨-, hxx⟩ := List.append_inj' hl rfl
    obtain rfl := (List.cons.inj hxx).1
    obtain ⟨op', hop', hkind, -⟩ := hx.makes
    rw [Option.some.inj (hop.symm.trans hop'), hkind] at hk
    cases hk
  | literal => exact ⟨(concat_eq_singleton hl).1, rfl⟩
  | idle => exact ⟨(concat_eq_singleton hl).1, rfl⟩

/-- What stands for something still does, if its operations are as they were and nothing else reads what they make. -/
theorem carry (h : Role must q b R pending c m) (hR : must → ∀ x ∈ c, R x ≤ R' x)
    (hop : ∀ {x op}, x ∈ c → b.op? x = some op → ∃ op', b'.op? x = some op' ∧ op'.kind = op.kind ∧
      op'.results = op.results ∧ op'.erased = op.erased)
    (hreads : ∀ {x op v z}, x ∈ c → b.op? x = some op → v ∈ op.results → (∀ z, b.Reads z v → z ∈ c) → b'.Reads z v →
      b.Reads z v)
    (hdrives : ∀ {x e ys as}, x ∈ c → q.accesses = as ++ ys.map Prod.snd → e ∈ expand as →
      (∀ p ∈ ys, p.1 ∈ c ∨ p ∈ q.way) → q.Drives b x e ys → q.Drives b' x e ys)
    (hpicks : ∀ {x u i w op}, x ∈ c → b.op? x = some op → op.kind = .subaccess → b.Picks x u (.fixed i) w → u ≠ w →
      ∃ u', b'.Picks x u' (.fixed i) w ∧ u' ≠ w) : Role must q b' R' pending c m := by
  cases h with
  | @write x e ys as c hx hhead has he hown hrank hdone =>
    have hxc : x ∈ c ++ [x] := by simp
    refine .write (hdrives hxc has he (fun p hp => ?_) hx) hhead has he (hown.imp_left fun ⟨hc, hpriv⟩ => ⟨hc, ?_⟩)
      (fun hm => Nat.le_trans (hrank hm) (hR hm x hxc)) hdone
    · rcases hown with ⟨rfl, -⟩ | ⟨-, -, hold⟩
      · exact .inl (by simp [List.mem_map_of_mem hp])
      · exact .inr (hold hp)
    · intro l r y op' v z hl hop' hv hz
      have hy : y ∈ c ++ [x] := by rw [hl]; simp
      obtain ⟨op, hop₀⟩ := Option.isSome_iff_exists.1 (hx.known (z := y) (by simpa [hc, or_comm] using hy))
      obtain ⟨op₁, hop₁, -, hres, -⟩ := hop hy hop₀
      rw [Option.some.inj (hop'.symm.trans hop₁), hres] at hv
      refine hpriv hl hop₀ hv (hreads hy hop₀ hv (fun z hz => ?_) hz)
      rw [hl]
      exact List.mem_append_right _ (List.mem_cons_of_mem _ (hpriv hl hop₀ hv hz))
  | @literal x u w i op hx hop' hk hself hrank hdone =>
    obtain ⟨op₁, hop₁, hkind, -⟩ := hop (List.mem_singleton_self x) hop'
    obtain ⟨u', hx', hself'⟩ := hpicks (List.mem_singleton_self x) hop' hk hx hself
    exact .literal hx' hop₁ (hkind.trans hk) hself' (fun hm => Nat.le_trans (hrank hm) (hR hm x (by simp))) hdone
  | @idle x op hop' hk =>
    obtain ⟨op₁, hop₁, hkind, -, he⟩ := hop (List.mem_singleton_self x) hop'
    exact .idle hop₁ (by rwa [hkind, he])

/-- Operations are made, which read nothing of what the operations make unless others read it already. -/
theorem since (h : Role must q b R pending c m) (hb : b.Coherent) (hs : b.Since S N b') (hR : must → ∀ x ∈ c, R x ≤ R' x)
    (hS : ∀ {x op v}, x ∈ c → b.op? x = some op → v ∈ op.results → S v → ∃ z, z ∉ c ∧ b.Reads z v) :
    Role must q b' R' pending c m := by
  refine h.carry hR (fun _ hop => ⟨_, hs.op?_old hop, rfl, rfl, rfl⟩) (fun {x op v z} hx hop hv hread hz => ?_)
    (fun _ _ _ _ hx => hx.mono hb hs.ext) fun _ _ _ hx hself => ⟨_, hx.mono hb hs.ext, hself⟩
  rcases hs.adds hb hz with hz | hSv | hlt
  · exact hz
  · obtain ⟨z', hz', hr⟩ := hS hx hop hv hSv
    exact absurd (hread z' hr) hz'
  · obtain ⟨i, hi⟩ := List.mem_iff_getElem?.1 hv
    have := isSome_value?.1 (isSome_of_origin? (hb.result hop hi))
    omega

/-- Another operation is taken out that nothing reads. -/
theorem dropped (h : Role must q b R pending c m) (hd : Dropped b z f b') (hf : f true = true) (hz : ¬b.ResultRead z)
    (hk : ∀ op, b.op? z = some op → op.kind.isAccessor = true ∨ ∃ strict, op.kind = .connect strict) (hne : z ∉ c) :
    Role must q b' R pending c m := by
  have hne' : ∀ {x}, x ∈ c → x ≠ z := fun hx he => hne (he ▸ hx)
  refine h.carry (fun _ _ _ => Nat.le_refl _) (fun hx hop => ?_) (fun _ _ _ _ hr => (hd.reads_iff.1 hr).2)
    (fun hx _ _ _ hx' => hx'.dropped hd hf hz hk (hne' hx)) fun hx _ _ hx' hself => ⟨_, hx'.dropped hd hf (hne' hx), hself⟩
  exact ⟨_, by rw [hd.op?, hop, Option.map_some, if_neg (hne' hx)], rfl, rfl, rfl⟩

/-- An accessor among others gives way to a new one. -/
theorem replaced {o : OpId} {i : Nat} (h : Role must q b R pending c m) (hq : q.Sound) (hb : b.Coherent)
    (hr : Replaced b r w b') (ho : b.Picks o u (.fixed i) r) (hd : b.Picks d u (.fixed i) w) (hty : b.ty? w = b.ty? r)
    (hself : u ≠ r) (hnew : q.body.value? r = none) (ho' : o ∉ c ∧ q.body.op? o = none) (hd' : d ∉ c) :
    Role must q b' R pending c m := by
  have hne : ∀ {v}, (q.body.value? v).isSome → v ≠ r := by
    rintro v hv rfl
    rw [hnew] at hv
    cases hv
  have hlit : ∀ l, ¬b.Literal r l := by
    rintro l ⟨d', j, op, hv, hop, hk⟩
    obtain ⟨rfl, -⟩ : o = d' ∧ 0 = j := by simpa using (ho.origin? hb).symm.trans hv
    obtain ⟨op', hop', hacc, -⟩ := ho.accessor
    rw [Option.some.inj (hop'.symm.trans hop), hk] at hacc
    cases hacc
  refine h.carry (fun _ _ _ => Nat.le_refl _) (fun _ hop => ⟨_, hr.op?_some hop, rfl, rfl, rfl⟩) ?_ ?_ ?_
  · intro x op v z hx hop hv _ hz
    rcases hr.reads_iff.1 hz with ⟨hz, -⟩ | ⟨rfl, -⟩
    · exact hz
    · obtain ⟨j, hj⟩ := List.mem_iff_getElem?.1 hv
      obtain ⟨rfl, -⟩ : x = d ∧ j = 0 := by simpa using (hb.result hop hj).symm.trans (hd.origin? hb)
      exact absurd hx hd'
  · intro x e ys as hx has he hys hdrives
    refine hdrives.replaced hb hr ho hd hty hself (hne hq.root.known) (hne hq.src)
      (fun ch hch => hne (hq.index (n := ch.length) ?_)) ?_ ?_
    · rw [has]
      exact List.mem_append_left _ (exists_access_of_mem_expand he hch)
    · intro y n hm
      exact hne (hq.index (n := n) (has ▸ List.mem_append_right _ hm))
    · rintro p hp rfl
      rcases hys p hp with hp | hp
      · exact ho'.1 hp
      · have := hq.known hp
        rw [ho'.2] at this
        cases this
  · intro x u' j w' op hx _ _ hpick hself'
    refine ⟨_, hpick.replaced hr hty hlit nofun, ?_⟩
    split
    · -- the new accessor is another one
      rintro rfl
      obtain ⟨rfl, -⟩ := hpick.unique hd hb
      exact hd' hx
    · exact hself'

end Role

/-! ## What is kept -/

/-- Everything else is as it was, but for accessors on the way that nothing reads any more. -/
structure Keeps (q : Write) (b : Body) : Prop where
  old : ∀ {x op}, x ≠ q.op → q.body.op? x = some op → b.op? x = some op ∨
    (x ∈ q.way.map Prod.fst ∧ (∃ op', b.op? x = some op' ∧ op'.results = op.results ∧ op'.erased = true) ∧ ¬b.ResultRead x)
  origin : ∀ {v}, (q.body.value? v).isSome → b.origin? v = q.body.origin? v

namespace Keeps

theorem start : q.Keeps q.body := ⟨fun _ => .inl, fun _ => rfl⟩

/-- What an operation of the body makes was there. -/
theorem value?_eq_none (h : q.Keeps b) (hq : q.Sound) {i : Nat} (hx : q.body.op? x = none)
    (hv : b.origin? v = some (.result x i)) : q.body.value? v = none := by
  cases hval : q.body.value? v with
  | none => rfl
  | some y =>
    rw [h.origin (by rw [hval]; rfl)] at hv
    obtain ⟨op, hop, -⟩ := hq.coherent.origin hv
    rw [hx] at hop
    cases hop

theorem root (h : q.Keeps b) (hq : q.Sound) (he : q.body.Edited b) : b.Root q.root where
  known := by
    obtain ⟨t, ht⟩ := Option.isSome_iff_exists.1 (isSome_ty?.2 (isSome_value?.1 hq.root.known))
    exact isSome_value?.2 (isSome_ty?.1 (by rw [he.ty? ht]; rfl))
  made {x i op} hv hop := by
    rw [h.origin hq.root.known] at hv
    obtain ⟨op₀, hop₀, -⟩ := hq.coherent.origin hv
    obtain ⟨op', hop', hk, -⟩ := he.op? hop₀
    rw [Option.some.inj (hop.symm.trans hop'), hk]
    exact hq.root.made hv hop₀

/-- Operations are made, which read what is read already. -/
theorem since (h : q.Keeps b) (hb : b.Coherent) (hs : b.Since S N b') (hS : ∀ v, S v → ∃ z, b.Reads z v) : q.Keeps b' where
  old {x op} hx hop := by
    refine (h.old hx hop).imp hs.op?_old fun ⟨hmem, ⟨op', hop', hres, he⟩, hunread⟩ =>
      ⟨hmem, ⟨op', hs.op?_old hop', hres, he⟩, ?_⟩
    rintro ⟨op₁, v, z, hop₁, hv, hz⟩
    obtain rfl := Option.some.inj (hop₁.symm.trans (hs.op?_old hop'))
    have hread : ∀ z, ¬b.Reads z v := fun z hz => hunread ⟨op₁, v, z, hop', hv, hz⟩
    obtain ⟨i, hi⟩ := List.mem_iff_getElem?.1 hv
    rcases hs.adds hb hz with hz | hSv | hlt
    · exact hread z hz
    · obtain ⟨z, hz⟩ := hS v hSv
      exact hread z hz
    · have := isSome_value?.1 (isSome_of_origin? (hb.result hop' hi))
      omega
  origin {v} hv := by
    obtain ⟨y, hy⟩ := Option.isSome_iff_exists.1 hv
    have ho : q.body.origin? v = some y.origin := origin?_eq_some_iff.2 ⟨y, hy, rfl⟩
    rw [ho]
    exact hs.ext.origin?_some (by rw [h.origin hv, ho])

/-- An operation is taken out that is new, or an accessor on the way that nothing reads. -/
theorem dropped (h : q.Keeps b) (hd : Dropped b z f b') (hf : f true = true)
    (hz : z = q.op ∨ q.body.op? z = none ∨ (z ∈ q.way.map Prod.fst ∧ f false = true ∧ ¬b.ResultRead z)) : q.Keeps b' where
  old {x op} hx hop := by
    have hunread : ∀ {y}, ¬b.ResultRead y → ¬b'.ResultRead y := by
      rintro y hy ⟨op', v, z', hop', hv, hz'⟩
      obtain ⟨op₀, hop₀, -, hres, -⟩ := (hd.outlives hf).op?_some' hop'
      exact hy ⟨op₀, v, z', hop₀, hres ▸ hv, (hd.reads_iff.1 hz').2⟩
    by_cases hxz : x = z
    · subst hxz
      obtain ⟨hmem, hf', hunread'⟩ := (hz.resolve_left hx).resolve_left (by rw [hop]; nofun)
      refine .inr ⟨hmem, ?_, hunread hunread'⟩
      obtain ⟨op', hop', hres⟩ : ∃ op', b.op? x = some op' ∧ op'.results = op.results := by
        rcases h.old hx hop with hop' | ⟨-, ⟨op', hop', hres, -⟩, -⟩
        · exact ⟨op, hop', rfl⟩
        · exact ⟨op', hop', hres⟩
      refine ⟨{ op' with operands := [], erased := f op'.erased }, by rw [hd.op?, hop', Option.map_some, if_pos rfl], hres, ?_⟩
      cases he : op'.erased with
      | true => exact hf
      | false => exact hf'
    · refine (h.old hx hop).imp (fun hop' => ?_) fun ⟨hmem, ⟨op', hop', hres, he⟩, hread⟩ => ⟨hmem, ⟨op', ?_, hres, he⟩, hunread hread⟩
      · rw [hd.op?, hop', Option.map_some, if_neg hxz]
      · rw [hd.op?, hop', Option.map_some, if_neg hxz]
  origin hv := by rw [(hd.outlives hf).origin?, h.origin hv]

/-- The readers of what is new read something else that is new. -/
theorem replaced (h : q.Keeps b) (hq : q.Sound) (hb : b.Coherent) (hr : Replaced b r w b') (hnew : q.body.value? r = none)
    (hw : b.origin? w = some (.result d 0)) (hd : q.body.op? d = none) : q.Keeps b' where
  old {x op} hx hop := by
    refine (h.old hx hop).imp (fun hop' => ?_) fun ⟨hmem, ⟨op', hop', hres, he⟩, hunread⟩ =>
      ⟨hmem, ⟨_, hr.op?_some hop', hres, he⟩, ?_⟩
    · rw [hr.op?_some hop']
      have hmap : op.operands.map (fun v => if v = r then w else v) = op.operands := by
        refine (List.map_congr_left fun v hv => if_neg ?_).trans (List.map_id _)
        rintro rfl
        have := isSome_value?.2 (hq.coherent.operand hop hv)
        rw [hnew] at this
        cases this
      rw [hmap]
    · rintro ⟨op₁, v, z, hop₁, hv, hz⟩
      obtain rfl := Option.some.inj (hop₁.symm.trans (hr.op?_some hop'))
      rcases hr.reads_iff.1 hz with ⟨hz, -⟩ | ⟨rfl, -⟩
      · exact hunread ⟨op', v, z, hop', hv, hz⟩
      · obtain ⟨i, hi⟩ := List.mem_iff_getElem?.1 hv
        obtain ⟨rfl, -⟩ : x = d ∧ i = 0 := by simpa using (hb.result hop' hi).symm.trans hw
        rw [hd] at hop
        cases hop
  origin hv := by rw [hr.outlives.origin?, h.origin hv]

end Keeps

/-- What is still read is reached as before. -/
theorem Keeps.way (h : q.Keeps b) (hq : q.Sound) (he : q.body.Edited b) {ys : List (OpId × Access)}
    (hway : q.body.Way v ys w) (hr : ∃ z, b.Reads z w) : b.Way v ys w := by
  have hlit : ∀ {y : ValueId} {l : Nat}, (q.body.value? y).isSome → (b.Literal y l ↔ q.body.Literal y l) := by
    intro y l hy
    constructor
    · rintro ⟨d, i, op, ho, hop, hk⟩
      rw [h.origin hy] at ho
      obtain ⟨op₀, hop₀, -⟩ := hq.coherent.origin ho
      obtain ⟨op', hop', hkind, -⟩ := he.op? hop₀
      exact ⟨d, i, op₀, ho, hop₀, by rw [← hkind, Option.some.inj (hop'.symm.trans hop), hk]⟩
    · rintro ⟨d, i, op, ho, hop, hk⟩
      obtain ⟨op', hop', hkind, -⟩ := he.op? hop
      exact ⟨d, i, op', by rw [h.origin hy, ho], hop', by rw [hkind, hk]⟩
  induction hway with
  | self => exact .self
  | @step xs u w x a _ hx ih =>
    obtain ⟨op, hop, hacc, -⟩ := hx.accessor
    obtain ⟨kind, vs, hmk, -⟩ := hx.makes
    have hne : x ≠ q.op := by
      rintro rfl
      obtain ⟨-, -, -, -, op', hop', hbare, -⟩ := hq.way
      rw [Option.some.inj (hop.symm.trans hop'), ← OpKind.eq_of_bare_eq hbare.symm rfl] at hacc
      cases hacc
    -- the accessor is read, so it is not erased
    have hop' : b.op? x = some op := by
      refine (h.old hne hop).resolve_right ?_
      rintro ⟨-, ⟨op', hop', hres, -⟩, hunread⟩
      obtain ⟨op₁, hop₁, -, -, hres₁, -⟩ := hmk
      obtain ⟨z, hz⟩ := hr
      refine hunread ⟨op', w, z, hop', ?_, hz⟩
      rw [hres, Option.some.inj (hop.symm.trans hop₁), hres₁]
      exact List.mem_singleton_self w
    have hmakes : ∀ {kind vs}, q.body.Makes x kind vs [w] → b.Makes x kind vs [w] := by
      rintro kind vs ⟨op₁, hop₁, hrest⟩
      rw [hop] at hop₁
      exact ⟨op₁, Option.some.inj hop₁ ▸ hop', hrest⟩
    have hpick : b.Picks x u a w := by
      cases hx with
      | fixed hmk hu hreach hw => exact .fixed (hmakes hmk) (he.ty? hu) hreach (he.ty? hw)
      | literal hmk hu hy hl hsize hw =>
        have hread := isSome_value?.2 (hq.coherent.lt_of_reads (hmk.reads.2 (List.mem_cons_of_mem u List.mem_cons_self)))
        exact .literal (hmakes hmk) (he.ty? hu) ((hlit hread).2 hy) hl hsize (he.ty? hw)
      | computed hmk hu hy hw =>
        have hread := isSome_value?.2 (hq.coherent.lt_of_reads (hmk.reads.2 (List.mem_cons_of_mem u List.mem_cons_self)))
        refine .computed (hmakes hmk) (he.ty? hu) ?_ (he.ty? hw)
        unfold Computed at hy ⊢
        simpa only [he.ty? hu, hu, hlit hread] using hy
    exact .step (ih ⟨x, hpick.reads⟩) hpick

/-! ## Operations that are taken out -/

/-- Operations were taken out one after the other, each of which nothing read any more. -/
inductive Clears (q : Write) (s : Body) : List OpId → Body → Prop
  | start : Clears q s [] s
  | drop {zs : List OpId} {b b' : Body} {z : OpId} {f : Bool → Bool} (h : Clears q s zs b) (hd : Dropped b z f b')
      (hf : f true = true) (hz : ¬b.ResultRead z)
      (hk : ∀ op, b.op? z = some op → op.kind.isAccessor = true ∨ ∃ strict, op.kind = .connect strict)
      (hq : z = q.op ∨ q.body.op? z = none ∨ (z ∈ q.way.map Prod.fst ∧ f false = true)) : Clears q s (zs ++ [z]) b'

namespace Clears

variable {s : Body} {zs : List OpId}

theorem single {f : Bool → Bool} (hd : Dropped s z f b) (hf : f true = true) (hz : ¬s.ResultRead z)
    (hk : ∀ op, s.op? z = some op → op.kind.isAccessor = true ∨ ∃ strict, op.kind = .connect strict)
    (hq : z = q.op ∨ q.body.op? z = none ∨ (z ∈ q.way.map Prod.fst ∧ f false = true)) : q.Clears s [z] b :=
  have hstart : q.Clears s [] s := .start
  hstart.drop hd hf hz hk hq

theorem outlives (h : q.Clears s zs b) : Outlives s b := by
  induction h with
  | start => exact .refl s
  | drop _ hd hf _ _ _ ih => exact ih.trans (hd.outlives hf)

theorem coherent (h : q.Clears s zs b) (hs : s.Coherent) : b.Coherent := by
  induction h with
  | start => exact hs
  | drop _ hd hf _ _ _ ih => exact ih.dropped hf hd

theorem reads_iff (h : q.Clears s zs b) : b.Reads y v ↔ y ∉ zs ∧ s.Reads y v := by
  induction h with
  | start => simp
  | drop _ hd _ _ _ _ ih =>
    rw [hd.reads_iff, ih, List.mem_append, List.mem_singleton]
    tauto

theorem keeps (h : q.Clears s zs b) (hs : q.Keeps s) : q.Keeps b := by
  induction h with
  | start => exact hs
  | drop _ hd hf hz _ hq ih => exact ih.dropped hd hf (hq.imp_right fun hq => hq.imp_right fun hq => ⟨hq.1, hq.2, hz⟩)

theorem role (h : q.Clears s zs b) (hs : Role must q s R pending c m) (hzs : ∀ z ∈ zs, z ∉ c) :
    Role must q b R pending c m := by
  induction h with
  | start => exact hs
  | drop _ hd hf hz hk _ ih =>
    exact (ih fun z hz => hzs z (List.mem_append_left _ hz)).dropped hd hf hz hk (hzs _ (by simp))

theorem prefixed {b₀ : Body} {p : Point} (h : q.Clears s zs b) (hs : b₀.Prefixed x k A B N ⟨s, p⟩) :
    b₀.Prefixed x k A B N ⟨b, p⟩ := by
  induction h with
  | start => exact hs
  | drop _ hd hf _ hk _ ih =>
    refine ih.dropped hf hd fun _ op hop => ?_
    rcases hk op hop with hacc | ⟨strict, hcon⟩
    · exact OpKind.blocks_of_isAccessor hacc
    · rw [hcon]
      rfl

/-- Accessors are taken out from the first to the last, up to one that is read. -/
theorem eraseUnread_ends (hs : s.Coherent) {path : List OpId} (h : q.Clears s zs b)
    (hpath : ∀ z ∈ path, (∃ op, s.op? z = some op ∧ op.kind.isAccessor = true) ∧
      (q.body.op? z = none ∨ z ∈ q.way.map Prod.fst)) :
    Ends must (b.eraseUnread path) fun b' => Outlives b b' ∧ ∃ es rest, path = es ++ rest ∧ q.Clears s (zs ++ es) b' ∧
      (∀ z ∈ es, ∃ op, b'.op? z = some op ∧ op.erased = true) ∧ ∀ z, rest.head? = some z → b'.ResultRead z := by
  induction path generalizing b zs with
  | nil => exact .pure ⟨.refl b, [], [], rfl, by simpa using h, by simp, by simp⟩
  | cons z path ih =>
    obtain ⟨⟨op, hop, hacc⟩, hq⟩ := hpath z List.mem_cons_self
    obtain ⟨op₁, hop₁, hkind, -⟩ := h.outlives.op?_some hop
    have hb := h.coherent hs
    have hacc₁ : ∀ op, b.op? z = some op → op.kind.isAccessor = true := fun op' hop' => by
      rw [Option.some.inj (hop'.symm.trans hop₁), hkind, hacc]
    rw [eraseUnread]
    refine (hb.opHasUses_ends fun _ => by rw [hop₁]; rfl).bind fun r hr => ?_
    cases r with
    | true => exact .pure ⟨.refl b, [], z :: path, rfl, by simpa using h, by simp, by simpa using hr.1 rfl⟩
    | false =>
      have hz : ¬b.ResultRead z := fun hread => by simpa using hr.2 hread
      refine (eraseOp_ends hb (fun op hop => OpKind.blocks_of_isAccessor (hacc₁ op hop))
        fun _ => ⟨by rw [hop₁]; rfl, hz⟩).bind fun b₁ he => ?_
      have h₁ : q.Clears s (zs ++ [z]) b₁ :=
        h.drop he.dropped rfl hz (fun op hop => .inl (hacc₁ op hop)) (.inr (hq.imp_right fun hq => ⟨hq, rfl⟩))
      refine (ih h₁ fun z hz => hpath z (List.mem_cons_of_mem _ hz)).mono fun b' hb' => ?_
      obtain ⟨hout, es, rest, rfl, hclears, herased, hread⟩ := hb'
      refine ⟨he.outlives.trans hout, z :: es, rest, rfl, by simpa using hclears, fun y hy => ?_, hread⟩
      rcases List.mem_cons.1 hy with rfl | hy
      · have hop₂ := he.op? y
        rw [hop₁, Option.map_some, if_pos rfl] at hop₂
        obtain ⟨op', hop', -, -, -, hmark⟩ := hout.op?_some hop₂
        exact ⟨op', hop', hmark rfl⟩
      · exact herased y hy

end Clears

/-! ## Layers -/

/-- What operations that are pending, and those that are done, stand for together. -/
def Bears (must : Prop) (q : Write) (b : Body) (R : OpId → Nat) (P D : List OpId) : Prop :=
  ∃ cs m₁ m₂, expand q.accesses = m₁ ++ m₂ ∧ cs.flatten = P ∧ StandFor (Role must q b R true) cs m₁ ∧
    StandFor (Role must q b R false) (D.map fun x => [x]) m₂

/-- The operations `P ++ D` stand for all that the write stands for, and what is done leads to one element each. Where
failures are excluded, guards nest deeper than what they guard. -/
structure Expanding (must : Prop) (q : Write) (b : Body) (R : OpId → Nat) (P D : List OpId) : Prop extends Keeps q b where
  nested : must → ∀ {x y}, x ∈ P → y ∈ b.inner x → R y < R x
  bears : Bears must q b R P D

namespace Expanding

/-- The last operation that is pending stands for something, together with some in front of it. -/
theorem last (h : Expanding must q b R (P ++ [x]) D) : ∃ cs c m₁ m m₂, expand q.accesses = m₁ ++ m ++ m₂ ∧
    P = cs.flatten ++ c ∧ StandFor (Role must q b R true) cs m₁ ∧ Role must q b R true (c ++ [x]) m ∧
    StandFor (Role must q b R false) (D.map fun x => [x]) m₂ := by
  obtain ⟨cs, m₁, m₂, hm, hcs, h₁, h₂⟩ := h.bears
  rcases List.eq_nil_or_concat cs with rfl | ⟨cs, c, rfl⟩
  · simp at hcs
  · rw [List.concat_eq_append] at hcs h₁
    obtain ⟨m', m, rfl, h₀, hc⟩ := h₁.of_append
    obtain ⟨c, y, rfl⟩ := hc.of_single.exists_last
    rw [List.flatten_append, List.flatten_singleton, ← List.append_assoc] at hcs
    obtain ⟨rfl, hy⟩ := List.append_inj' hcs rfl
    obtain rfl := List.singleton_inj.1 hy
    exact ⟨cs, c, m', m, m₂, hm, rfl, h₀, hc.of_single, h₂⟩

/-- What stands alone, for one element at most, is done. -/
theorem settle {cs : List (List OpId)} {m₁ m₂ : List Element} (h : Expanding must q b R (cs.flatten ++ [] ++ [x]) D)
    (hm : expand q.accesses = m₁ ++ m ++ m₂) (h₁ : StandFor (Role must q b R true) cs m₁)
    (h₂ : StandFor (Role must q b R false) (D.map fun x => [x]) m₂) (hx : Role must q b R false [x] m) :
    Expanding must q b R (cs.flatten ++ []) (x :: D) where
  toKeeps := h.toKeeps
  nested hm {y z} hy hz := h.nested hm (List.mem_append_left _ hy) hz
  bears := ⟨cs, m₁, m ++ m₂, by rw [hm, List.append_assoc], (List.append_nil _).symm, h₁, (StandFor.single hx).append h₂⟩

/-! ### Literal positions -/

/-- An access at a literal position gives way to an access at this fixed position. -/
theorem literal_layer {t : LowerState} {i : Nat} {op : Operation} (hq : q.Sound)
    (hr : q.body.Region q.op t.builder.body (P ++ [x]) D) (h : Expanding must q t.builder.body R (P ++ [x]) D)
    (hx : t.builder.body.Picks x u (.fixed i) r) (hop : t.builder.body.op? x = some op) (hk : op.kind = .subaccess)
    (hself : u ≠ r) (hR : must → 1 ≤ R x) (hs : t.builder.body.slotsOf k = A ++ x :: B) (hp : t.builder.point = ⟨k, A.length⟩) :
    Runs must (Lower.subaccess x) t fun replaced t' =>
      replaced = true ∧ Layer must (Expanding must q) t.builder.body R x k A B P D t' := by
  have hb := hr.coherent
  obtain ⟨cs, c, m₁, m, m₂, hm, rfl, h₁, hc, h₂⟩ := h.last
  obtain ⟨rfl, rfl⟩ := hc.alone hop (by rw [hk]; rfl)
  have hr₁ : q.body.Region q.op t.builder.body (cs.flatten ++ [x]) D := by simpa using hr
  have hnew : q.body.op? x = none := hq.op?_eq_none hr (by simp) hop (by rw [hk]; rfl)
  refine (hx.literal_runs hb hop hk hs hp).mono ?_
  rintro _ t' ⟨rfl, d, w, s, hpre, hsince, hd, ⟨opd, hopd, hkd⟩, hne, hty, hrep, hpoint⟩
  have hsb := hpre.coherent
  have hxs := hx.mono hb hsince.ext
  have hval : ∀ {y v}, s.body.Picks y u (.fixed i) v → (s.body.value? v).isSome := fun hy =>
    isSome_of_origin? (hy.origin? hsb)
  have hpre' : t.builder.body.Prefixed x k A B [d] ⟨t'.builder.body, s.point⟩ := hpre.replaced hrep (hval hxs) (hval hd) hne
  have hdnew : t.builder.body.op? d = none := hsince.fresh d (by simp)
  have hdq : q.body.op? d = none := hr.edited.op?_eq_none hdnew
  have hrnew : q.body.value? r = none := h.value?_eq_none hq hnew (hx.origin? hb)
  let R' : OpId → Nat := fun y => if (t.builder.body.op? y).isSome then R y else 0
  have hR' : ∀ {y}, (t.builder.body.op? y).isSome → R' y = R y := fun hy => if_pos hy
  refine ⟨rfl, [d], R', ?_, fun y hy => hR' hy, fun hmust => ⟨fun y hy => ?_, ?_⟩, fun b' he => ?_⟩
  · rwa [← hpoint] at hpre'
  · have := hR hmust
    simp only [R', List.mem_singleton.1 hy, hdnew, Option.isSome_none, Bool.false_eq_true, if_false]
    omega
  · rintro ⟨op₁, v, z, hop₁, hv, hz⟩
    obtain ⟨kind, vs, ⟨op₂, hop₂, -, -, hres, -⟩, -⟩ := hxs.makes
    obtain rfl := Option.some.inj (hop₁.symm.trans (hrep.op?_some hop₂))
    rw [hres, List.mem_singleton] at hv
    subst hv
    rcases hrep.reads_iff.1 hz with ⟨-, hz⟩ | ⟨hz, -⟩
    · exact hz rfl
    · exact hne hz
  have hclears : q.Clears t'.builder.body [x] b' := by
    refine .single he.dropped rfl he.unread (fun op' hop' => .inl ?_) (.inr (.inl hnew))
    rw [hrep.op?_some (hsince.op?_old hop)] at hop'
    rw [← Option.some.inj hop', hk]
    rfl
  -- what the other operations stand for
  have hrole : ∀ {c m pending}, (∀ y ∈ c, y ∈ cs.flatten ++ D) → Role must q t.builder.body R pending c m →
      Role must q b' R' pending c m := fun {c m pending} hc hrole => by
    have hapart := fun y hy => hr₁.apart (hc y hy)
    have hxc : x ∉ c := fun hxc => (hapart x hxc).2.1 (List.mem_singleton_self x)
    have hdc : d ∉ c := fun hdc => by
      have := (hapart d hdc).1
      rw [hdnew] at this
      cases this
    refine hclears.role (((hrole.since hb hsince (fun _ y hy => ?_) ?_)).replaced hq hsb hrep hxs hd hty hself hrnew
      ⟨hxc, hnew⟩ hdc) (by simpa using hxc)
    · exact Nat.le_of_eq (hR' (hapart y hy).1).symm
    · rintro y op v - - - rfl
      exact ⟨x, hxc, hx.reads⟩
  refine ⟨hclears.keeps ((h.since hb hsince ?_).replaced hq hsb hrep hrnew (hd.origin? hsb) hdq), fun hmust {y z} hy hz => ?_,
    cs ++ [[d]], m₁, m₂, by simpa using hm, by simp, ?_, ?_⟩
  · rintro v rfl
    exact ⟨x, hx.reads⟩
  · rw [hclears.outlives.inner, hrep.outlives.inner] at hz
    rw [List.append_nil] at hy
    rcases List.mem_append.1 hy with hy | hy
    · have hsome := (hr₁.apart (List.mem_append_left D hy)).1
      have hlt := fun {z} => h.nested hmust (x := y) (y := z) (by simp [hy])
      rw [hR' hsome]
      rcases hpre.mem_inner hs hsome hz with hz | ⟨hz, hxy⟩
      · obtain ⟨-, opz, -, hopz, -⟩ := hb.op?_of_mem_inner hz
        rw [hR' (by rw [hopz]; rfl)]
        exact hlt hz
      · have := hlt hxy
        simp only [R', List.mem_singleton.1 hz, hdnew, Option.isSome_none, Bool.false_eq_true, if_false]
        omega
    · rw [List.mem_singleton.1 hy, inner_eq_nil hopd (by rw [hkd]; rfl)] at hz
      cases hz
  · have hc : ∀ c ∈ cs, ∀ y ∈ c, y ∈ cs.flatten ++ D := fun c hc y hy =>
      List.mem_append_left _ (List.mem_flatten.2 ⟨c, hc, hy⟩)
    have hidle : Role must q b' R' true [d] [] := by
      obtain ⟨op', hop', hkind, -⟩ := (hrep.outlives.trans hclears.outlives).op?_some hopd
      exact .idle hop' (.inr (by rw [hkind, hkd]; rfl))
    simpa using (h₁.mono fun c hcs m hm => hrole (hc c hcs) hm).append (.single hidle)
  · have hidle : Role must q b' R' false [x] [] := by
      obtain ⟨op', hop', -⟩ := (hrep.outlives).op?_some (hsince.op?_old hop)
      have hopx := he.op? x
      rw [hop', Option.map_some, if_pos rfl] at hopx
      exact .idle hopx (.inl rfl)
    refine .skip hidle (h₂.mono fun c hcD m hm => hrole (fun y hy => ?_) hm)
    obtain ⟨z, hz, rfl⟩ := List.mem_map.1 hcD
    rw [List.mem_singleton.1 hy]
    exact List.mem_append_right _ hz

end Expanding

end Write

end Scalarize
