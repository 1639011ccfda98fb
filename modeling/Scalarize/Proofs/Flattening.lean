import Scalarize.Proofs.Interfaces

/-!
# Flattened ports

* `Stop`, `Ty.stops` : the nodes of a type at which splitting stops, in pre-order, with the names and directions that
  they add;
* `Ty.stops_of_peel` : a type that is split stops where its parts do;
* `PortPiece`, `Module.flattened` : the ports of a module split to the end, each with its place in the former port;
* `PortPiece.flattened_of_peel` : splitting a port by one layer does not change them.
-/

namespace Scalarize

/-! ## Types -/

/-- A node of a type at which splitting stops. -/
structure Stop where
  /-- Positions of the parts on the way to it. -/
  path : List Nat
  /-- What a name gains on the way. -/
  suffix : String
  /-- The way to it crosses an odd number of flipped fields. -/
  flip : Bool
  ty : Ty
  deriving DecidableEq

namespace Stop

/-- A type that stays whole. -/
def whole (t : Ty) : Stop := ⟨[], "", false, t⟩

/-- The node seen from further up: a part, to which `path` leads, holds it. -/
def below (path : List Nat) (suffix : String) (flip : Bool) (s : Stop) : Stop :=
  ⟨path ++ s.path, suffix ++ s.suffix, flip ^^ s.flip, s.ty⟩

end Stop

/-- The part as a node of its aggregate. -/
def Part.stop (p : Part) : Stop := ⟨[p.index], p.suffix, p.flip, p.ty⟩

/-- A node of the part as one of its aggregate. -/
def Part.below (p : Part) (s : Stop) : Stop := s.below [p.index] p.suffix p.flip

namespace Ty

mutual

/-- The nodes at which splitting stops: ground types, and where `keep` is set, aggregates that may be kept. -/
def stops (keep : Bool) : Ty → List Stop
  | .ground g => [.whole (.ground g)]
  | .bundle fs => if keep && (bundle fs).preservable then [.whole (.bundle fs)] else stopsFields keep fs 0
  | .vector e n =>
    if keep && (vector e n).preservable then [.whole (.vector e n)]
    else (List.range n).flatMap fun i => (stops keep e).map (Stop.below [i] ("_" ++ toString i) false)

/-- The same for a field list, whose head is at position `i`. -/
def stopsFields (keep : Bool) : List Field → Nat → List Stop
  | [], _ => []
  | ⟨name, flip, t⟩ :: fs, i => (stops keep t).map (Stop.below [i] ("_" ++ name) flip) ++ stopsFields keep fs (i + 1)

end

variable {keep : Bool} {t : Ty} {ps : List Part}

theorem stopsFields_eq (fs : List Field) (i : Nat) :
    stopsFields keep fs i =
      (fs.zipIdx i).flatMap fun (f, j) => (f.ty.stops keep).map (Stop.below [j] ("_" ++ f.name) f.flip) := by
  induction fs generalizing i with
  | nil => rfl
  | cons f fs ih =>
    cases f
    rw [stopsFields, ih, List.zipIdx_cons, List.flatMap_cons]

/-- A type that stays whole is the only node at which its splitting stops. -/
theorem stops_of_kept (h : (t.isGround || keep && t.preservable) = true) : t.stops keep = [.whole t] := by
  cases t with
  | ground g => rfl
  | bundle fs | vector e n => rw [stops, if_pos (by simpa [isGround] using h)]

theorem stops_of_whole (h : t.peel keep = .ok none) : t.stops keep = [.whole t] := by
  refine stops_of_kept ?_
  unfold peel at h
  split at h
  next hw => exact hw
  next =>
    cases hp : t.parts <;> rw [hp] at h <;> cases h

theorem partAt_eq {i : Nat} {ty : Ty} {label : String} {flip : Bool} :
    Ends False (t.partAt i ty label flip) fun p => p.stop = ⟨[i], "_" ++ label, flip, ty⟩ :=
  Ends.bind (P := fun _ => True) (.intro (fun _ _ => trivial) nofun) fun _ _ => .pure rfl

/-- The immediate parts of a type as nodes. -/
def layer : Ty → List Stop
  | .ground _ => []
  | .bundle fs => fs.zipIdx.map fun (f, i) => ⟨[i], "_" ++ f.name, f.flip, f.ty⟩
  | .vector e n => (List.range n).map fun i => ⟨[i], "_" ++ toString i, false, e⟩

/-- A type that is split has the parts of its layer. -/
theorem map_stop_of_peel (h : t.peel keep = .ok (some ps)) : ps.map Part.stop = t.layer := by
  have hps : t.parts = .ok ps := by
    unfold peel at h
    split at h
    next => cases h
    next =>
      cases hp : t.parts <;> rw [hp] at h <;> cases h
      rfl
  have hmap : ∀ {α : Type} {l : List α} {f : α → Stop}, List.Forall₂ (fun a p => Part.stop p = f a) l ps →
      ps.map Part.stop = l.map f := fun hl => by
    rw [← List.forall₂_eq_eq_eq, List.forall₂_map_left_iff, List.forall₂_map_right_iff]
    exact hl.flip
  cases t with
  | ground g =>
    cases hps
    rfl
  | bundle fs =>
    have hparts : Ends False (bundle fs).parts (List.Forall₂ (fun (x : Field × Nat) p =>
        Part.stop p = ⟨[x.2], "_" ++ x.1.name, x.1.flip, x.1.ty⟩) fs.zipIdx) :=
      Ends.mapM _ _ fun _ _ => partAt_eq
    exact hmap (hparts.of_ok hps)
  | vector e n =>
    have hparts : Ends False (vector e n).parts (List.Forall₂ (fun i p =>
        Part.stop p = ⟨[i], "_" ++ toString i, false, e⟩) (List.range n)) :=
      Ends.mapM _ _ fun _ _ => partAt_eq
    exact hmap (hparts.of_ok hps)

/-- The parts of a layer are at different places. -/
theorem map_path_layer (t : Ty) : t.layer.map (·.path) = (List.range t.children.length).map ([·]) := by
  cases t with
  | ground g => rfl
  | bundle fs =>
    refine List.ext_getElem? fun i => ?_
    by_cases hi : i < fs.length <;> simp [layer, children, hi]
  | vector e n => simp [layer, children]

theorem mem_layer {s : Stop} (h : s ∈ t.layer) : ∃ i, s.path = [i] ∧ t.child? i = some s.ty := by
  cases t with
  | ground g => cases h
  | bundle fs =>
    obtain ⟨⟨f, i⟩, hf, rfl⟩ := List.mem_map.1 h
    rw [List.mk_mem_zipIdx_iff_getElem?] at hf
    exact ⟨i, rfl, by simp [child?, hf]⟩
  | vector e n =>
    obtain ⟨i, hi, rfl⟩ := List.mem_map.1 h
    exact ⟨i, rfl, if_pos (List.mem_range.1 hi)⟩

theorem exists_mem_layer {i : Nat} {c : Ty} (h : t.child? i = some c) : ∃ s ∈ t.layer, s.path = [i] ∧ s.ty = c := by
  cases t with
  | ground g => cases h
  | bundle fs =>
    obtain ⟨f, hf, rfl⟩ := Option.map_eq_some_iff.1 h
    exact ⟨_, List.mem_map.2 ⟨(f, i), List.mk_mem_zipIdx_iff_getElem?.2 hf, rfl⟩, rfl, rfl⟩
  | vector e n =>
    rw [child?] at h
    split at h
    next hi => exact ⟨_, List.mem_map.2 ⟨i, List.mem_range.2 hi, rfl⟩, rfl, Option.some.inj h⟩
    next => cases h

/-- What does not stay whole stops where the parts of its layer do. -/
theorem stops_eq_layer (h : (t.isGround || keep && t.preservable) = false) :
    t.stops keep = t.layer.flatMap fun s => (s.ty.stops keep).map (Stop.below s.path s.suffix s.flip) := by
  cases t with
  | ground g => cases h
  | bundle fs =>
    rw [stops, if_neg (by simpa [isGround] using h), stopsFields_eq, layer, List.flatMap_map]
  | vector e n => rw [stops, if_neg (by simpa [isGround] using h), layer, List.flatMap_map]

/-- A type that is split stops where its parts do. -/
theorem stops_of_peel (h : t.peel keep = .ok (some ps)) :
    t.stops keep = ps.flatMap fun p => (p.ty.stops keep).map p.below := by
  have hwhole : (t.isGround || keep && t.preservable) = false := by
    unfold peel at h
    split at h
    next => cases h
    next hwhole => simpa using hwhole
  rw [stops_eq_layer hwhole, ← map_stop_of_peel h, List.flatMap_map]
  rfl

end Ty

/-! ## Ports -/

/-- The port of a node of its type. -/
def PortShape.node (e : PortShape) (s : Stop) : PortShape := ⟨e.name ++ s.suffix, e.direction.flipIf s.flip, s.ty⟩

/-- What stands for a node of a port of a module. -/
structure PortPiece where
  /-- Position of the port among those of the module. -/
  port : Nat
  /-- Positions of the parts on the way to the node. -/
  path : List Nat
  shape : PortShape

namespace PortPiece

/-- What stands for a node of the piece. -/
def node (o : PortPiece) (s : Stop) : PortPiece := ⟨o.port, o.path ++ s.path, o.shape.node s⟩

/-- The piece split to the end. -/
def flattened (keep : Bool) (o : PortPiece) : List PortPiece := (o.shape.ty.stops keep).map o.node

variable {keep : Bool} {o : PortPiece} {ps : List Part}

theorem node_below (o : PortPiece) (p : Part) (s : Stop) : o.node (p.below s) = (o.node p.stop).node s := by
  simp [PortPiece.node, PortShape.node, Part.below, Stop.below, Part.stop, String.append_assoc, Direction.flipIf_flipIf]

theorem flattened_of_whole (h : o.shape.ty.peel keep = .ok none) : o.flattened keep = [o] := by
  rw [flattened, Ty.stops_of_whole h]
  obtain ⟨i, path, name, direction, ty⟩ := o
  cases direction <;> simp [PortPiece.node, PortShape.node, Stop.whole, Direction.flipIf]

/-- Splitting a piece by one layer does not change what it is split into to the end. -/
theorem flattened_of_peel (h : o.shape.ty.peel keep = .ok (some ps)) :
    o.flattened keep = (ps.map fun p => o.node p.stop).flatMap (flattened keep) := by
  rw [flattened, Ty.stops_of_peel h, List.map_flatMap, List.flatMap_map]
  refine List.flatMap_congr fun p _ => ?_
  rw [List.map_map]
  exact List.map_congr_left fun s _ => o.node_below p s

end PortPiece

/-- The ports of a module, each whole. -/
def Module.pieces (m : Module) : List PortPiece := m.ports.zipIdx.map fun (p, i) => ⟨i, [], p.shape⟩

/-- The ports of a module split to the end. -/
def Module.flattened (keep : Bool) (m : Module) : List PortPiece := m.pieces.flatMap (·.flattened keep)

theorem Module.shape_pieces (m : Module) : m.pieces.map (·.shape) = m.shape := by
  rw [pieces, List.map_map]
  refine List.ext_getElem? fun i => ?_
  simp [shape, Function.comp_def]

end Scalarize
