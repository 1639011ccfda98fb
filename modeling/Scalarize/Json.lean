import Scalarize.Assoc

/-!
# JSON values

* `Json` : JSON values; a number is an integer by the way it is written, not by its value;
* `Json.word?` : integers from zero up to a bound;
* `Json.record?` : the members of a record, written as an object or as a plain list;
* `Json.depth` : how deep arrays and objects are nested.
-/

namespace Scalarize

/-- A JSON value. -/
inductive Json where
  | null
  | bool (b : Bool)
  | int (n : Int)
  /-- A number with a fraction or an exponent: the mantissa with the point moved left. -/
  | decimal (mantissa : Int) (places : Nat)
  | str (s : String)
  | arr (items : List Json)
  | obj (members : List (String × Json))

namespace Json

instance : Inhabited Json := ⟨.null⟩

/-! ## Equality -/

mutual

/-- Equality of JSON values is decidable. -/
protected def decEq : (a b : Json) → Decidable (a = b)
  | null, b => match b with
    | null => isTrue rfl
    | bool _ | int _ | decimal _ _ | str _ | arr _ | obj _ => isFalse (fun h => by injection h)
  | bool p, b => match b with
    | bool q => decidable_of_iff (p = q) (by simp)
    | null | int _ | decimal _ _ | str _ | arr _ | obj _ => isFalse (fun h => by injection h)
  | int m, b => match b with
    | int n => decidable_of_iff (m = n) (by simp)
    | null | bool _ | decimal _ _ | str _ | arr _ | obj _ => isFalse (fun h => by injection h)
  | decimal m i, b => match b with
    | decimal n j => decidable_of_iff (m = n ∧ i = j) (by simp)
    | null | bool _ | int _ | str _ | arr _ | obj _ => isFalse (fun h => by injection h)
  | str s, b => match b with
    | str t => decidable_of_iff (s = t) (by simp)
    | null | bool _ | int _ | decimal _ _ | arr _ | obj _ => isFalse (fun h => by injection h)
  | arr xs, b => match b with
    | arr ys => match Json.decEqItems xs ys with
      | isTrue e => isTrue (by rw [e])
      | isFalse e => isFalse (fun h => e (by injection h))
    | null | bool _ | int _ | decimal _ _ | str _ | obj _ => isFalse (fun h => by injection h)
  | obj xs, b => match b with
    | obj ys => match Json.decEqMembers xs ys with
      | isTrue e => isTrue (by rw [e])
      | isFalse e => isFalse (fun h => e (by injection h))
    | null | bool _ | int _ | decimal _ _ | str _ | arr _ => isFalse (fun h => by injection h)

/-- Equality of item lists is decidable. -/
protected def decEqItems : (a b : List Json) → Decidable (a = b)
  | [], [] => isTrue rfl
  | [], _ :: _ => isFalse (fun h => by injection h)
  | _ :: _, [] => isFalse (fun h => by injection h)
  | x :: xs, y :: ys =>
    match Json.decEq x y, Json.decEqItems xs ys with
    | isTrue e, isTrue es => isTrue (by rw [e, es])
    | isFalse e, _ => isFalse (fun h => e (by injection h))
    | _, isFalse es => isFalse (fun h => es (by injection h))

/-- Equality of member lists is decidable. -/
protected def decEqMembers : (a b : List (String × Json)) → Decidable (a = b)
  | [], [] => isTrue rfl
  | [], _ :: _ => isFalse (fun h => by injection h)
  | _ :: _, [] => isFalse (fun h => by injection h)
  | (k, x) :: xs, (l, y) :: ys =>
    match Json.decEq x y, Json.decEqMembers xs ys with
    | isTrue e, isTrue es =>
      if h : k = l then isTrue (by rw [e, es, h])
      else isFalse (fun he => h (by injection he with he _; injection he))
    | isFalse e, _ => isFalse (fun he => e (by injection he with he _; injection he))
    | _, isFalse es => isFalse (fun he => es (by injection he))

end

instance : DecidableEq Json := Json.decEq

/-! ## Reading -/

/-- An integer from zero up to, but not including, a bound. -/
def word? (bound : Nat) : Json → Option Nat
  | int n => if 0 ≤ n ∧ n < bound then some n.toNat else none
  | _ => none

/-- The members of a record, in the order of their names: an object must have them all, a list must
have nothing else. -/
def record? (names : List String) : Json → Option (List Json)
  | obj members => names.mapM fun name => Assoc.get? members name
  | arr items => if items.length = names.length then some items else none
  | _ => none

mutual

/-- How deep arrays and objects are nested; a plain value counts as one level. -/
def depth : Json → Nat
  | arr items => depthItems items + 1
  | obj members => depthMembers members + 1
  | _ => 1

/-- The largest depth in an array. -/
def depthItems : List Json → Nat
  | [] => 0
  | x :: xs => max x.depth (depthItems xs)

/-- The largest depth in an object. -/
def depthMembers : List (String × Json) → Nat
  | [] => 0
  | (_, x) :: xs => max x.depth (depthMembers xs)

end

end Json

end Scalarize
