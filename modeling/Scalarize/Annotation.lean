import Scalarize.Json

/-!
# Annotations

* `Annotation` : a record attached to a declaration or port, with a class, an optional field ID
  that narrows it to a node of the type, an optional path that scopes it, and further members;
* `Annotation.target` : the node it applies to;
* `redirect` : moves the annotations scoped to one path to another.
-/

namespace Scalarize

/-- An annotation record. -/
structure Annotation where
  /-- Class name. -/
  className : String
  /-- Field ID of the node it applies to; absent for the whole value. -/
  fieldId : Option Nat
  /-- Name of the hierarchical path it is scoped to. -/
  path : Option String
  /-- Further members, in order. -/
  members : Assoc String Json
  deriving DecidableEq

namespace Annotation

/-- Class of annotations that keep a declaration from being optimised away. -/
def dontTouch : String := "firrtl.transforms.DontTouchAnnotation"

/-- Class of annotations that hold a field ID of their own. -/
def signalDriver : String := "sifive.enterprise.grandcentral.SignalDriverAnnotation"

/-- Member that holds the field ID of a signal driver. -/
def fieldIdMember : String := "fieldID"

/-- Field ID of the node it applies to; 0 is the whole value. -/
def target (a : Annotation) : Nat := a.fieldId.getD 0

/-- Scopes an annotation of one path to another. -/
def redirect (source target : String) (a : Annotation) : Annotation :=
  if a.path = some source then { a with path := some target } else a

end Annotation

/-- Some annotation of the list has a class. -/
def hasClass (annotations : List Annotation) (className : String) : Bool :=
  annotations.any (·.className == className)

/-- Drops the annotations of a class. -/
def dropClass (annotations : List Annotation) (className : String) : List Annotation :=
  annotations.filter (·.className != className)

/-- Scopes every annotation of one path to another. -/
def redirect (source target : String) (annotations : List Annotation) : List Annotation :=
  annotations.map (·.redirect source target)

/-- How many annotations are scoped to a path. -/
def countScoped (path : String) (annotations : List Annotation) : Nat :=
  annotations.countP fun a => a.path = some path

end Scalarize
