/-!
# Handles

Values, operations and blocks of one body are numbered from zero, each kind on its own, in the
order in which they are made; a number is never given out twice. The three kinds of handle are
different types, so that one cannot stand for another.
-/

namespace Scalarize

/-- Number of an operation in its body. -/
structure OpId where
  index : Nat
  deriving DecidableEq, Repr, Inhabited

/-- Number of a value in its body. -/
structure ValueId where
  index : Nat
  deriving DecidableEq, Repr, Inhabited

/-- Number of a block in its body. -/
structure BlockId where
  index : Nat
  deriving DecidableEq, Repr, Inhabited

end Scalarize
