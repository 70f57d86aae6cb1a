/-! Classes of characters given by ranges of code points. -/

namespace Packrat

/-- The characters in one of the ranges, both ends included, or all others. -/
structure CharClass where
  ranges : List (Char × Char)
  negated : Bool
  deriving DecidableEq, Repr

namespace CharClass

def contains (k : CharClass) (c : Char) : Bool :=
  (k.ranges.any fun (low, high) => low ≤ c && c ≤ high) != k.negated

end CharClass

end Packrat
