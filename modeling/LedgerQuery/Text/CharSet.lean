/-!
# Sets of characters

A large set of characters is written as a list of ranges of code points, both
ends included.
-/

namespace LedgerQuery

/-- A set of characters, given by ranges of code points. -/
structure CharSet where
  /-- The ranges, each with its first and last code point. -/
  ranges : List (Nat × Nat)

/-- Whether a character lies in one of the ranges. -/
def CharSet.contains (s : CharSet) (c : Char) : Bool :=
  s.ranges.any fun (first, last) => first ≤ c.toNat && c.toNat ≤ last

end LedgerQuery
