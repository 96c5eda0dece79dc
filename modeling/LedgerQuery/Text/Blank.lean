import LedgerQuery.Text.CharSet

/-!
# Blank characters

The twenty-five characters of the Unicode property `White_Space`.  Diagnostics
trim them at the end of a shown line, and dates are read across them.  The query
language itself skips only five of them (`isBlank`).
-/

namespace LedgerQuery

/-- The characters with the property `White_Space`. -/
def CharSet.blank : CharSet := ⟨[
  (0x9, 0xD), (0x20, 0x20), (0x85, 0x85), (0xA0, 0xA0), (0x1680, 0x1680), (0x2000, 0x200A),
   (0x2028, 0x2029), (0x202F, 0x202F), (0x205F, 0x205F), (0x3000, 0x3000)]⟩

/-- The text without its blank beginning. -/
def dropBlanks (cs : List Char) : List Char := cs.dropWhile CharSet.blank.contains

/-- The text without its blank end. -/
def trimBlankEnd (cs : List Char) : List Char :=
  (cs.reverse.dropWhile CharSet.blank.contains).reverse

end LedgerQuery
