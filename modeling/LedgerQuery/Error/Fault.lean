import LedgerQuery.Error.Expected
import LedgerQuery.Text.Quoted

/-!
# Faults

Every way in which a text can fail to be a query, and how messages word it.
The first three faults are in the text itself, the others in its grammar.
-/

namespace LedgerQuery

/-- A reason why a text is no query. -/
inductive Fault where
  /-- A character that starts no token. -/
  | unexpectedChar (char : Char)
  /-- A string without its closing quote. -/
  | unterminatedString
  /-- A block comment without its end. -/
  | unterminatedComment
  /-- A token the grammar does not allow, and what it does. -/
  | unexpected (expected : List Expected) (found : String)
  /-- A comparison of a comparison. -/
  | chainedComparison
  /-- A pivot with fewer or more than two keys. -/
  | pivotArity
  /-- A date the calendar does not have. -/
  | invalidDate (text : String)
  /-- A number too large for where it stands. -/
  | invalidNumber (text : String)
  /-- Expressions nested deeper than the limit. -/
  | tooDeep (limit : Nat)
deriving DecidableEq, Repr, Inhabited

namespace Fault

/-- What is wrong, in words. -/
def message : Fault → String
  | unexpectedChar c => "unexpected character " ++ quotedChar c
  | unterminatedString => "unterminated string literal"
  | unterminatedComment => "unterminated block comment"
  | unexpected expected found => "expected " ++ Expected.describe expected ++ ", got " ++ found
  | chainedComparison => "comparison operators cannot be chained"
  | pivotArity => "PIVOT BY takes exactly two columns"
  | invalidDate text => "invalid date " ++ text
  | invalidNumber text => "number " ++ text ++ " is out of range"
  | tooDeep limit => s!"query nested deeper than {limit} levels"

/-- The words beside the marked text in a diagnostic. -/
def label : Fault → String
  | unexpectedChar _ => "not valid in a query"
  | unterminatedString => "string starts here"
  | unterminatedComment => "comment starts here"
  | unexpected _ _ => "unexpected token"
  | chainedComparison => "second comparison"
  | pivotArity => "PIVOT BY needs two keys"
  | invalidDate _ => "not a calendar date"
  | invalidNumber _ => "out of range"
  | tooDeep _ => "nesting limit reached here"

end Fault

end LedgerQuery
