import LedgerQuery.Error.Fault
import LedgerQuery.Text.Location

/-!
# Errors

An error is a fault, the stretch of the text it concerns and the place where
that stretch starts.
-/

namespace LedgerQuery

/-- A fault and where it is. -/
structure ParseError where
  /-- What is wrong. -/
  fault : Fault
  /-- The text concerned. -/
  span : Span
  /-- The place where it starts. -/
  location : Location
deriving DecidableEq, Repr, Inhabited

namespace ParseError

/-- The error of a fault at a span of the source. -/
def locate (source : String) (fault : Fault) (span : Span) : ParseError :=
  ⟨fault, span, Location.ofOffset source.toList span.start⟩

/-- The message with the place. -/
def display (e : ParseError) : String :=
  e.fault.message ++ s!" at line {e.location.line}, column {e.location.column}"

end ParseError

end LedgerQuery
