import LedgerQuery.Grammar.Statement

/-!
# Parsing

`parse` turns a text into a statement or an error, under a limit on how deep
expressions and queries may be nested.  The text is scanned as a whole first,
so a fault of the text itself comes before any fault of its grammar.
-/

namespace LedgerQuery

/-- The nesting limit when none is given. -/
def defaultLimit : Nat := 64

/-- The statement of a list of lexemes, with its span. -/
def parseLexemes (lexemes : List Lexeme) (limit : Nat) : Except Stop (Statement × Span) :=
  (Parser.wholeText (Parser.nested limit limit) (Input.start lexemes)).map Prod.fst

/-- The error of a stop in a source. -/
def Stop.toError (stop : Stop) (source : String) : ParseError :=
  .locate source stop.fault ((stop.rest.head?.map Lexeme.span).getD (endOfText source))

/-- The statement of a text, with the span from its first token to its last. -/
def parseSpanned (source : String) (limit : Nat := defaultLimit) :
    Except ParseError (Statement × Span) := do
  let lexemes ← scan source
  match parseLexemes lexemes limit with
  | .ok result => return result
  | .error stop => throw (stop.toError source)

/-- The statement of a text. -/
def parse (source : String) (limit : Nat := defaultLimit) : Except ParseError Statement :=
  (parseSpanned source limit).map Prod.fst

end LedgerQuery
