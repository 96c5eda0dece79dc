import LedgerQuery.Text.Span
import LedgerQuery.Token.Keyword
import LedgerQuery.Token.Symbol
import LedgerQuery.Value.Literal

/-!
# Tokens

The pieces that the grammar is about.  A token keeps what it was written as, so
`Token.text` gives back its piece of the query, and a keyword keeps the case of
its letters.  Numbers and dates are kept as text, since a token may be out of
range or off the calendar.

`Token.endsOperand` tells the two meanings of a percent sign apart.  After a
token that ends an operand it can only be the operator.  The keywords that may
be names are not among these tokens.
-/

namespace LedgerQuery

/-- A piece of a query. -/
inductive Token where
  /-- A keyword, with the word as written. -/
  | keyword (key : Keyword) (written : String)
  /-- The name of a column, function or alias. -/
  | ident (name : String)
  /-- An integer. -/
  | integer (digits : String)
  /-- A number with a point. -/
  | decimal (written : String)
  /-- Something in the form of a date. -/
  | date (written : String)
  /-- A string. -/
  | string (value : StringLiteral)
  /-- A table, named after a number sign; the default table has the empty name. -/
  | table (name : String)
  /-- A parameter of the query. -/
  | placeholder (value : Placeholder)
  /-- An operator or a punctuation mark. -/
  | symbol (value : Symbol)
  /-- The end of the query. -/
  | eof
deriving DecidableEq, Repr, Inhabited

/-- A token the grammar asks for by itself. -/
inductive Terminal where
  /-- A keyword. -/
  | keyword (key : Keyword)
  /-- An operator or a punctuation mark. -/
  | symbol (value : Symbol)
deriving DecidableEq, Repr, Inhabited

/-- The written form of a terminal. -/
def Terminal.spelling : Terminal → String
  | .keyword k => k.spelling
  | .symbol s => s.spelling

namespace Token

/-- The token of a word: a keyword, or else a name. -/
def ofWord (word : String) : Token :=
  match Keyword.lookup? word with
  | some k => .keyword k word
  | none => .ident word

/-- The piece of the query a token was read from. -/
def text : Token → String
  | keyword _ written => written
  | ident name => name
  | integer digits => digits
  | decimal written => written
  | date written => written
  | string s => s.text
  | table name => "#" ++ name
  | placeholder p => p.text
  | symbol s => s.spelling
  | eof => ""

/-- The form of a token in messages; keywords are in upper case. -/
def display : Token → String
  | keyword k _ => "`" ++ k.spelling ++ "`"
  | eof => "end of input"
  | t => "`" ++ t.text ++ "`"

/-- The terminal a token is, if any. -/
def terminal? : Token → Option Terminal
  | keyword k _ => some (.keyword k)
  | symbol s => some (.symbol s)
  | _ => none

/-- Whether a token is a given terminal. -/
def is (t : Token) (x : Terminal) : Bool := t.terminal? = some x

/-- The name a token can serve as: a name, or a keyword that is not reserved. -/
def name? : Token → Option String
  | ident name => some name
  | keyword k written => if k.isReserved then none else some written
  | _ => none

/-- Whether a token can serve as a name. -/
def isName (t : Token) : Bool := t.name?.isSome

/-- Whether a token is a literal. -/
def isLiteral : Token → Bool
  | integer _ | decimal _ | date _ | string _ => true
  | keyword k _ => [Keyword.null, .true, .false].contains k
  | _ => false

/-- Whether a percent sign after this token can only be the operator. -/
def endsOperand : Token → Bool
  | ident _ | table _ | placeholder _ => true
  | symbol s => [Symbol.rightParen, .rightBracket].contains s
  | t => t.isLiteral

end Token

/-- A token and where it stands in the query. -/
structure Lexeme where
  /-- The token. -/
  token : Token
  /-- Where it was read. -/
  span : Span
deriving DecidableEq, Repr, Inhabited

end LedgerQuery
