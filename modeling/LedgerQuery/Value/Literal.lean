import LedgerQuery.Value.Date
import LedgerQuery.Value.Decimal

/-!
# Literals

The values a query can write down: null, truth values, integers of sixty-four
bits, decimals, dates and strings.  A string is the text between two quotes and
the quotes it stands in.  Nothing in it is escaped, so a string cannot hold its
own quote.

Each value has one written form.  A decimal keeps its point even without
places, so it does not read back as an integer.
-/

namespace LedgerQuery

/-- The quotes of a string. -/
inductive QuoteStyle where
  /-- Single quotes. -/
  | single
  /-- Double quotes. -/
  | double
deriving DecidableEq, Repr, Inhabited

/-- The quote character. -/
def QuoteStyle.char : QuoteStyle → Char
  | .single => '\''
  | .double => '"'

/-- A string and the quotes it is written in. -/
structure StringLiteral where
  /-- The text between the quotes. -/
  value : String
  /-- The quotes. -/
  quote : QuoteStyle := .single
deriving DecidableEq, Repr, Inhabited

namespace StringLiteral

/-- The written form, quotes included. -/
def text (s : StringLiteral) : String :=
  String.singleton s.quote.char ++ s.value ++ String.singleton s.quote.char

/-- A text in quotes: double quotes if it holds a single one. -/
def enclosing (value : String) : StringLiteral :=
  ⟨value, if '\'' ∈ value.toList then .double else .single⟩

end StringLiteral

/-- A value written in a query. -/
inductive Literal where
  /-- The absent value. -/
  | null
  /-- A truth value. -/
  | boolean (value : Bool)
  /-- An integer. -/
  | integer (value : Int64)
  /-- A decimal. -/
  | decimal (value : Decimal)
  /-- A date. -/
  | date (value : Date)
  /-- A string. -/
  | string (value : StringLiteral)
deriving DecidableEq, Repr, Inhabited

namespace Literal

/-- The written form of an integer. -/
def integerText (n : Int64) : String := toString n.toInt

/-- The written form of a decimal in a query, which always has a point. -/
def decimalText (d : Decimal) : String := if d.scale = 0 then d.text ++ "." else d.text

/-- The written form. -/
def text : Literal → String
  | null => "NULL"
  | boolean true => "TRUE"
  | boolean false => "FALSE"
  | integer n => integerText n
  | decimal d => decimalText d
  | date d => d.text
  | string s => s.text

end Literal

/-- A constant: one literal, or a list of literals in parentheses. -/
inductive Constant where
  /-- One literal. -/
  | literal (value : Literal)
  /-- A list of literals. -/
  | list (items : List Literal)
deriving DecidableEq, Repr, Inhabited

/-- A parameter of a query, filled in when it runs. -/
inductive Placeholder where
  /-- The next parameter in order. -/
  | positional
  /-- The parameter of a name. -/
  | named (name : String)
deriving DecidableEq, Repr, Inhabited

/-- The written form of a placeholder. -/
def Placeholder.text : Placeholder → String
  | positional => "%s"
  | named name => "%(" ++ name ++ ")s"

end LedgerQuery
