import LedgerQuery.Token.Basic

/-!
# Expected items

What the grammar would have accepted at a place: a certain keyword or symbol,
or anything of a class of tokens.  Lists of items in messages follow one order,
keywords first, then symbols, then the classes.
-/

namespace LedgerQuery

/-- Something the grammar accepts at a place. -/
inductive Expected where
  /-- A certain keyword or symbol. -/
  | terminal (value : Terminal)
  /-- Any expression. -/
  | expression
  /-- The name of a column, function or alias. -/
  | identifier
  /-- An integer. -/
  | integer
  /-- A date. -/
  | date
  /-- A string. -/
  | string
  /-- A literal in a list. -/
  | literal
  /-- A table. -/
  | table
  /-- The end of the query. -/
  | endOfInput
deriving DecidableEq, Repr, Inhabited

namespace Expected

/-- The classes of tokens, in order. -/
def classes : List Expected :=
  [expression, identifier, integer, date, string, literal, table, endOfInput]

/-- Every item, in order. -/
def all : List Expected :=
  Keyword.all.map (fun k => terminal (.keyword k)) ++
    Symbol.all.map (fun s => terminal (.symbol s)) ++ classes

/-- Every item is in the order. -/
theorem mem_all (e : Expected) : e ∈ all := by
  cases e with
  | terminal t =>
    cases t with
    | keyword k => simp [all, Keyword.mem_all]
    | symbol s => simp [all, Symbol.mem_all]
  | _ => simp [all, classes]

/-- The items of a list in order, each once. -/
def collect (items : List Expected) : List Expected := all.filter items.contains

/-- The items of a list in order, as often as they are in it. -/
def ordered (items : List Expected) : List Expected :=
  all.flatMap fun e => items.filter (· = e)

@[simp] theorem mem_collect {items : List Expected} {e : Expected} :
    e ∈ collect items ↔ e ∈ items := by
  simp [collect, mem_all]

/-- The form of an item in messages. -/
def display : Expected → String
  | terminal t => "`" ++ t.spelling ++ "`"
  | expression => "expression"
  | identifier => "identifier"
  | integer => "integer"
  | date => "date"
  | string => "string"
  | literal => "literal"
  | table => "table"
  | endOfInput => "end of input"

/-- A list of items in words: commas between them, and `or` before the last. -/
def describe (items : List Expected) : String :=
  match items.reverse with
  | [] => "nothing"
  | [e] => e.display
  | last :: others =>
    ", ".intercalate (others.reverse.map display) ++ " or " ++ last.display

end Expected

end LedgerQuery
