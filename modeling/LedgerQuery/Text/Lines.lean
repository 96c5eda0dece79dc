/-!
# Lines

A text is cut into lines in two ways.

* `unterminatedLines` cuts at line feeds and drops them, each with one carriage
  return in front of it.  No empty line follows a final line feed.
* `terminatedLines` cuts after every Unicode line terminator and keeps the
  terminators, so the lines put together are the text (`flatten_terminatedLines`).
-/

namespace LedgerQuery

/-- A line without a carriage return at its end. -/
def dropReturn (line : List Char) : List Char :=
  if line.getLast? = some '\r' then line.dropLast else line

/-- The lines of a text that line feeds end, without their ends; `line` is the
part of the current line already read, last character first. -/
def unterminatedLinesFrom (line : List Char) : List Char → List (List Char)
  | [] => if line.isEmpty then [] else [line.reverse]
  | c :: cs =>
    if c = '\n' then dropReturn line.reverse :: unterminatedLinesFrom [] cs
    else unterminatedLinesFrom (c :: line) cs

/-- The lines of a text that line feeds end, without their ends. -/
def unterminatedLines (cs : List Char) : List (List Char) := unterminatedLinesFrom [] cs

/-- Whether a character ends a line; a carriage return also does, together with
a line feed after it. -/
def isLineEnd (c : Char) : Bool :=
  c = '\n' || c = '\x0b' || c = '\x0c' || c = '\r' || c = '\u0085' || c = '\u2028' || c = '\u2029'

/-- The lines of a text with their terminators; `line` is the part of the
current line already read, last character first. -/
def terminatedLinesFrom (line : List Char) : List Char → List (List Char)
  | [] => if line.isEmpty then [] else [line.reverse]
  | c :: cs =>
    if isLineEnd c && !(c = '\r' && cs.head? = some '\n') then
      (c :: line).reverse :: terminatedLinesFrom [] cs
    else terminatedLinesFrom (c :: line) cs

/-- The lines of a text, each with its terminator. -/
def terminatedLines (cs : List Char) : List (List Char) := terminatedLinesFrom [] cs

theorem flatten_terminatedLinesFrom (line cs : List Char) :
    (terminatedLinesFrom line cs).flatten = line.reverse ++ cs := by
  induction cs generalizing line with
  | nil => cases line <;> simp [terminatedLinesFrom]
  | cons c cs ih =>
    rw [terminatedLinesFrom]
    split <;> simp [ih]

/-- The lines of a text, put together, are the text. -/
theorem flatten_terminatedLines (cs : List Char) : (terminatedLines cs).flatten = cs :=
  flatten_terminatedLinesFrom [] cs

end LedgerQuery
