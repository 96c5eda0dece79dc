import LedgerQuery.Error.Fault
import LedgerQuery.Token.Scan

/-!
# Reading lexemes

A `Parser` reads from the front of a list of lexemes and never goes back.  Its
state is the list that remains, and what was tried at its front without success.
Moving on forgets what was tried.  So the items of an error are those that were
tried at the very place where reading stopped.

* `accept` and `after` try a terminal and remember a miss.
* `acceptQuietly` and `afterQuietly` only look.  They are for operators, which
  may follow any operand and would fill every message.
* `many` repeats a step for as long as it finds something.  Each round that
  finds something is expected to move on, so there are no more rounds than
  lexemes, and `many` allows one round more than that.

A failure keeps the list at which reading stopped.
-/

namespace LedgerQuery

/-- What remains to be read. -/
structure Input where
  /-- The lexemes not read yet. -/
  rest : List Lexeme
  /-- What was tried in vain at the front of these. -/
  tried : List Expected
  /-- The span of the last lexeme read. -/
  last : Span
deriving DecidableEq, Repr, Inhabited

/-- Why reading stopped, and where. -/
structure Stop where
  /-- What is wrong. -/
  fault : Fault
  /-- The lexemes from the place of the fault on. -/
  rest : List Lexeme
deriving DecidableEq, Repr, Inhabited

/-- A reader of lexemes. -/
abbrev Parser := StateT Input (Except Stop)

namespace Input

/-- The token at a distance from the front. -/
def nth (s : Input) (n : Nat) : Token := (s.rest[n]?.map Lexeme.token).getD .eof

/-- The token at the front. -/
def next (s : Input) : Token := s.nth 0

/-- The input before anything is read. -/
def start (lexemes : List Lexeme) : Input :=
  ⟨lexemes, [], (lexemes.head?.map Lexeme.span).getD ⟨0, 0⟩⟩

end Input

namespace Parser

variable {α : Type}

/-! ## Looking and moving -/

/-- The next token. -/
def peek : Parser Token := fun s => .ok (s.next, s)

/-- The token at a distance from the next one. -/
def peekNth (n : Nat) : Parser Token := fun s => .ok (s.nth n, s)

/-- Reads one lexeme, if there is one. -/
def advance : Parser Unit := fun s =>
  match s.rest with
  | [] => .ok ((), s)
  | l :: rest => .ok ((), ⟨rest, [], l.span⟩)

/-- The span of the next lexeme; at the end, the last one read. -/
def nextSpan : Parser Span := fun s => .ok ((s.rest.head?.map Lexeme.span).getD s.last, s)

/-- The span of the last lexeme read. -/
def lastSpan : Parser Span := fun s => .ok (s.last, s)

/-! ## Failing -/

/-- Remembers that an item would have been accepted here. -/
def record (e : Expected) : Parser Unit := fun s => .ok ((), { s with tried := e :: s.tried })

/-- Stops with a fault at the next token. -/
def fail (fault : Fault) : Parser α := fun s => .error ⟨fault, s.rest⟩

/-- Stops because the next token is none of the items tried. -/
def unexpected : Parser α := fun s =>
  .error ⟨.unexpected (Expected.collect s.tried) s.next.display, s.rest⟩

/-- Stops because an item is missing. -/
def missing (e : Expected) : Parser α := do
  record e
  unexpected

/-! ## Terminals -/

/-- Whether a terminal is next; if so it is read. -/
def acceptQuietly (x : Terminal) : Parser Bool := do
  if (← peek).is x then
    advance
    return true
  else return false

/-- Whether a terminal is next; if so it is read, and if not it counts as tried. -/
def accept (x : Terminal) : Parser Bool := do
  if ← acceptQuietly x then return true
  else
    record (.terminal x)
    return false

/-- Reads a terminal. -/
def expect (x : Terminal) : Parser Unit := do
  if ← accept x then return
  else unexpected

/-- What a reader finds after a terminal, if the terminal is next. -/
def after (x : Terminal) (p : Parser α) : Parser (Option α) := do
  if ← accept x then some <$> p
  else return none

/-- What a reader finds after a terminal, if the terminal is next; a miss is not counted. -/
def afterQuietly (x : Terminal) (p : Parser α) : Parser (Option α) := do
  if ← acceptQuietly x then some <$> p
  else return none

/-! ## Repetition -/

/-- What a step finds in at most `rounds` rounds. -/
def repeatUpTo (p : Parser (Option α)) : (rounds : Nat) → Parser (List α)
  | 0 => return []
  | rounds + 1 => do
    match ← p with
    | none => return []
    | some a => return a :: (← repeatUpTo p rounds)

/-- What a step finds until it finds nothing. -/
def many (p : Parser (Option α)) : Parser (List α) := fun s =>
  repeatUpTo p (s.rest.length + 1) s

/-- One or more items with commas between. -/
def commaList (p : Parser α) : Parser (List α) := do
  let first ← p
  let others ← many (after (.symbol .comma) p)
  return first :: others

end Parser

end LedgerQuery
