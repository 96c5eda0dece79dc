import LedgerQuery.Grammar.Select

/-!
# Reading with a cursor

The readers of the grammar hold the lexemes that remain, and a failure drops everything but these.  That
leaves little to say about the course of reading.  A `Traced` reader goes over the lexemes of a text by index
and writes down what it does.

* The lexemes stay the same, with the end of input at the index after the last one (`Sheet`).
* A `Cursor` has an index and a nesting depth.  It also has the items tried, with the furthest index at which
  any was tried: items from further back are dropped, and an item tried before this index would not be heard of.
* Every change of the cursor is an event, and so are every call of a routine that returns or fails and every
  round of a loop that is followed by another one.  An event has the cursors before and after it.
* The record survives a failure.

A loop is cut off after a number of rounds, and nesting after a number of levels, so that readers end.  To be
cut off is an event of its own (`Act.exhausted`).
-/

namespace LedgerQuery

/-! ## What is read -/

/-- The lexemes of a text, the span of its end, and the limit on nesting. -/
structure Sheet where
  /-- The lexemes. -/
  lexemes : List Lexeme
  /-- The end of the text. -/
  stop : Span
  /-- The nesting limit. -/
  limit : Nat
  /-- The end of input is not one of the lexemes. -/
  ne_eof : ∀ l ∈ lexemes, l.token ≠ .eof

namespace Sheet

/-- The tokens of the text with the end of input. -/
def tokens (sheet : Sheet) : List Lexeme := sheet.lexemes ++ [⟨.eof, sheet.stop⟩]

/-- The lexeme at an index; after the last one it is the end of input. -/
def lexemeAt (sheet : Sheet) (n : Nat) : Lexeme := sheet.lexemes[n]?.getD ⟨.eof, sheet.stop⟩

/-- The token at an index. -/
def tokenAt (sheet : Sheet) (n : Nat) : Token := (sheet.lexemeAt n).token

/-- The span of the lexeme at an index. -/
def spanAt (sheet : Sheet) (n : Nat) : Span := (sheet.lexemeAt n).span

end Sheet

/-- How far reading has come. -/
structure Cursor where
  /-- The index of the next lexeme. -/
  pos : Nat
  /-- How many levels deep reading is. -/
  depth : Nat
  /-- The furthest index at which an item was tried. -/
  furthest : Nat
  /-- What was tried in vain at this index. -/
  tried : List Expected
deriving DecidableEq, Repr, Inhabited

namespace Cursor

/-- The cursor before anything is read. -/
def start : Cursor := ⟨0, 0, 0, []⟩

/-- The cursor after one lexeme more; at the end of input it stays. -/
def advance (sheet : Sheet) (c : Cursor) : Cursor :=
  if sheet.tokenAt c.pos = .eof then c else { c with pos := c.pos + 1 }

/-- The cursor after an item was tried in vain. -/
def record (e : Expected) (c : Cursor) : Cursor :=
  match compare c.pos c.furthest with
  | .gt => { c with furthest := c.pos, tried := [e] }
  | .eq => { c with tried := e :: c.tried }
  | .lt => c

/-- What was tried in vain at the next lexeme. -/
def triedHere (c : Cursor) : List Expected := if c.furthest = c.pos then c.tried else []

/-- The cursor one level deeper. -/
def enter (c : Cursor) : Cursor := { c with depth := c.depth + 1 }

/-- The cursor one level up. -/
def leave (c : Cursor) : Cursor := { c with depth := c.depth - 1 }

end Cursor

/-! ## What is written down -/

/-- What is read by a routine of its own. -/
inductive Routine where
  -- statements
  | text | statement | select | balances | journal | print | summary | shorthandSource
  -- clauses
  | targets | target | source | entryFilter | openDate | closing | groupBy | orderBy | columnKey
  | pivotBy | pivotKey | count
  -- expressions
  | expr | disjunction | conjunction | inversion | comparison | comparisonOperator | sum | term | factor
  | primary | atom | function | list
  -- values
  | literal | date | name
deriving DecidableEq, Repr, Inhabited

/-- Whether a routine may find nothing and yet not fail. -/
def Routine.isOptional (routine : Routine) : Bool :=
  [summary, shorthandSource, closing, comparisonOperator, literal].contains routine

/-- What goes round. -/
inductive Loop where
  | targets | groupKeys | sortKeys | disjunction | conjunction | sum | term | suffixes | arguments | items
deriving DecidableEq, Repr, Inhabited

/-- How a call ends. -/
inductive Return where
  /-- With something. -/
  | found
  /-- With nothing, where something may be left out. -/
  | nothing
  /-- With a fault. -/
  | failed
deriving DecidableEq, Repr, Inhabited

/-- What an event is about. -/
inductive Act where
  /-- A lexeme is read. -/
  | read
  /-- An item was tried in vain. -/
  | record (item : Expected)
  /-- Reading goes one level deeper. -/
  | enter
  /-- Reading comes back from the level below. -/
  | leave
  /-- A call of a routine ends. -/
  | call (routine : Routine) (result : Return)
  /-- A round of a loop ends and another one follows. -/
  | round (loop : Loop)
  /-- A loop or nesting is cut off. -/
  | exhausted
deriving DecidableEq, Repr, Inhabited

/-- Something that happens while reading. -/
structure Event where
  /-- What happens. -/
  act : Act
  /-- The cursor when it begins. -/
  before : Cursor
  /-- The cursor when it ends. -/
  after : Cursor
deriving DecidableEq, Repr, Inhabited

/-- The cursor, and what happened on the way to it. -/
structure Recording where
  /-- The cursor. -/
  cursor : Cursor
  /-- The events, the last one first. -/
  trace : List Event
deriving DecidableEq, Repr, Inhabited

namespace Recording

/-- The cursor moves on, which is an event. -/
def move (r : Recording) (act : Act) (c : Cursor) : Recording := ⟨c, ⟨act, r.cursor, c⟩ :: r.trace⟩

/-- Something that began at a cursor ends here. -/
def note (r : Recording) (act : Act) (start : Cursor) : Recording :=
  { r with trace := ⟨act, start, r.cursor⟩ :: r.trace }

/-- The events in the order in which they end. -/
def events (r : Recording) : List Event := r.trace.reverse

/-- The indices of the lexemes read, in the order in which they are read. -/
def reads (r : Recording) : List Nat := (r.events.filter (·.act = .read)).map (·.before.pos)

end Recording

/-! ## Readers -/

/-- A fault and the place it is at. -/
structure Halt where
  /-- What is wrong. -/
  fault : Fault
  /-- Where. -/
  span : Span
deriving DecidableEq, Repr, Inhabited

/-- A reader of a sheet. -/
abbrev Traced := ReaderT Sheet (EStateM Halt Recording)

namespace Traced

variable {α : Type}

/-! ### Looking and moving -/

/-- The token at a distance from the next one. -/
def peekNth (n : Nat) : Traced Token := fun sheet r => .ok (sheet.tokenAt (r.cursor.pos + n)) r

/-- The next token. -/
def peek : Traced Token := peekNth 0

/-- The span of the next lexeme. -/
def nextSpan : Traced Span := fun sheet r => .ok (sheet.spanAt r.cursor.pos) r

/-- The span of the last lexeme read; before anything is read, that of the first one. -/
def lastSpan : Traced Span := fun sheet r => .ok (sheet.spanAt (r.cursor.pos - 1)) r

/-- Reads one lexeme, if there is one. -/
def advance : Traced Unit := fun sheet r => .ok () (r.move .read (r.cursor.advance sheet))

/-! ### Failing -/

/-- Remembers that an item would have been accepted here. -/
def record (e : Expected) : Traced Unit := fun _ r => .ok () (r.move (.record e) (r.cursor.record e))

/-- Stops with a fault at a place. -/
def failAt (span : Span) (fault : Fault) : Traced α := fun _ r => .error ⟨fault, span⟩ r

/-- Stops with a fault at the next token. -/
def fail (fault : Fault) : Traced α := do failAt (← nextSpan) fault

/-- The items tried at the next token. -/
def triedHere : Traced (List Expected) := fun _ r => .ok r.cursor.triedHere r

/-- Stops because the next token is none of the items tried. -/
def unexpected : Traced α := do
  fail (.unexpected (Expected.collect (← triedHere)) (← peek).display)

/-- Stops because an item is missing. -/
def missing (e : Expected) : Traced α := do
  record e
  unexpected

/-! ### Terminals -/

/-- Whether a terminal is next; if so it is read. -/
def acceptQuietly (x : Terminal) : Traced Bool := do
  if (← peek).is x then
    advance
    return true
  else return false

/-- Whether a terminal is next; if so it is read, and if not it counts as tried. -/
def accept (x : Terminal) : Traced Bool := do
  if ← acceptQuietly x then return true
  else
    record (.terminal x)
    return false

/-- Reads a terminal. -/
def expect (x : Terminal) : Traced Unit := do
  if ← accept x then return
  else unexpected

/-- What a reader finds after a terminal, if the terminal is next. -/
def after (x : Terminal) (p : Traced α) : Traced (Option α) := do
  if ← accept x then some <$> p
  else return none

/-- What a reader finds after a terminal, if the terminal is next; a miss is not counted. -/
def afterQuietly (x : Terminal) (p : Traced α) : Traced (Option α) := do
  if ← acceptQuietly x then some <$> p
  else return none

/-! ### Calls and levels -/

/-- A reader, with an event at its end if there is one for what it found. -/
def noting (act : Option α → Option Act) (p : Traced α) : Traced α := fun sheet r =>
  match p sheet r with
  | .ok a t => .ok a ((act (some a)).elim t fun act => t.note act r.cursor)
  | .error halt t => .error halt ((act none).elim t fun act => t.note act r.cursor)

/-- A call of a routine. -/
def call (routine : Routine) (p : Traced α) : Traced α :=
  noting (fun o => some (.call routine (if o.isSome then .found else .failed))) p

/-- A call of a routine that may find nothing. -/
def callOption (routine : Routine) (p : Traced (Option α)) : Traced (Option α) :=
  noting (fun o => some (.call routine (match o with
    | some (some _) => .found
    | some none => .nothing
    | none => .failed))) p

/-- A reader one level deeper, unless the limit is reached. -/
def deeper (p : Traced α) : Traced α := fun sheet r =>
  if sheet.limit ≤ r.cursor.depth then fail (.tooDeep sheet.limit) sheet r
  else
    match p sheet (r.move .enter r.cursor.enter) with
    | .ok a t => .ok a (t.move .leave t.cursor.leave)
    | .error halt t => .error halt (t.move .leave t.cursor.leave)

/-- Nesting is cut off. -/
def stuck : Traced α := fun sheet r =>
  fail (.tooDeep sheet.limit) sheet (r.note .exhausted r.cursor)

/-! ### Repetition -/

/-- A loop is cut off. -/
def cutOff : Traced (List α) := fun _ r => .ok [] (r.note .exhausted r.cursor)

/-- A round of a loop, which another one follows if it finds something. -/
def roundIfFound (loop : Loop) (p : Traced (Option α)) : Traced (Option α) :=
  noting (fun o => if o.join.isSome then some (.round loop) else none) p

/-- What a step finds in at most `rounds` rounds. -/
def repeatUpTo (loop : Loop) (p : Traced (Option α)) : (rounds : Nat) → Traced (List α)
  | 0 => cutOff
  | rounds + 1 => do
    match ← roundIfFound loop p with
    | none => return []
    | some a => return a :: (← repeatUpTo loop p rounds)

/-- As many rounds as lexemes remain, and one more. -/
def roundsLeft : Traced Nat := fun sheet r => .ok (sheet.lexemes.length - r.cursor.pos + 1) r

/-- What a step finds until it finds nothing. -/
def many (loop : Loop) (p : Traced (Option α)) : Traced (List α) := do
  repeatUpTo loop p (← roundsLeft)

/-- One or more items with commas between: an item, and then a comma and an item in each round. -/
def commaList (loop : Loop) (p : Traced α) : Traced (List α) := do
  let first ← p
  let others ← many loop (after (.symbol .comma) p)
  return first :: others

/-- An item and whether a comma follows it, which is read as well. -/
def withComma (p : Traced α) : Traced (α × Bool) := do
  let a ← p
  return (a, ← accept (.symbol .comma))

/-- A round of a loop, which another one follows if there is a comma. -/
def roundIfComma (loop : Loop) (p : Traced α) : Traced (α × Bool) :=
  noting (fun o => if o.any Prod.snd then some (.round loop) else none) (withComma p)

/-- One or more items with commas between, in at most `rounds` rounds of an item and a comma. -/
def separatedUpTo (loop : Loop) (p : Traced α) : (rounds : Nat) → Traced (List α)
  | 0 => cutOff
  | rounds + 1 => do
    match ← roundIfComma loop p with
    | (a, false) => return [a]
    | (a, true) => return a :: (← separatedUpTo loop p rounds)

/-- One or more items with commas between: an item and, if it is there, a comma in each round. -/
def separated (loop : Loop) (p : Traced α) : Traced (List α) := do
  separatedUpTo loop p (← roundsLeft)

/-! ### Values -/

/-- Reads the next token as a value, or stops at it with the fault of the value. -/
def take : Except Fault α → Traced α
  | .ok value => do
    advance
    return value
  | .error fault => fail fault

/-- Reads the next token, and only then takes it as a value. -/
def takeAfter (r : Except Fault α) : Traced α := do
  let span ← nextSpan
  advance
  match r with
  | .ok value => return value
  | .error fault => failAt span fault

end Traced

end LedgerQuery
