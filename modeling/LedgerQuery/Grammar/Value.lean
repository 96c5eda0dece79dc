import LedgerQuery.Grammar.Basic

/-!
# Reading values

Tokens that stand for values are turned into them here.  A number is taken
exactly or refused: a literal integer has to fit sixty-four bits with a sign, and
a number of a target or a limit sixty-four bits without.  A date has to be on the calendar.
The fault is found while the token is still next.
-/

namespace LedgerQuery

/-! ## Values of tokens -/

/-- The integer of a run of digits. -/
def integerOf (digits : String) : Except Fault Int64 :=
  let n := digitsValue digits.toList
  if n ≤ Int64.maxValue.toInt then .ok (Int64.ofNat n) else .error (.invalidNumber digits)

/-- The number of a target, or of rows, of a run of digits. -/
def countOf (digits : String) : Except Fault UInt64 :=
  let n := digitsValue digits.toList
  if n < UInt64.size then .ok (UInt64.ofNat n) else .error (.invalidNumber digits)

/-- The decimal of digits with a point, which may come first or last. -/
def decimalOf (written : String) : Except Fault Decimal :=
  let whole := written.toList.takeWhile Char.isDigit
  let fraction := (written.toList.dropWhile Char.isDigit).drop 1
  match Decimal.ofDigits? whole fraction with
  | some d => .ok d
  | none => .error (.invalidNumber written)

/-- The date of its written form. -/
def dateOf (written : String) : Except Fault Date :=
  match Date.ofText? written with
  | some d => .ok d
  | none => .error (.invalidDate written)

/-- The literal a token stands for, if it is one. -/
def Token.literal? : Token → Option (Except Fault Literal)
  | .integer digits => some (Literal.integer <$> integerOf digits)
  | .decimal written => some (Literal.decimal <$> decimalOf written)
  | .date written => some (Literal.date <$> dateOf written)
  | .string s => some (.ok (.string s))
  | .keyword .null _ => some (.ok .null)
  | .keyword .true _ => some (.ok (.boolean true))
  | .keyword .false _ => some (.ok (.boolean false))
  | _ => none

namespace Parser

variable {α : Type}

/-- Reads the next token as a value, or stops at it with the fault of the value. -/
def take : Except Fault α → Parser α
  | .ok value => do
    advance
    return value
  | .error fault => fail fault

/-! ## Values in a query -/

/-- A literal, if one is next. -/
def literal? : Parser (Option Literal) := do
  match (← peek).literal? with
  | some value => some <$> take value
  | none => return none

/-- A name. -/
def name : Parser String := do
  match (← peek).name? with
  | some name => take (.ok name)
  | none => missing .identifier

/-- A date. -/
def date : Parser Date := do
  match ← peek with
  | .date written => take (dateOf written)
  | _ => missing .date

/-- The text of a string. -/
def stringValue : Parser String := do
  match ← peek with
  | .string s => take (.ok s.value)
  | _ => missing .string

/-- A number of rows. -/
def count : Parser UInt64 := do
  match ← peek with
  | .integer digits => take (countOf digits)
  | _ => missing .integer

end Parser

end LedgerQuery
