import LedgerQuery.Text.Blank
import LedgerQuery.Value.Numeral

/-!
# Calendar dates

Dates are those of the Gregorian calendar, extended to all years from -262143
to 262142.  The year zero, which comes before the year one, is a leap year.

A date is written with at least four digits for the year and two each for month
and day.  A year that is negative or has more than four digits has its sign in
front.  Reading is more generous.  Blanks may stand before each number and each
dash and at the end, a month or day may have one digit, a year may have fewer
than four, and any year may have a sign.
-/

namespace LedgerQuery

/-- Whether a year has a twenty-ninth of February. -/
def isLeapYear (year : Int) : Bool := year % 4 = 0 && (year % 100 != 0 || year % 400 = 0)

/-- The number of days of a month. -/
def monthLength (year : Int) (month : Nat) : Nat :=
  match month with
  | 2 => if isLeapYear year then 29 else 28
  | 4 | 6 | 9 | 11 => 30
  | _ => 31

/-- Whether the calendar has a day. -/
def IsCalendarDay (year : Int) (month day : Nat) : Prop :=
  (-262143 ≤ year ∧ year ≤ 262142) ∧ (1 ≤ month ∧ month ≤ 12) ∧
    1 ≤ day ∧ day ≤ monthLength year month

instance (year : Int) (month day : Nat) : Decidable (IsCalendarDay year month day) :=
  inferInstanceAs (Decidable (_ ∧ _))

/-- A day of the calendar. -/
structure Date where
  /-- The year. -/
  year : Int
  /-- The month, from one. -/
  month : Nat
  /-- The day of the month, from one. -/
  day : Nat
  /-- The calendar has this day. -/
  valid : IsCalendarDay year month day
deriving DecidableEq, Repr

namespace Date

instance : Inhabited Date := ⟨⟨0, 1, 1, by decide⟩⟩

/-- The date of a year, month and day, if the calendar has it. -/
def of? (year : Int) (month day : Nat) : Option Date :=
  if h : IsCalendarDay year month day then some ⟨year, month, day, h⟩ else none

/-! ## Writing -/

/-- The written form of a year. -/
def yearChars (year : Int) : List Char :=
  if 0 ≤ year ∧ year ≤ 9999 then padded 4 year.natAbs
  else (if year < 0 then '-' else '+') :: padded 4 year.natAbs

/-- The written form, such as `2014-01-31`. -/
def chars (d : Date) : List Char :=
  yearChars d.year ++ '-' :: padded 2 d.month ++ '-' :: padded 2 d.day

/-- The written form as a text. -/
def text (d : Date) : String := String.ofList d.chars

/-! ## Reading -/

/-- The year at the front of a text: any number of digits after a sign, or at most four. -/
def leadingYear? (cs : List Char) : Option (Int × List Char) :=
  match cs with
  | '-' :: cs => (leadingNumber? cs.length cs).map fun (n, rest) => (-(n : Int), rest)
  | '+' :: cs => (leadingNumber? cs.length cs).map fun (n, rest) => ((n : Int), rest)
  | cs => (leadingNumber? 4 cs).map fun (n, rest) => ((n : Int), rest)

/-- What follows a dash at the front of a text. -/
def afterDash? : List Char → Option (List Char)
  | '-' :: cs => some cs
  | _ => none

/-- The date of a list of characters. -/
def ofChars? (cs : List Char) : Option Date := do
  let (year, cs) ← leadingYear? (dropBlanks cs)
  let cs ← afterDash? (dropBlanks cs)
  let (month, cs) ← leadingNumber? 2 (dropBlanks cs)
  let cs ← afterDash? (dropBlanks cs)
  let (day, cs) ← leadingNumber? 2 (dropBlanks cs)
  if dropBlanks cs = [] then of? year month day else none

/-- The date of a text. -/
def ofText? (text : String) : Option Date := ofChars? text.toList

end Date

end LedgerQuery
