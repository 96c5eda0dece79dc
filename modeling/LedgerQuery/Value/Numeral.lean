/-!
# Numerals

A run of decimal digits stands for a natural number, whatever its length and
however many zeros it starts with.  A number is written with its shortest run
of digits, or with zeros in front up to a given width.

`digitsValue_padded` says that a padded numeral reads back as its number.
-/

namespace LedgerQuery

/-- The number that a run of decimal digits stands for. -/
def digitsValue (digits : List Char) : Nat := Nat.ofDigitChars 10 digits 0

/-- The shortest numeral of a number. -/
def numeral (n : Nat) : List Char := Nat.toDigits 10 n

/-- The numeral of a number with zeros in front up to a width. -/
def padded (width n : Nat) : List Char := (numeral n).leftpad width '0'

@[simp] theorem digitsValue_numeral (n : Nat) : digitsValue (numeral n) = n :=
  Nat.ofDigitChars_toDigits (by decide) (by decide)

@[simp] theorem digitsValue_zero_cons (digits : List Char) :
    digitsValue ('0' :: digits) = digitsValue digits := by
  simp [digitsValue, Nat.ofDigitChars_cons]

@[simp] theorem digitsValue_padded (width n : Nat) : digitsValue (padded width n) = n := by
  have h : ∀ (k : Nat) (digits : List Char),
      digitsValue (List.replicate k '0' ++ digits) = digitsValue digits := by
    intro k digits
    induction k with
    | zero => rfl
    | succ k ih => simp [List.replicate_succ, ih]
  simp [padded, List.leftpad, h]

/-- The number at the front of a text, of at least one digit and at most some, and
what follows it. -/
def leadingNumber? (most : Nat) (cs : List Char) : Option (Nat × List Char) :=
  let digits := (cs.take most).takeWhile Char.isDigit
  if digits = [] then none else some (digitsValue digits, cs.drop digits.length)

end LedgerQuery
