import LedgerQuery.Value.Numeral

/-!
# Decimals

A decimal is an integer coefficient divided by a power of ten.  The exponent,
called the scale, is kept for output, so `1.5` and `1.50` are two decimals of
one value.  The coefficient fits ninety-six bits beside its sign, and the scale
is at most twenty-eight.  There is no negative zero.

`reduced` drops the zeros at the end of the fraction and keeps the value
(`reduce_value`), so decimals of one value have one reduced form.
-/

namespace LedgerQuery

/-- The first number with more than ninety-six bits. -/
def Decimal.coefficientBound : Nat := 79228162514264337593543950336

/-- The largest number of places. -/
def Decimal.maxScale : Nat := 28

/-- A decimal number that remembers how many places it is written with. -/
structure Decimal where
  /-- The digits as one integer. -/
  coefficient : Int
  /-- The number of digits after the point. -/
  scale : Nat
  /-- The digits fit ninety-six bits. -/
  coefficient_lt : coefficient.natAbs < Decimal.coefficientBound
  /-- There are at most twenty-eight places. -/
  scale_le : scale ≤ Decimal.maxScale
deriving DecidableEq, Repr

namespace Decimal

instance : Inhabited Decimal := ⟨⟨0, 0, by decide, by decide⟩⟩

/-- The decimal with the given digits before and after the point, if it is in range. -/
def ofDigits? (whole fraction : List Char) : Option Decimal :=
  if h : digitsValue (whole ++ fraction) < coefficientBound ∧ fraction.length ≤ maxScale then
    some ⟨digitsValue (whole ++ fraction), fraction.length, by simpa using h.1, h.2⟩
  else none

/-! ## Writing -/

/-- The digits, at least one before the point. -/
def digits (d : Decimal) : List Char := padded (d.scale + 1) d.coefficient.natAbs

/-- The digits before the point. -/
def whole (d : Decimal) : List Char := d.digits.take (d.digits.length - d.scale)

/-- The digits after the point. -/
def fraction (d : Decimal) : List Char := d.digits.drop (d.digits.length - d.scale)

/-- The written form without the sign; the point stands only before a digit. -/
def magnitude (d : Decimal) : List Char :=
  if d.scale = 0 then d.whole else d.whole ++ '.' :: d.fraction

/-- The written form: a minus sign if the value is negative, and the magnitude. -/
def text (d : Decimal) : String :=
  String.ofList (if d.coefficient < 0 then '-' :: d.magnitude else d.magnitude)

/-! ## Reading

A text is read generously.  A sign may stand in front, the point may be first or
last, and underscores may stand anywhere after the first digit.  Digits after
the point that find no room are dropped, and the first of them decides whether
the last digit kept is rounded up.  Nothing after it is looked at.  Digits
before the point that find no room make the text unreadable.

A text that is no plain decimal may still be a plain decimal with an exponent.
An exponent up to the scale moves the point.  A larger one gives an integer. -/

/-- The digit that a dropped character counts as, after the point. -/
def droppedDigit? (c : Char) : Option Nat :=
  if c.isDigit then some (digitsValue [c])
  else if c = '_' ∨ c = '.' then some 0
  else none

/-- A coefficient and a scale, rounded by the first character that is dropped. -/
def roundBy? (coefficient scale : Nat) (c : Char) : Option (Nat × Nat) := do
  let digit ← droppedDigit? c
  if digit < 5 then return (coefficient, scale)
  else if coefficient + 1 < coefficientBound then return (coefficient + 1, scale)
  else if scale = 0 then none
  else return ((coefficient + 5) / 10, scale - 1)

/-- The coefficient and scale of the rest of a plain decimal; `point` and `started` say
whether a point and a digit have been read. -/
def readPlain? (point started : Bool) (coefficient scale : Nat) : List Char → Option (Nat × Nat)
  | [] => if started then some (coefficient, scale) else none
  | c :: cs =>
    if maxScale ≤ scale then roundBy? coefficient scale c
    else if c.isDigit then
      let more := coefficient * 10 + digitsValue [c]
      if more < coefficientBound then readPlain? point true more (if point then scale + 1 else 0) cs
      else if point then roundBy? coefficient scale c
      else none
    else if c = '.' ∧ !point then readPlain? true started coefficient scale cs
    else if c = '_' ∧ started then readPlain? point started coefficient scale cs
    else none

/-- The decimal of a coefficient and a scale, if it is in range. -/
def of? (coefficient : Int) (scale : Nat) : Option Decimal :=
  if h : coefficient.natAbs < coefficientBound ∧ scale ≤ maxScale then
    some ⟨coefficient, scale, h.1, h.2⟩
  else none

/-- The decimal of a text without an exponent. -/
def ofPlain? : List Char → Option Decimal
  | '-' :: cs => do
    let (n, scale) ← readPlain? false false 0 0 cs
    of? (-(n : Int)) scale
  | '+' :: cs => do
    let (n, scale) ← readPlain? false false 0 0 cs
    of? n scale
  | cs => do
    let (n, scale) ← readPlain? false false 0 0 cs
    of? n scale

/-- The size of an exponent: digits that fit thirty-two bits, perhaps after a plus sign. -/
def exponentSize? (cs : List Char) : Option Nat :=
  let digits := if cs.head? = some '+' then cs.drop 1 else cs
  if digits ≠ [] ∧ digits.all Char.isDigit ∧ digitsValue digits < UInt32.size then
    some (digitsValue digits)
  else none

/-- The exponent of a text. -/
def exponent? : List Char → Option Int
  | '-' :: cs => (exponentSize? cs).map fun n => -(n : Int)
  | cs => (exponentSize? cs).map fun n => (n : Int)

/-- A number times ten, a number of times over. -/
def timesTen (n : Int) : (times : Nat) → Int
  | 0 => n
  | times + 1 => timesTen (n * 10) times

/-- A decimal times a power of ten. -/
def shift? (d : Decimal) (exponent : Int) : Option Decimal :=
  if exponent ≤ d.scale then of? d.coefficient (d.scale - exponent).toNat
  else if exponent ≤ maxScale then of? (timesTen d.coefficient (exponent - d.scale).toNat) 0
  else none

/-- Whether a character separates an exponent. -/
def isExponentMark (c : Char) : Bool := c = 'e' || c = 'E'

/-- The decimal of a text with an exponent. -/
def ofScientific? (cs : List Char) : Option Decimal := do
  match cs.dropWhile (!isExponentMark ·) with
  | [] => none
  | _ :: exponent => (← ofPlain? (cs.takeWhile (!isExponentMark ·))).shift? (← exponent? exponent)

/-- The decimal of a text. -/
def ofText? (text : String) : Option Decimal :=
  ofPlain? text.toList <|> ofScientific? text.toList

/-! ## Fewest places -/

/-- The coefficient and scale without the zeros at the end of the fraction. -/
def reduce (coefficient : Int) : Nat → Int × Nat
  | 0 => (coefficient, 0)
  | scale + 1 =>
    if coefficient % 10 = 0 then reduce (coefficient / 10) scale else (coefficient, scale + 1)

theorem natAbs_reduce_le (c : Int) (s : Nat) : (reduce c s).1.natAbs ≤ c.natAbs := by
  induction s generalizing c with
  | zero => simp [reduce]
  | succ s ih =>
    rw [reduce]
    split
    · exact Nat.le_trans (ih _) (by omega)
    · exact Nat.le_refl _

theorem reduce_scale_le (c : Int) (s : Nat) : (reduce c s).2 ≤ s := by
  induction s generalizing c with
  | zero => simp [reduce]
  | succ s ih =>
    rw [reduce]
    split
    · exact Nat.le_trans (ih _) (Nat.le_succ s)
    · exact Nat.le_refl _

theorem timesTen_mul (n : Int) (k : Nat) : timesTen (n * 10) k = timesTen n k * 10 := by
  induction k generalizing n with
  | zero => rfl
  | succ k ih => exact ih (n * 10)

/-- Reducing keeps the value. -/
theorem reduce_value (c : Int) (s : Nat) :
    timesTen (reduce c s).1 s = timesTen c (reduce c s).2 := by
  induction s generalizing c with
  | zero => rfl
  | succ s ih =>
    rw [reduce]
    split
    · next h =>
      have hc : c / 10 * 10 = c := by omega
      calc timesTen (reduce (c / 10) s).1 (s + 1)
          = timesTen (reduce (c / 10) s).1 s * 10 := timesTen_mul _ _
        _ = timesTen (c / 10) (reduce (c / 10) s).2 * 10 := by rw [ih]
        _ = timesTen (c / 10 * 10) (reduce (c / 10) s).2 := (timesTen_mul _ _).symm
        _ = timesTen c (reduce (c / 10) s).2 := by rw [hc]
    · rfl

/-- The decimal of the same value with the fewest places. -/
def reduced (d : Decimal) : Decimal :=
  ⟨(reduce d.coefficient d.scale).1, (reduce d.coefficient d.scale).2,
    Nat.lt_of_le_of_lt (natAbs_reduce_le _ _) d.coefficient_lt,
    Nat.le_trans (reduce_scale_le _ _) d.scale_le⟩

end Decimal

end LedgerQuery
