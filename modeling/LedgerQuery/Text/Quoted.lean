import LedgerQuery.Text.Combining

/-!
# The quoted form of a character

Messages show a character between single quotes.  Five characters have short
escapes, beside the quote itself.  A character that would not be seen by
itself, because it is a control, a separator other than the plain space, a
format character, for private use, a noncharacter, or a mark that combines with
the character before it, is written by its code point in hexadecimal.
Everything else stands for itself, the double quote included.
-/

namespace LedgerQuery

/-- Controls, separators other than the space, format characters, private use and noncharacters. -/
def CharSet.invisible : CharSet := ⟨[
  (0x0, 0x1F), (0x7F, 0xA0), (0xAD, 0xAD), (0x600, 0x605), (0x61C, 0x61C), (0x6DD, 0x6DD),
   (0x70F, 0x70F), (0x890, 0x891), (0x8E2, 0x8E2), (0x1680, 0x1680), (0x180E, 0x180E),
   (0x2000, 0x200F), (0x2028, 0x202F), (0x205F, 0x2064), (0x2066, 0x206F), (0x3000, 0x3000),
   (0xE000, 0xF8FF), (0xFDD0, 0xFDEF), (0xFEFF, 0xFEFF), (0xFFF9, 0xFFFB), (0xFFFE, 0xFFFF),
   (0x110BD, 0x110BD), (0x110CD, 0x110CD), (0x13430, 0x13438), (0x1BCA0, 0x1BCA3),
   (0x1D173, 0x1D17A), (0x1FFFE, 0x1FFFF), (0x2FFFE, 0x2FFFF), (0x3FFFE, 0x3FFFF),
   (0x4FFFE, 0x4FFFF), (0x5FFFE, 0x5FFFF), (0x6FFFE, 0x6FFFF), (0x7FFFE, 0x7FFFF),
   (0x8FFFE, 0x8FFFF), (0x9FFFE, 0x9FFFF), (0xAFFFE, 0xAFFFF), (0xBFFFE, 0xBFFFF),
   (0xCFFFE, 0xCFFFF), (0xDFFFE, 0xDFFFF), (0xE0001, 0xE0001), (0xE0020, 0xE007F),
   (0xEFFFE, 0x10FFFF)]⟩

/-- The form of a character between the quotes. -/
def escapedChar (c : Char) : String :=
  match c with
  | '\x00' => "\\0"
  | '\t' => "\\t"
  | '\r' => "\\r"
  | '\n' => "\\n"
  | '\'' => "\\'"
  | '\\' => "\\\\"
  | c =>
    if CharSet.invisible.contains c || CharSet.combining.contains c then
      "\\u\x7b" ++ String.ofList (Nat.toDigits 16 c.toNat) ++ "\x7d"
    else String.singleton c

/-- A character between single quotes, escaped where it could not be read. -/
def quotedChar (c : Char) : String := "'" ++ escapedChar c ++ "'"

end LedgerQuery
