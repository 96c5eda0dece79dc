import LedgerQuery.Error.Basic
import LedgerQuery.Text.Blank
import LedgerQuery.Text.Lines
import LedgerQuery.Text.Width

/-!
# Diagnostics

A diagnostic shows an error beside the text it concerns.  Its first line is the
message.  If the error concerns any text, a frame follows.  The top of the frame
names the text and the place.  Inside stand the lines of the text with their
numbers, and marks that point at the stretch concerned and end in a label.

* A stretch within one line is underlined.  A stem stands under the middle of
  the underline, and the label hangs from it on the next line.
* A stretch over several lines shows the first and the last of them, with a
  bracket on their left that ends in the label below.

A shown line has no blanks at its end.  Its tabs become spaces up to the next
multiple of four characters, and its other blanks become single spaces.  Marks
take as many columns as the characters above them.
-/

namespace LedgerQuery

/-! ## Shown lines -/

/-- A line of the text as it is shown. -/
structure ShownLine where
  /-- The characters, without blanks at the end. -/
  chars : List Char
deriving DecidableEq, Repr, Inhabited

namespace ShownLine

/-- The shown form of a line. -/
def of (line : List Char) : ShownLine := ⟨trimBlankEnd line⟩

/-- The number of columns of a character at a place of its line. -/
def charWidth (place : Nat) (c : Char) : Nat :=
  if c = '\t' then 4 - place % 4
  else if CharSet.blank.contains c then 1
  else columnWidth c

/-- What a character at a place of its line is shown as. -/
def shownChar (place : Nat) (c : Char) : List Char :=
  if CharSet.blank.contains c then List.replicate (charWidth place c) ' ' else [c]

/-- The text of the line. -/
def text (l : ShownLine) : List Char := (l.chars.mapIdx shownChar).flatten

/-- The number of columns of a place, which is one past the end. -/
def width (l : ShownLine) (place : Nat) : Nat :=
  match l.chars[place]? with
  | some c => charWidth place c
  | none => 1

end ShownLine

/-! ## Marks -/

/-- A mark with a line behind it over some columns; nothing over none. -/
def markThenRule (mark : Char) (columns : Nat) : List Char :=
  (mark :: List.replicate (columns - 1) '─').take columns

/-- The marks for the places from the first of a line up to the second after the stretch. -/
def markPlaces (stop : Nat) (mark : Nat → List Char) : List Char :=
  (List.range (stop + 2)).flatMap mark

/-- The line under a stretch with a stem under its middle. -/
def underline (l : ShownLine) (start stop : Nat) : List Char :=
  let stem := (start + stop) / 2
  markPlaces stop fun place =>
    if place = stem then markThenRule '┬' (l.width place)
    else if start ≤ place ∧ place < stop then List.replicate (l.width place) '─'
    else List.replicate (l.width place) ' '

/-- The line that leads from the stem to the label. -/
def leader (l : ShownLine) (start stop : Nat) : List Char :=
  let stem := (start + stop) / 2
  markPlaces stop fun place =>
    if place = stem then markThenRule '╰' (l.width place)
    else if stem < place then List.replicate (l.width place) '─'
    else List.replicate (l.width place) ' '

/-! ## The frame -/

/-- A line of a text: its number from zero, the offset of its first byte, and its characters. -/
structure NumberedLine where
  /-- The number of the line, from zero. -/
  number : Nat
  /-- The offset of the first byte. -/
  start : Nat
  /-- The characters with the terminator. -/
  chars : List Char
deriving DecidableEq, Repr, Inhabited

/-- Lines with their numbers and offsets. -/
def numberLines (number start : Nat) : List (List Char) → List NumberedLine
  | [] => []
  | line :: lines =>
    ⟨number, start, line⟩ :: numberLines (number + 1) (start + byteLength line) lines

/-- The line that holds a byte: the last one that starts at it or before. -/
def lineAt (source : List Char) (offset : Nat) : NumberedLine :=
  ((numberLines 0 0 (terminatedLines source)).filter (·.start ≤ offset)).getLast?.getD ⟨0, 0, []⟩

/-- The number of characters of a line before a byte of the text. -/
def NumberedLine.charsBefore (l : NumberedLine) (offset : Nat) : Nat :=
  match splitAtByte? l.chars (offset - l.start) with
  | some (before, _) => before.length
  | none => l.chars.length

/-- The margins of a frame, wide enough for the largest line number. -/
structure Margin where
  /-- The number of digits of the largest line number. -/
  digits : Nat
deriving DecidableEq, Repr, Inhabited

namespace Margin

/-- The margin without a number. -/
def blank (m : Margin) : List Char := List.replicate (m.digits + 2) ' '

/-- The margin with the number of a line, counted from one, and a bar. -/
def numbered (m : Margin) (number : Nat) : List Char :=
  ' ' :: (numeral (number + 1)).leftpad m.digits ' ' ++ [' ', '│', ' ']

/-- The margin with a bar. -/
def bar (m : Margin) : List Char := m.blank ++ ['│', ' ']

/-- The top of the frame with the name of the text and the place. -/
def top (m : Margin) (name : List Char) (line column : Nat) : List (List Char) :=
  [m.blank ++ ['╭', '─', '[', ' '] ++ name ++ ':' :: numeral line ++ ':' :: numeral column ++
      [' ', ']'],
    m.blank ++ ['│']]

/-- The bottom of the frame. -/
def bottom (m : Margin) : List (List Char) := [List.replicate (m.digits + 2) '─' ++ ['╯']]

end Margin

/-- The inside of the frame for a stretch within one line. -/
def singleLineBody (m : Margin) (line : NumberedLine) (start stop : Nat) (label : List Char) :
    List (List Char) :=
  let shown := ShownLine.of line.chars
  [m.numbered line.number ++ shown.text,
    m.bar ++ underline shown start stop,
    m.bar ++ leader shown start stop ++ ' ' :: label]

/-- The inside of the frame for a stretch over several lines. -/
def severalLinesBody (m : Margin) (first last : NumberedLine) (label : List Char) :
    List (List Char) :=
  let shown := ShownLine.of last.chars
  let columns := (List.range (last.chars.length + 2)).foldl (fun n place => n + shown.width place) 0
  [m.numbered first.number ++ ['╭', '─', '▶', ' '] ++ (ShownLine.of first.chars).text] ++
    (if first.number + 1 < last.number then [m.blank ++ ['┆', ' ', '┆', ' ', ' ', ' ']] else []) ++
    [m.numbered last.number ++ ['├', '─', '▶', ' '] ++ shown.text,
      m.bar ++ ['│', ' ', ' ', ' '] ++ List.replicate columns ' ',
      m.bar ++ ['╰', '─', '─', '─'] ++ List.replicate columns '─' ++ ' ' :: label]

/-- The frame around the stretch of an error. -/
def diagnosticFrame (source name : List Char) (span : Span) (label : List Char) :
    List (List Char) :=
  let first := lineAt source span.start
  let last := lineAt source (span.stop - 1)
  let start := first.charsBefore span.start
  let m : Margin := ⟨(numeral (last.number + 1)).length⟩
  m.top name (first.number + 1) (start + 1) ++
    (if first.number = last.number then
      singleLineBody m first start (last.charsBefore span.stop) label
    else severalLinesBody m first last label) ++
    m.bottom

/-- Whether a span holds text that a frame can show. -/
def Span.isShown (s : Span) (source : List Char) : Bool :=
  !s.isEmpty && s.start ≤ byteLength source && s.stop - 1 ≤ byteLength source

/-- The diagnostic of an error in a source of a name. -/
def ParseError.report (e : ParseError) (source name : String) : String :=
  let head := "Error: ".toList ++ e.fault.message.toList
  let frame :=
    if e.span.isShown source.toList then
      diagnosticFrame source.toList name.toList e.span e.fault.label.toList
    else []
  String.ofList ((head :: frame).flatMap fun line => line ++ ['\n'])

end LedgerQuery
