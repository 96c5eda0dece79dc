import LedgerQuery.Error.Basic

/-!
# From text to tokens

A text is read from its front.  `front` looks at the first character and what
follows, and says what stands there and how many more characters belong to it:
a token, something without meaning, or a fault.  It always takes the longest
piece.  `scanFrom` reads piece after piece.  It walks the text one character at
a time, so its recursion is that of the text, and it counts down the characters
of the current piece in `skip`.

Only one thing is carried from piece to piece: whether the last token ends an
operand.  After such a token a percent sign is the operator, and elsewhere it
may begin a placeholder.

Blanks, block comments and line comments have no meaning.  A block comment runs
to the first end mark after its opening.  A line comment runs up to a line
feed.  Words, digits and blanks are those of ASCII.
-/

namespace LedgerQuery

/-! ## Classes of characters -/

/-- Whether a character only separates tokens. -/
def isBlank (c : Char) : Bool :=
  c = ' ' || c = '\t' || c = '\r' || c = '\n' || c = '\x0c'

/-- Whether a character can begin a word. -/
def isWordStart (c : Char) : Bool := c.isAlpha || c = '_'

/-- Whether a character can stand in a word after its first. -/
def isWordChar (c : Char) : Bool := c.isAlphanum || c = '_'

/-- The word at the front of a text; empty if there is none. -/
def leadingWord : List Char → List Char
  | [] => []
  | c :: cs => if isWordStart c then c :: cs.takeWhile isWordChar else []

/-! ## The piece at the front of a text -/

/-- What a piece of text is. -/
inductive Content where
  /-- A token. -/
  | token (value : Token)
  /-- Blanks or a comment. -/
  | trivia
  /-- Something no query can hold. -/
  | fault (value : Fault)
deriving DecidableEq, Repr, Inhabited

/-- A piece at the front of a text, with the number of characters after its first. -/
abbrev Front := Content × Nat

/-- Whether a text goes on like a date after the year. -/
def isDateTail : List Char → Bool
  | '-' :: m₁ :: m₂ :: '-' :: d₁ :: d₂ :: _ => [m₁, m₂, d₁, d₂].all Char.isDigit
  | _ => false

/-- The number or date that starts with a digit. -/
def frontNumber (c : Char) (cs : List Char) : Front :=
  let digits := cs.takeWhile Char.isDigit
  let rest := cs.dropWhile Char.isDigit
  if digits.length = 3 ∧ isDateTail rest then
    (.token (.date (String.ofList (c :: digits ++ rest.take 6))), 9)
  else
    match rest with
    | '.' :: more =>
      let fraction := more.takeWhile Char.isDigit
      (.token (.decimal (String.ofList (c :: digits ++ '.' :: fraction))),
        digits.length + 1 + fraction.length)
    | _ => (.token (.integer (String.ofList (c :: digits))), digits.length)

/-- The string after an opening quote, up to the same quote. -/
def frontString (quote : QuoteStyle) (cs : List Char) : Front :=
  let value := cs.takeWhile (· ≠ quote.char)
  if value.length < cs.length then
    (.token (.string ⟨String.ofList value, quote⟩), value.length + 1)
  else (.fault .unterminatedString, cs.length)

/-- The number of characters up to the end of a block comment, its end mark included. -/
def commentLength? : List Char → Option Nat
  | '*' :: '/' :: _ => some 2
  | _ :: cs => (commentLength? cs).map (· + 1)
  | [] => none

/-- The block comment after its slash; `body` is the text after its star. -/
def frontComment (body : List Char) : Front :=
  match commentLength? body with
  | some n => (.trivia, n + 1)
  | none => (.fault .unterminatedComment, body.length + 1)

/-- The placeholder after a percent sign, with its number of characters after the sign. -/
def placeholder? : List Char → Option (Placeholder × Nat)
  | 's' :: cs => if cs.head?.any isWordChar then none else some (.positional, 1)
  | '(' :: cs =>
    let name := leadingWord cs
    if name ≠ [] ∧ [')', 's'].isPrefixOf (cs.drop name.length) then
      some (.named (String.ofList name), name.length + 3)
    else none
  | _ => none

/-- The symbols, longer ones first. -/
def Symbol.longestFirst : List Symbol :=
  all.filter (fun s => s.spelling.length = 2) ++ all.filter (fun s => s.spelling.length = 1)

/-- The longest symbol that begins a text. -/
def Symbol.leading? (cs : List Char) : Option Symbol :=
  longestFirst.find? fun s => s.spelling.toList.isPrefixOf cs

/-- The symbol at the front of a text; a character that begins none is a fault. -/
def frontSymbol (c : Char) (cs : List Char) : Front :=
  match Symbol.leading? (c :: cs) with
  | some s => (.token (.symbol s), s.spelling.length - 1)
  | none => (.fault (.unexpectedChar c), 0)

/-- The piece at the front of a text, after a token that ends an operand or not. -/
def front (operand : Bool) (c : Char) (cs : List Char) : Front :=
  if isBlank c then (.trivia, 0)
  else if isWordStart c then
    let more := cs.takeWhile isWordChar
    (.token (.ofWord (String.ofList (c :: more))), more.length)
  else if c.isDigit then frontNumber c cs
  else
    match c, cs with
    | '\'', cs => frontString .single cs
    | '"', cs => frontString .double cs
    | '#', cs =>
      let name := leadingWord cs
      (.token (.table (String.ofList name)), name.length)
    | ';', cs => (.trivia, (cs.takeWhile (· ≠ '\n')).length)
    | '/', '*' :: body => frontComment body
    | '.', d :: cs =>
      if d.isDigit then
        let fraction := (d :: cs).takeWhile Char.isDigit
        (.token (.decimal (String.ofList ('.' :: fraction))), fraction.length)
      else frontSymbol '.' (d :: cs)
    | '%', cs =>
      match if operand then none else placeholder? cs with
      | some (p, n) => (.token (.placeholder p), n)
      | none => frontSymbol '%' cs
    | c, cs => frontSymbol c cs

/-! ## The tokens of a text -/

/-- The lexemes of a text that begins at a byte offset.  The first `skip`
characters belong to the piece before. -/
def scanFrom (operand : Bool) (offset : Nat) : Nat → List Char → Except (Fault × Span) (List Lexeme)
  | _, [] => .ok []
  | skip + 1, c :: cs => scanFrom operand (offset + c.utf8Size) skip cs
  | 0, c :: cs =>
    let (content, more) := front operand c cs
    let span : Span := ⟨offset, offset + byteLength (c :: cs.take more)⟩
    match content with
    | .fault f => .error (f, span)
    | .trivia => scanFrom operand (offset + c.utf8Size) more cs
    | .token t => do
      let rest ← scanFrom t.endsOperand (offset + c.utf8Size) more cs
      return ⟨t, span⟩ :: rest
termination_by structural _ cs => cs

/-- The lexemes of a query. -/
def scan (source : String) : Except ParseError (List Lexeme) :=
  match scanFrom false 0 0 source.toList with
  | .ok lexemes => .ok lexemes
  | .error (fault, span) => .error (.locate source fault span)

/-- The place after the last byte of a query, which the end of input stands at. -/
def endOfText (source : String) : Span :=
  ⟨byteLength source.toList, byteLength source.toList⟩

/-- The lexemes of a query and the end of input. -/
def tokenize (source : String) : Except ParseError (List Lexeme) := do
  let lexemes ← scan source
  return lexemes ++ [⟨.eof, endOfText source⟩]

end LedgerQuery
