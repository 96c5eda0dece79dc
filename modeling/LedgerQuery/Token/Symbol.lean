/-!
# Symbols

Operators and punctuation.  The order of the constructors is the order in which
error messages list them.
-/

namespace LedgerQuery

/-- An operator or a punctuation mark. -/
inductive Symbol where
  | leftParen
  | rightParen
  | leftBracket
  | rightBracket
  | comma
  | dot
  | star
  | slash
  | percent
  | plus
  | minus
  | equal
  | notEqual
  | less
  | lessEqual
  | greater
  | greaterEqual
  | tilde
  | notTilde
deriving DecidableEq, Repr, Inhabited

namespace Symbol

/-- Every symbol, in order. -/
def all : List Symbol :=
  [.leftParen, .rightParen, .leftBracket, .rightBracket, .comma, .dot, .star, .slash, .percent,
   .plus, .minus, .equal, .notEqual, .less, .lessEqual, .greater, .greaterEqual, .tilde,
   .notTilde]

/-- The written form. -/
def spelling : Symbol → String
  | .leftParen => "("
  | .rightParen => ")"
  | .leftBracket => "["
  | .rightBracket => "]"
  | .comma => ","
  | .dot => "."
  | .star => "*"
  | .slash => "/"
  | .percent => "%"
  | .plus => "+"
  | .minus => "-"
  | .equal => "="
  | .notEqual => "!="
  | .less => "<"
  | .lessEqual => "<="
  | .greater => ">"
  | .greaterEqual => ">="
  | .tilde => "~"
  | .notTilde => "!~"

/-- The symbol of a text. -/
def lookup? (text : String) : Option Symbol := all.find? fun s => s.spelling = text

theorem mem_all (s : Symbol) : s ∈ all := by
  cases s <;> decide

end Symbol

end LedgerQuery
