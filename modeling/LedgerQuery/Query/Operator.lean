import LedgerQuery.Token.Basic

/-!
# Operators

Three families of operators, told apart by the number of operands they take.
An operator has a name, which trees are dumped with, and a written form of one
or more keywords and symbols.
-/

namespace LedgerQuery

/-- The number of operands of an operator. -/
inductive Arity where
  /-- One operand. -/
  | unary
  /-- Two operands. -/
  | binary
  /-- Two or more operands. -/
  | variadic
deriving DecidableEq, Repr, Inhabited

/-- The text of a run of keywords and symbols, with spaces between. -/
def Terminal.spellAll (terminals : List Terminal) : String :=
  " ".intercalate (terminals.map Terminal.spelling)

/-! ## One operand -/

/-- An operator with one operand. -/
inductive UnaryOp where
  /-- Negation of a truth value. -/
  | not
  /-- Negation of a number. -/
  | neg
  /-- Whether a value is absent. -/
  | isNull
  /-- Whether a value is present. -/
  | isNotNull
deriving DecidableEq, Repr, Inhabited

namespace UnaryOp

/-- Every operator of the family. -/
def all : List UnaryOp := [.not, .neg, .isNull, .isNotNull]

/-- The operator as keywords and symbols. -/
def terminals : UnaryOp → List Terminal
  | .not => [.keyword .not]
  | .neg => [.symbol .minus]
  | .isNull => [.keyword .is, .keyword .null]
  | .isNotNull => [.keyword .is, .keyword .not, .keyword .null]

/-- The written form. -/
def symbol (op : UnaryOp) : String := Terminal.spellAll op.terminals

/-- The name in dumps of a tree. -/
def name : UnaryOp → String
  | .not => "not"
  | .neg => "neg"
  | .isNull => "isnull"
  | .isNotNull => "isnotnull"

/-- Whether the operator stands after its operand. -/
def isPostfix (op : UnaryOp) : Bool := [UnaryOp.isNull, .isNotNull].contains op

/-- The number of operands. -/
def arity (_ : UnaryOp) : Arity := .unary

end UnaryOp

/-! ## Two operands -/

/-- An operator with two operands. -/
inductive BinaryOp where
  /-- Less than. -/
  | less
  /-- Less than or equal. -/
  | lessEqual
  /-- Greater than. -/
  | greater
  /-- Greater than or equal. -/
  | greaterEqual
  /-- Equal. -/
  | equal
  /-- Not equal. -/
  | notEqual
  /-- Member of a list or set. -/
  | isIn
  /-- Not a member. -/
  | notIn
  /-- Match with a regular expression. -/
  | like
  /-- No match with a regular expression. -/
  | notLike
  /-- Sum. -/
  | add
  /-- Difference. -/
  | sub
  /-- Product. -/
  | mul
  /-- Quotient. -/
  | div
  /-- Remainder. -/
  | mod
deriving DecidableEq, Repr, Inhabited

namespace BinaryOp

/-- Every operator of the family. -/
def all : List BinaryOp :=
  [.less, .lessEqual, .greater, .greaterEqual, .equal, .notEqual, .isIn, .notIn, .like, .notLike,
   .add, .sub, .mul, .div, .mod]

/-- The operator as keywords and symbols. -/
def terminals : BinaryOp → List Terminal
  | .less => [.symbol .less]
  | .lessEqual => [.symbol .lessEqual]
  | .greater => [.symbol .greater]
  | .greaterEqual => [.symbol .greaterEqual]
  | .equal => [.symbol .equal]
  | .notEqual => [.symbol .notEqual]
  | .isIn => [.keyword .in]
  | .notIn => [.keyword .not, .keyword .in]
  | .like => [.symbol .tilde]
  | .notLike => [.symbol .notTilde]
  | .add => [.symbol .plus]
  | .sub => [.symbol .minus]
  | .mul => [.symbol .star]
  | .div => [.symbol .slash]
  | .mod => [.symbol .percent]

/-- The written form. -/
def symbol (op : BinaryOp) : String := Terminal.spellAll op.terminals

/-- The name in dumps of a tree. -/
def name : BinaryOp → String
  | .less => "less"
  | .lessEqual => "lesseq"
  | .greater => "greater"
  | .greaterEqual => "greatereq"
  | .equal => "equal"
  | .notEqual => "notequal"
  | .isIn => "in"
  | .notIn => "notin"
  | .like => "match"
  | .notLike => "notmatch"
  | .add => "add"
  | .sub => "sub"
  | .mul => "mul"
  | .div => "div"
  | .mod => "mod"

/-- Whether the operator compares; comparisons do not chain. -/
def isComparison (op : BinaryOp) : Bool :=
  !([.add, .sub, .mul, .div, .mod] : List BinaryOp).contains op

/-- The number of operands. -/
def arity (_ : BinaryOp) : Arity := .binary

/-- The comparison a symbol stands for. -/
def ofComparison? : Symbol → Option BinaryOp
  | .less => some .less
  | .lessEqual => some .lessEqual
  | .greater => some .greater
  | .greaterEqual => some .greaterEqual
  | .equal => some .equal
  | .notEqual => some .notEqual
  | .tilde => some .like
  | .notTilde => some .notLike
  | _ => none

/-- The additive operator a symbol stands for. -/
def ofAdditive? : Symbol → Option BinaryOp
  | .plus => some .add
  | .minus => some .sub
  | _ => none

/-- The multiplicative operator a symbol stands for. -/
def ofMultiplicative? : Symbol → Option BinaryOp
  | .star => some .mul
  | .slash => some .div
  | .percent => some .mod
  | _ => none

end BinaryOp

/-! ## Any number of operands -/

/-- A connective of truth values. -/
inductive BoolOp where
  /-- All operands hold. -/
  | and
  /-- Some operand holds. -/
  | or
deriving DecidableEq, Repr, Inhabited

namespace BoolOp

/-- Every operator of the family. -/
def all : List BoolOp := [.and, .or]

/-- The keyword of a connective. -/
def key : BoolOp → Keyword
  | .and => .and
  | .or => .or

/-- The written form. -/
def symbol (op : BoolOp) : String := op.key.spelling

/-- The name in dumps of a tree. -/
def name : BoolOp → String
  | .and => "and"
  | .or => "or"

/-- The number of operands. -/
def arity (_ : BoolOp) : Arity := .variadic

end BoolOp

end LedgerQuery
