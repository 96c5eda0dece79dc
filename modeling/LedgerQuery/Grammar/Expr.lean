import LedgerQuery.Grammar.Value
import LedgerQuery.Query.Basic

/-!
# The grammar of expressions

One reader for each strength of binding, loosest first.  Each reads operands
with the next tighter reader and then its own operators.

* disjunction: conjunctions with `OR` between.
* conjunction: inversions with `AND` between.
* inversion: any number of `NOT` before a comparison.
* comparison: a sum, or two sums with one comparison.  A second comparison is
  an error.
* sum and term: additive and multiplicative operators, grouped to the left.
* factor: a sign, an expression in parentheses, or a primary.
* primary: an atom with attributes and subscripts after it.
* atom: a name, a call, a parameter, a literal, a list of literals, or a
  subselect.

A left parenthesis followed by a literal and a comma starts a list of literals.
Elsewhere it groups.

Readers that go one nesting level deeper are not called by name.  They come in
a record `Nested`, so that the nesting limit is what the recursion runs over
(`nested` in the grammar of `SELECT`).
-/

namespace LedgerQuery

/-- The readers one nesting level deeper. -/
structure Nested where
  /-- An expression. -/
  expr : Parser Expr
  /-- The operand of `NOT`. -/
  inversion : Parser Expr
  /-- The operand of a sign. -/
  factor : Parser Expr
  /-- A `SELECT` query. -/
  select : Parser Select

namespace Parser

/-! ## Atoms -/

/-- An item of a list of literals, which may be left out. -/
def listItem : Parser (Option Literal) := do
  match ← literal? with
  | some value => return some value
  | none =>
    record .literal
    return none

/-- A list of literals; items after the first may be left out. -/
def literalList : Parser Expr := do
  expect (.symbol .leftParen)
  match ← literal? with
  | some first =>
    let others ← many (after (.symbol .comma) listItem)
    expect (.symbol .rightParen)
    return .constant (.list (first :: others.reduceOption))
  | none => missing .literal

/-- The arguments of a call, with their parentheses. -/
def arguments (inner : Nested) : Parser (List Expr) := do
  expect (.symbol .leftParen)
  if ← accept (.symbol .star) then
    expect (.symbol .rightParen)
    return [.wildcard]
  else if ← accept (.symbol .rightParen) then return []
  else
    let args ← commaList inner.expr
    expect (.symbol .rightParen)
    return args

/-- A name alone, or a call of a function. -/
def nameOrCall (inner : Nested) : Parser Expr := do
  let isCall := (← peekNth 1).is (.symbol .leftParen)
  let name ← name
  if isCall then return .function name (← arguments inner)
  else return .column name

/-- An atom. -/
def atom (inner : Nested) : Parser Expr := do
  let token ← peek
  if token.is (.keyword .select) then return .subselect (← inner.select)
  else if token.isName then nameOrCall inner
  else
    match token with
    | .placeholder p => take (.ok (.placeholder p))
    | .symbol .leftParen => literalList
    | _ =>
      match ← literal? with
      | some value => return .literal value
      | none => missing .expression

/-! ## Attributes and subscripts -/

/-- Something that follows a primary. -/
inductive Suffix where
  /-- An attribute. -/
  | attribute (name : String)
  /-- A subscript. -/
  | subscript (key : String)
deriving DecidableEq, Repr, Inhabited

/-- An expression with a suffix. -/
def Suffix.apply (operand : Expr) : Suffix → Expr
  | .attribute name => .attribute operand name
  | .subscript key => .subscript operand key

/-- A suffix, if one is next. -/
def suffix? : Parser (Option Suffix) := do
  if ← acceptQuietly (.symbol .dot) then return some (.attribute (← name))
  else if ← acceptQuietly (.symbol .leftBracket) then
    let key ← stringValue
    expect (.symbol .rightBracket)
    return some (.subscript key)
  else return none

/-- An atom and its suffixes. -/
def primary (inner : Nested) : Parser Expr := do
  let operand ← atom inner
  return (← many suffix?).foldl Suffix.apply operand

/-! ## Arithmetic -/

/-- Whether a list of literals is next. -/
def atList : Parser Bool := do
  return (← peek).is (.symbol .leftParen) && (← peekNth 1).isLiteral &&
    (← peekNth 2).is (.symbol .comma)

/-- A factor. -/
def factor (inner : Nested) : Parser Expr := do
  match ← peek with
  | .symbol .leftParen =>
    if ← atList then primary inner
    else
      advance
      let e ← inner.expr
      expect (.symbol .rightParen)
      return e
  | .symbol .minus =>
    advance
    return .unary .neg (← inner.factor)
  | .symbol .plus =>
    advance
    inner.factor
  | _ => primary inner

/-- An operator of a family and its right operand, if such an operator is next. -/
def operation? (family : Symbol → Option BinaryOp) (operand : Parser Expr) :
    Parser (Option (BinaryOp × Expr)) := do
  match ← peek with
  | .symbol s =>
    match family s with
    | some op =>
      advance
      return some (op, ← operand)
    | none => return none
  | _ => return none

/-- Operands with operators of a family between, grouped to the left. -/
def leftGrouped (family : Symbol → Option BinaryOp) (operand : Parser Expr) : Parser Expr := do
  let first ← operand
  let others ← many (operation? family operand)
  return others.foldl (fun left (op, right) => .binary left op right) first

/-- A term. -/
def term (inner : Nested) : Parser Expr := leftGrouped BinaryOp.ofMultiplicative? (factor inner)

/-- A sum. -/
def sum (inner : Nested) : Parser Expr := leftGrouped BinaryOp.ofAdditive? (term inner)

/-! ## Comparisons -/

/-- Whether a comparison is next. -/
def atComparison : Parser Bool := do
  match ← peek with
  | .symbol s => return (BinaryOp.ofComparison? s).isSome
  | .keyword .in _ | .keyword .is _ | .keyword .between _ => return true
  | .keyword .not _ => return (← peekNth 1).is (.keyword .in)
  | _ => return false

/-- What follows the left operand of a comparison. -/
inductive Comparison where
  /-- A comparison with a right operand. -/
  | binary (op : BinaryOp)
  /-- A test for null. -/
  | null (op : UnaryOp)
  /-- A test for a range. -/
  | between
deriving DecidableEq, Repr, Inhabited

/-- A test for null, after its first keyword. -/
def nullTest : Parser Comparison := do
  let negated ← accept (.keyword .not)
  expect (.keyword .null)
  return .null (if negated then .isNotNull else .isNull)

/-- The operator of a comparison, if one is next. -/
def comparison? : Parser (Option Comparison) := do
  match ← peek with
  | .symbol s =>
    match BinaryOp.ofComparison? s with
    | some op =>
      advance
      return some (.binary op)
    | none => return none
  | .keyword .in _ =>
    advance
    return some (.binary .isIn)
  | .keyword .not _ =>
    if (← peekNth 1).is (.keyword .in) then
      advance
      advance
      return some (.binary .notIn)
    else return none
  | .keyword .is _ =>
    advance
    return some (← nullTest)
  | .keyword .between _ =>
    advance
    return some .between
  | _ => return none

/-- The rest of a comparison after its operator. -/
def compared (inner : Nested) (left : Expr) : Comparison → Parser Expr
  | .binary op => do return .binary left op (← sum inner)
  | .null op => return .unary op left
  | .between => do
    let lower ← sum inner
    expect (.keyword .and)
    let upper ← sum inner
    return .between left lower upper

/-- A comparison. -/
def comparison (inner : Nested) : Parser Expr := do
  let left ← sum inner
  match ← comparison? with
  | none => return left
  | some c =>
    let e ← compared inner left c
    if ← atComparison then fail .chainedComparison
    else return e

/-! ## Truth values -/

/-- An inversion. -/
def inversion (inner : Nested) : Parser Expr := do
  if ← acceptQuietly (.keyword .not) then return .unary .not (← inner.inversion)
  else comparison inner

/-- Operands with a connective between; one operand stands alone. -/
def connected (op : BoolOp) (operand : Parser Expr) : Parser Expr := do
  let first ← operand
  match ← many (afterQuietly (.keyword op.key) operand) with
  | [] => return first
  | others => return .bool op (first :: others)

/-- A conjunction. -/
def conjunction (inner : Nested) : Parser Expr := connected .and (inversion inner)

/-- A disjunction. -/
def disjunction (inner : Nested) : Parser Expr := connected .or (conjunction inner)

end Parser

end LedgerQuery
