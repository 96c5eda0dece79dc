import LedgerQuery.Proofs.Phrase.Basic

/-!
# The grammar

The grammar of queries, as phrases.  In the notation of grammars, with braces
for repetition and brackets for what may be missing:

* statement = select | BALANCES [AT name] [FROM filter] [WHERE expr]
  | JOURNAL [string] [AT name] [FROM filter] | PRINT [FROM filter]
* select = SELECT [DISTINCT] (`*` | target {`,` target}) [FROM source] [WHERE expr]
  [GROUP BY key {`,` key} [HAVING expr]] [ORDER BY key [ASC | DESC] {`,` key [ASC | DESC]}]
  [PIVOT BY pkey `,` pkey] [LIMIT integer]
* target = expr [AS name]; key = integer | expr; pkey = integer | name
* source = table | `(` select `)` | filter
* filter = OPEN ON date [close] [CLEAR] | close [CLEAR] | CLEAR
  | expr [OPEN ON date] [close] [CLEAR]; close = CLOSE [ON date]
* expr = conjunction {OR conjunction}; conjunction = inversion {AND inversion}
* inversion = NOT inversion | comparison
* comparison = sum [compare sum | IS [NOT] NULL | BETWEEN sum AND sum]
* sum = term {(`+` | `-`) term}; term = factor {(`*` | `/` | `%`) factor}
* factor = `(` expr `)` | `-` factor | `+` factor | primary
* primary = atom {`.` name | `[` string `]`}
* atom = name `(` (`*` | [expr {`,` expr}]) `)` | name | placeholder | literal | list
* list = `(` literal `,` [literal] {`,` [literal]} `)`

Three alternatives would overlap and are told apart by how they begin or by
their length.  A filter that begins with `OPEN`, `CLOSE` or `CLEAR` is one of
the first three forms.  A source that begins with `(` and `SELECT` is a query.
A key that is a single integer is an index.  A number or date is a literal only
if it is in range.

A scalar subselect is an expression that is a whole `SELECT`.  Where one may
stand is the mode of the grammar, `Subselects`.  When one may stand anywhere, the
grammar is ambiguous, since a subselect may take or leave what follows it.  Then
it is only a bound on what can be read, and a key may be any expression.

Phrases that go one nesting level deeper come in a record `Phrases`, and
`phrases` builds them up level by level.
-/

namespace LedgerQuery

/-- Where a `SELECT` may stand as an expression. -/
inductive Subselects where
  /-- Nowhere. -/
  | nowhere
  /-- In parentheses. -/
  | parenthesised
  /-- Wherever an atom may. -/
  | anywhere
deriving DecidableEq, Repr

/-- The phrases one nesting level deeper. -/
structure Phrases where
  /-- An expression. -/
  expr : Phrase Expr
  /-- The operand of `NOT`. -/
  inversion : Phrase Expr
  /-- The operand of a sign. -/
  factor : Phrase Expr
  /-- A `SELECT` query. -/
  select : Phrase Select
  /-- A `SELECT` query that may stand as an atom. -/
  bare : Phrase Select
  /-- A `SELECT` query that may stand as an expression in parentheses. -/
  grouped : Phrase Select
  /-- An expression that may stand as a key. -/
  key : Phrase Expr

namespace Phrase

/-! ## Tokens with a value -/

/-- A name. -/
def name : Phrase String := token Token.name?

/-- A literal in range. -/
def literal : Phrase Literal := token fun t => t.literal?.bind Except.toOption

/-- A date on the calendar. -/
def date : Phrase Date := token fun
  | .date written => (dateOf written).toOption
  | _ => .none

/-- The number of a target or of rows. -/
def count : Phrase UInt64 := token fun
  | .integer digits => (countOf digits).toOption
  | _ => .none

/-- The text of a string. -/
def stringValue : Phrase String := token fun
  | .string s => some s.value
  | _ => .none

/-- A parameter. -/
def placeholder : Phrase Placeholder := token fun
  | .placeholder p => some p
  | _ => .none

/-- A table. -/
def table : Phrase String := token fun
  | .table name => some name
  | _ => .none

/-- An operator of a family of symbols. -/
def operator (family : Symbol → Option BinaryOp) : Phrase BinaryOp := token fun
  | .symbol s => family s
  | _ => .none

section
variable {u : List Lexeme}

theorem name_iff {n : String} : name u n ↔ ∃ l, u = [l] ∧ l.token.name? = some n := Iff.rfl

theorem literal_iff {a : Literal} :
    literal u a ↔ ∃ l, u = [l] ∧ l.token.literal? = some (.ok a) := by
  have h : ∀ t : Token, (t.literal?.bind Except.toOption = some a) ↔ t.literal? = some (.ok a) := by
    intro t
    rcases t.literal? with _ | _ | _ <;> simp [Except.toOption]
  simp [literal, token, h]

theorem toOption_eq_some_iff {ε α : Type} {x : Except ε α} {a : α} :
    x.toOption = some a ↔ x = .ok a := by
  cases x <;> simp [Except.toOption]

theorem date_iff {d : Date} :
    date u d ↔ ∃ l written, u = [l] ∧ l.token = .date written ∧ dateOf written = .ok d := by
  constructor
  · rintro ⟨⟨t, span⟩, rfl, h⟩
    cases t <;> simp_all [toOption_eq_some_iff]
  · rintro ⟨l, written, rfl, ht, hd⟩
    exact ⟨l, rfl, by simp [ht, hd, Except.toOption]⟩

theorem count_iff {n : UInt64} :
    count u n ↔ ∃ l digits, u = [l] ∧ l.token = .integer digits ∧ countOf digits = .ok n := by
  constructor
  · rintro ⟨⟨t, span⟩, rfl, h⟩
    cases t <;> simp_all [toOption_eq_some_iff]
  · rintro ⟨l, digits, rfl, ht, hd⟩
    exact ⟨l, rfl, by simp [ht, hd, Except.toOption]⟩

theorem stringValue_iff {value : String} :
    stringValue u value ↔ ∃ l s, u = [l] ∧ l.token = .string s ∧ s.value = value := by
  constructor
  · rintro ⟨⟨t, span⟩, rfl, h⟩
    cases t <;> simp_all
  · rintro ⟨l, s, rfl, ht, rfl⟩
    exact ⟨l, rfl, by simp [ht]⟩

theorem placeholder_iff {p : Placeholder} :
    placeholder u p ↔ ∃ l, u = [l] ∧ l.token = .placeholder p := by
  constructor
  · rintro ⟨⟨t, span⟩, rfl, h⟩
    cases t <;> simp_all
  · rintro ⟨l, rfl, ht⟩
    exact ⟨l, rfl, by simp [ht]⟩

theorem table_iff {n : String} : table u n ↔ ∃ l, u = [l] ∧ l.token = .table n := by
  constructor
  · rintro ⟨⟨t, span⟩, rfl, h⟩
    cases t <;> simp_all
  · rintro ⟨l, rfl, ht⟩
    exact ⟨l, rfl, by simp [ht]⟩

theorem operator_iff {family : Symbol → Option BinaryOp} {op : BinaryOp} :
    operator family u op ↔ ∃ l s, u = [l] ∧ l.token = .symbol s ∧ family s = some op := by
  constructor
  · rintro ⟨⟨t, span⟩, rfl, h⟩
    cases t <;> simp_all
  · rintro ⟨l, s, rfl, ht, hs⟩
    exact ⟨l, rfl, by simp [ht, hs]⟩

end

/-! ## Atoms -/

variable (G : Phrases)

/-- A list of literals; items after the first may be left out. -/
def literalList : Phrase Expr := do
  symbol .leftParen
  let first ← literal
  symbol .comma
  let second ← optional literal
  let others ← many (do symbol .comma; optional literal)
  symbol .rightParen
  return .constant (.list (first :: (second :: others).reduceOption))

/-- The arguments of a call, with their parentheses. -/
def arguments : Phrase (List Expr) := oneOf [
  do
    symbol .leftParen
    symbol .star
    symbol .rightParen
    return [.wildcard],
  do
    symbol .leftParen
    symbol .rightParen
    return [],
  do
    symbol .leftParen
    let args ← commaList G.expr
    symbol .rightParen
    return args]

/-- An atom. -/
def atom : Phrase Expr := oneOf [
  do
    let name ← name
    let args ← arguments G
    return .function name args,
  do
    let name ← name
    return .column name,
  do
    let p ← placeholder
    return .placeholder p,
  do
    let value ← literal
    return .literal value,
  literalList,
  do
    let query ← G.bare
    return .subselect query]

/-! ## Operators -/

/-- An attribute or a subscript. -/
def suffix : Phrase Parser.Suffix := oneOf [
  do
    symbol .dot
    let name ← name
    return .attribute name,
  do
    symbol .leftBracket
    let key ← stringValue
    symbol .rightBracket
    return .subscript key]

/-- An atom and its suffixes. -/
def primary : Phrase Expr := do
  let operand ← atom G
  let suffixes ← many suffix
  return suffixes.foldl Parser.Suffix.apply operand

/-- A factor. -/
def factor : Phrase Expr := oneOf [
  do
    symbol .leftParen
    let e ← G.expr
    symbol .rightParen
    return e,
  do
    symbol .leftParen
    let query ← G.grouped
    symbol .rightParen
    return .subselect query,
  do
    symbol .minus
    let operand ← G.factor
    return .unary .neg operand,
  do
    symbol .plus
    G.factor,
  primary G]

/-- Operands with operators of a family between, grouped to the left. -/
def leftGrouped (family : Symbol → Option BinaryOp) (operand : Phrase Expr) : Phrase Expr := do
  let first ← operand
  let others ← many do
    let op ← operator family
    let right ← operand
    return (op, right)
  return others.foldl (fun left (op, right) => .binary left op right) first

/-- A term. -/
def term : Phrase Expr := leftGrouped BinaryOp.ofMultiplicative? (factor G)

/-- A sum. -/
def sum : Phrase Expr := leftGrouped BinaryOp.ofAdditive? (term G)

/-- An operator between two sums. -/
def comparisonOperator : Phrase BinaryOp := oneOf [
  operator BinaryOp.ofComparison?,
  do
    keyword .in
    return .isIn,
  do
    keyword .not
    keyword .in
    return .notIn]

/-- A comparison. -/
def comparison : Phrase Expr := oneOf [
  sum G,
  do
    let left ← sum G
    let op ← comparisonOperator
    let right ← sum G
    return .binary left op right,
  do
    let operand ← sum G
    keyword .is
    let negated ← flag (.keyword .not)
    keyword .null
    return .unary (if negated then .isNotNull else .isNull) operand,
  do
    let operand ← sum G
    keyword .between
    let lower ← sum G
    keyword .and
    let upper ← sum G
    return .between operand lower upper]

/-- An inversion. -/
def inversion : Phrase Expr := oneOf [
  do
    keyword .not
    let operand ← G.inversion
    return .unary .not operand,
  comparison G]

/-- A connective of operands; one operand stands alone. -/
def joined (op : BoolOp) (first : Expr) : List Expr → Expr
  | [] => first
  | others => .bool op (first :: others)

/-- Operands with a connective between. -/
def connected (op : BoolOp) (operand : Phrase Expr) : Phrase Expr := do
  let first ← operand
  let others ← many (do keyword op.key; operand)
  return joined op first others

/-- A conjunction. -/
def conjunction : Phrase Expr := connected .and (inversion G)

/-- A disjunction. -/
def disjunction : Phrase Expr := connected .or (conjunction G)

/-! ## Keys and targets -/

/-- A key to group or sort by. -/
def columnKey : Phrase ColumnKey := oneOf [
  do
    let n ← count
    return .index n,
  do
    let e ← G.key
    return .expr e]

/-- A target. -/
def target : Phrase Target := do
  let ((e, name), span) ← spanned do
    let e ← G.expr
    let name ← optional (do keyword .as; name)
    return (e, name)
  return ⟨e, name, some span⟩

/-- The targets of a query. -/
def targets : Phrase Targets := oneOf [
  do
    symbol .star
    return .all,
  do
    let items ← commaList (target G)
    return .list items]

/-! ## Sources -/

/-- An opening date with its keywords. -/
def opening : Phrase Date := do
  keyword .open
  keyword .on
  date

/-- A closing date with its keywords. -/
def closing : Phrase Closing := oneOf [
  do
    keyword .close
    return .default,
  do
    keyword .close
    keyword .on
    let d ← date
    return .on d]

/-- Whether a run begins with a modifier of a filter. -/
def BeginsWithModifier (u : List Lexeme) : Prop :=
  ∃ l ∈ u.head?, ∃ k ∈ [Keyword.open, .close, .clear], l.token.is (.keyword k) = true

/-- Whether a run begins with a query in parentheses. -/
def BeginsWithQuery (u : List Lexeme) : Prop :=
  ∃ l m v, u = l :: m :: v ∧ l.token.is (.symbol .leftParen) = true ∧
    m.token.is (.keyword .select) = true

/-- A filter on entries. -/
def entryFilter : Phrase EntryFilter := oneOf [
  do
    let openOn ← opening
    let close ← optional closing
    let clear ← flag (.keyword .clear)
    return ⟨.none, some openOn, close, clear⟩,
  do
    let close ← closing
    let clear ← flag (.keyword .clear)
    return ⟨.none, .none, some close, clear⟩,
  do
    keyword .clear
    return ⟨.none, .none, .none, true⟩,
  do
    let e ← G.expr.such fun u => ¬ BeginsWithModifier u
    let openOn ← optional opening
    let close ← optional closing
    let clear ← flag (.keyword .clear)
    return ⟨some e, openOn, close, clear⟩]

/-- Where the rows of a query come from. -/
def source : Phrase Source := oneOf [
  do
    let name ← table
    return .table name,
  do
    symbol .leftParen
    let query ← G.select
    symbol .rightParen
    return .query query,
  do
    let filter ← (entryFilter G).such fun u => ¬ BeginsWithQuery u
    return .entries filter]

/-! ## Clauses -/

/-- The condition on rows. -/
def condition : Phrase Expr := do
  keyword .where
  G.expr

/-- How rows are grouped. -/
def groupBy : Phrase GroupBy := do
  keyword .group
  keyword .by
  let keys ← commaList (columnKey G)
  let having ← optional (do keyword .having; G.expr)
  return ⟨keys, having⟩

/-- The direction of a sort key. -/
def sortDirection : Phrase SortDirection := oneOf [
  do
    keyword .desc
    return .descending,
  do
    keyword .asc
    return .ascending,
  return .ascending]

/-- A key to sort by. -/
def sortKey : Phrase SortKey := do
  let column ← columnKey G
  let direction ← sortDirection
  return ⟨column, direction⟩

/-- How rows are sorted. -/
def orderBy : Phrase (List SortKey) := do
  keyword .order
  keyword .by
  commaList (sortKey G)

/-- A key of a pivot. -/
def pivotKey : Phrase PivotKey := oneOf [
  do
    let n ← count
    return .index n,
  do
    let name ← name
    return .column name]

/-- The two keys of a pivot. -/
def pivotBy : Phrase PivotBy := do
  keyword .pivot
  keyword .by
  let row ← pivotKey
  symbol .comma
  let column ← pivotKey
  return ⟨row, column⟩

/-- How many rows are kept. -/
def limit : Phrase UInt64 := do
  keyword .limit
  count

/-- A `SELECT` query. -/
def select : Phrase Select := do
  keyword .select
  let distinct ← flag (.keyword .distinct)
  let targets ← targets G
  let source ← optional (do keyword .from; source G)
  let condition ← optional (condition G)
  let groupBy ← optional (groupBy G)
  let orderBy ← optional (orderBy G)
  let pivotBy ← optional pivotBy
  let limit ← optional limit
  return ⟨targets, distinct, source, condition, groupBy, orderBy, pivotBy, limit⟩

/-! ## Statements -/

/-- The function that sums up positions. -/
def summary : Phrase String := do
  keyword .at
  name

/-- The filter of a shorthand. -/
def shorthandSource : Phrase EntryFilter := do
  keyword .from
  entryFilter G

/-- A `BALANCES` query. -/
def balances : Phrase Balances := do
  keyword .balances
  let summary ← optional summary
  let source ← optional (shorthandSource G)
  let condition ← optional (condition G)
  return ⟨summary, source, condition⟩

/-- A `JOURNAL` query. -/
def journal : Phrase Journal := do
  keyword .journal
  let account ← optional stringValue
  let summary ← optional summary
  let source ← optional (shorthandSource G)
  return ⟨account, summary, source⟩

/-- A `PRINT` query. -/
def print : Phrase Print := do
  keyword .print
  let source ← optional (shorthandSource G)
  return ⟨source⟩

/-- A statement. -/
def statement : Phrase Statement := oneOf [
  do
    let query ← G.select
    return .select query,
  do
    let query ← balances G
    return .balances query,
  do
    let query ← journal G
    return .journal query,
  do
    let query ← print G
    return .print query]

end Phrase

/-! ## Nesting -/

/-- Whether a run is a single integer. -/
def IsInteger (u : List Lexeme) : Prop := ∃ digits span, u = [⟨.integer digits, span⟩]

/-- The phrases that go at most so many levels deeper. -/
def phrases (mode : Subselects) : (levels : Nat) → Phrases
  | 0 => ⟨.none, .none, .none, .none, .none, .none, .none⟩
  | levels + 1 =>
    let G := phrases mode levels
    { expr := .disjunction G
      inversion := .inversion G
      factor := .factor G
      select := .select G
      bare := if mode = .anywhere then .select G else .none
      grouped := if mode = .parenthesised then G.select else .none
      key := if mode = .anywhere then .disjunction G else (Phrase.disjunction G).such (¬ IsInteger ·) }

/-- Whether a list of lexemes is a statement of the grammar, without scalar subselects. -/
def Statement.IsReadAs (lexemes : List Lexeme) (s : Statement) : Prop :=
  ∃ levels, Phrase.statement (phrases .nowhere levels) lexemes s

end LedgerQuery
