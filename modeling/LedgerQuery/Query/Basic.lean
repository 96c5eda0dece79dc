import LedgerQuery.Query.Operator
import LedgerQuery.Text.Span

/-!
# Queries

The trees that queries are read into.  An expression may hold a whole `SELECT`
as a subselect, and a `SELECT` holds expressions in all its clauses, so the two
are defined together.  A statement is a `SELECT` or one of three shorthands.

A tree need not be one that a text can be read into.  It may hold any text as a
name, and any list may be empty.

Only targets know where they were read from.  The functions at the end build
trees, from a plain `SELECT` of some targets and one clause after the other.
-/

namespace LedgerQuery

/-- The direction of a sort key. -/
inductive SortDirection where
  /-- Smallest first. -/
  | ascending
  /-- Largest first. -/
  | descending
deriving DecidableEq, Repr, Inhabited

/-- The date up to which entries are kept. -/
inductive Closing where
  /-- The date that whoever runs the query chooses. -/
  | default
  /-- A given date. -/
  | on (date : Date)
deriving DecidableEq, Repr, Inhabited

/-- A key of a pivot. -/
inductive PivotKey where
  /-- The number of a target, from one. -/
  | index (number : UInt64)
  /-- The name of a column. -/
  | column (name : String)
deriving DecidableEq, Repr, Inhabited

/-- The two keys of a pivot. -/
structure PivotBy where
  /-- The key whose values become rows. -/
  row : PivotKey
  /-- The key whose values become columns. -/
  column : PivotKey
deriving DecidableEq, Repr, Inhabited

mutual

/-- An expression. -/
inductive Expr where
  /-- The star in `count(*)`. -/
  | wildcard
  /-- A column, by name. -/
  | column (name : String)
  /-- A literal or a list of literals. -/
  | constant (value : Constant)
  /-- A parameter. -/
  | placeholder (value : Placeholder)
  /-- A call of a function. -/
  | function (name : String) (args : List Expr)
  /-- An attribute of a value. -/
  | attribute (operand : Expr) (name : String)
  /-- An entry of a value, by its key. -/
  | subscript (operand : Expr) (key : String)
  /-- An operator with one operand. -/
  | unary (op : UnaryOp) (operand : Expr)
  /-- An operator between two operands. -/
  | binary (left : Expr) (op : BinaryOp) (right : Expr)
  /-- A connective of any number of operands. -/
  | bool (op : BoolOp) (args : List Expr)
  /-- A test for a range, both ends included. -/
  | between (operand lower upper : Expr)
  /-- The value of a query. -/
  | subselect (query : Select)

/-- A `SELECT` query. -/
structure Select where
  /-- What is selected. -/
  targets : Targets
  /-- Whether equal rows are merged. -/
  distinct : Bool := false
  /-- Where rows come from. -/
  source : Option Source := none
  /-- The condition on rows. -/
  condition : Option Expr := none
  /-- How rows are grouped. -/
  groupBy : Option GroupBy := none
  /-- How rows are sorted. -/
  orderBy : Option (List SortKey) := none
  /-- Which columns are turned. -/
  pivotBy : Option PivotBy := none
  /-- How many rows are kept. -/
  limit : Option UInt64 := none

/-- The targets of a query. -/
inductive Targets where
  /-- All columns. -/
  | all
  /-- The given targets. -/
  | list (items : List Target)

/-- One target: an expression, perhaps under a name. -/
structure Target where
  /-- The expression. -/
  expr : Expr
  /-- The name of the column in the result. -/
  name : Option String := none
  /-- The text the target was read from. -/
  span : Option Span := none

/-- Where the rows of a query come from. -/
inductive Source where
  /-- A table; the default table has the empty name. -/
  | table (name : String)
  /-- The rows of another query. -/
  | query (select : Select)
  /-- The entries of the ledger, filtered. -/
  | entries (filter : EntryFilter)

/-- A filter on entries of the ledger. -/
structure EntryFilter where
  /-- The condition on entries. -/
  expression : Option Expr := none
  /-- The date before which entries are summed up. -/
  openOn : Option Date := none
  /-- The date from which entries are dropped. -/
  close : Option Closing := none
  /-- Whether income and expenses are moved to equity. -/
  clear : Bool := false

/-- A key to group or sort by. -/
inductive ColumnKey where
  /-- The number of a target, from one. -/
  | index (number : UInt64)
  /-- An expression. -/
  | expr (value : Expr)

/-- How rows are grouped. -/
structure GroupBy where
  /-- The keys, in order. -/
  keys : List ColumnKey
  /-- The condition on groups. -/
  having : Option Expr := none

/-- A key to sort by and its direction. -/
structure SortKey where
  /-- The key. -/
  column : ColumnKey
  /-- The direction. -/
  direction : SortDirection := .ascending

end

instance : Inhabited Expr := ⟨.wildcard⟩
instance : Inhabited Targets := ⟨.all⟩
instance : Inhabited Select := ⟨⟨.all, false, none, none, none, none, none, none⟩⟩

/-- Balances of accounts. -/
structure Balances where
  /-- The function that sums up positions. -/
  summary : Option String := none
  /-- The filter on entries. -/
  source : Option EntryFilter := none
  /-- The condition on rows. -/
  condition : Option Expr := none

/-- The journal of an account. -/
structure Journal where
  /-- A pattern for the account. -/
  account : Option String := none
  /-- The function that sums up positions. -/
  summary : Option String := none
  /-- The filter on entries. -/
  source : Option EntryFilter := none

/-- The entries of the ledger. -/
structure Print where
  /-- The filter on entries. -/
  source : Option EntryFilter := none

/-- A whole query. -/
inductive Statement where
  /-- A `SELECT` query. -/
  | select (query : Select)
  /-- A `BALANCES` query. -/
  | balances (query : Balances)
  /-- A `JOURNAL` query. -/
  | journal (query : Journal)
  /-- A `PRINT` query. -/
  | print (query : Print)

instance : Inhabited Statement := ⟨.print {}⟩

/-- The kind of a statement, in lower case. -/
def Statement.kind : Statement → String
  | .select _ => "select"
  | .balances _ => "balances"
  | .journal _ => "journal"
  | .print _ => "print"

/-! ## Building trees -/

namespace Expr

/-- A single literal. -/
def literal (value : Literal) : Expr := .constant (.literal value)

/-- The conjunction of some operands. -/
def and (args : List Expr) : Expr := .bool .and args

/-- The disjunction of some operands. -/
def or (args : List Expr) : Expr := .bool .or args

end Expr

namespace Select

/-- The query of some targets and no clauses. -/
def ofTargets (targets : Targets) : Select :=
  ⟨targets, false, none, none, none, none, none, none⟩

/-- The query of one target without a name, and no clauses. -/
def ofExpr (e : Expr) : Select := ofTargets (.list [⟨e, none, none⟩])

/-- Whether the rows come from the table without a name. -/
def fromDefaultTable (s : Select) : Bool :=
  match s.source with
  | some (.table name) => name.isEmpty
  | _ => false

end Select

end LedgerQuery
