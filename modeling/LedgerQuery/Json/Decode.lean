import LedgerQuery.Json.Encode

/-!
# Reading queries from JSON

The readers accept what the JSON form of a query looks like, and some variations
of it.  The fields of an object may be in any order, and a field for a part that
may be absent can be left out.  A record may be an array of all its parts
instead.  A choice without data may be an object with its name over null.  A
decimal may be a number.

Every other field has to be there, and a value of the wrong kind, a name that
is no choice, a number out of range, and a date or decimal that is none make
the whole tree unreadable.

The readers of expressions and queries call each other on smaller values.
-/

namespace LedgerQuery

open Json (option?)

/-! ## The parts of records, in order -/

namespace Parts

/-- The parts of a string literal. -/
def stringLiteral : List String := ["value", "quote"]

/-- The parts of a pivot. -/
def pivotBy : List String := ["columns"]

/-- The parts of a span. -/
def span : List String := ["start", "end"]

/-- The parts of a call. -/
def function : List String := ["name", "args"]

/-- The parts of an attribute. -/
def access : List String := ["operand", "name"]

/-- The parts of a subscript. -/
def subscript : List String := ["operand", "key"]

/-- The parts of an operator with one operand. -/
def unary : List String := ["op", "operand"]

/-- The parts of an operator with two operands. -/
def binary : List String := ["left", "op", "right"]

/-- The parts of a connective. -/
def bool : List String := ["op", "args"]

/-- The parts of a test for a range. -/
def between : List String := ["operand", "lower", "upper"]

/-- The parts of a `SELECT` query. -/
def select : List String :=
  ["targets", "distinct", "from_clause", "where_clause", "group_by", "order_by", "pivot_by",
    "limit"]

/-- The parts of a target; an array can leave out the span. -/
def target : Json → List String
  | .arr [_, _] => ["expr", "name"]
  | _ => ["expr", "name", "span"]

/-- The parts of a table. -/
def table : List String := ["name"]

/-- The parts of a filter on entries. -/
def entryFilter : List String := ["expression", "open", "close", "clear"]

/-- The parts of a grouping. -/
def groupBy : List String := ["columns", "having"]

/-- The parts of a sort key. -/
def sortKey : List String := ["column", "direction"]

/-- The parts of a `BALANCES` query. -/
def balances : List String := ["summary_func", "from_clause", "where_clause"]

/-- The parts of a `JOURNAL` query. -/
def journal : List String := ["account", "summary_func", "from_clause"]

/-- The parts of a `PRINT` query. -/
def print : List String := ["from_clause"]

end Parts

/-! ## Names -/

/-- The choice of a name. -/
def ofTag? {α : Type} (all : List α) (tag : α → String) (j : Json) : Option α := do
  let name ← j.name?
  all.find? fun a => tag a = name

/-- The operator of a name. -/
def UnaryOp.ofJson? : Json → Option UnaryOp := ofTag? UnaryOp.all UnaryOp.tag

/-- The operator of a name. -/
def BinaryOp.ofJson? : Json → Option BinaryOp := ofTag? BinaryOp.all BinaryOp.tag

/-- The connective of a name. -/
def BoolOp.ofJson? : Json → Option BoolOp := ofTag? BoolOp.all BoolOp.tag

/-- The quote style of a name. -/
def QuoteStyle.ofJson? : Json → Option QuoteStyle := ofTag? [.single, .double] QuoteStyle.tag

/-- The direction of a name. -/
def SortDirection.ofJson? : Json → Option SortDirection :=
  ofTag? [.ascending, .descending] SortDirection.tag

/-! ## Values -/

/-- A number of rows or of a target. -/
def ofWordJson? (j : Json) : Option UInt64 := j.word?.map UInt64.ofNat

/-- A date. -/
def Date.ofJson? (j : Json) : Option Date := do Date.ofText? (← j.str?)

/-- A string literal. -/
def StringLiteral.ofJson? (j : Json) : Option StringLiteral := do
  let ⟨value, _⟩ ← j.field? Parts.stringLiteral "value"
  let ⟨quote, _⟩ ← j.field? Parts.stringLiteral "quote"
  return ⟨← value.str?, ← QuoteStyle.ofJson? quote⟩

/-- A decimal, as a text or as a whole number of sixty-four bits with or without sign. -/
def Decimal.ofJson? : Json → Option Decimal
  | .str text => Decimal.ofText? text
  | .num n => if Int64.minValue.toInt ≤ n ∧ n < UInt64.size then Decimal.of? n 0 else none
  | _ => none

/-- An integer of sixty-four bits. -/
def ofIntegerJson? : Json → Option Int64
  | .num n =>
    if Int64.minValue.toInt ≤ n ∧ n ≤ Int64.maxValue.toInt then some (Int64.ofInt n) else none
  | _ => none

/-- A literal. -/
def Literal.ofJson? : Json → Option Literal
  | .str "Null" | .obj [("Null", .null)] => some .null
  | .obj [("Boolean", j)] => Literal.boolean <$> j.bool?
  | .obj [("Integer", j)] => Literal.integer <$> ofIntegerJson? j
  | .obj [("Decimal", j)] => Literal.decimal <$> Decimal.ofJson? j
  | .obj [("Date", j)] => Literal.date <$> Date.ofJson? j
  | .obj [("String", j)] => Literal.string <$> StringLiteral.ofJson? j
  | _ => none

/-- A constant. -/
def Constant.ofJson? : Json → Option Constant
  | .obj [("Literal", j)] => Constant.literal <$> Literal.ofJson? j
  | .obj [("List", .arr items)] => Constant.list <$> items.mapM Literal.ofJson?
  | _ => none

/-- A parameter. -/
def Placeholder.ofJson? : Json → Option Placeholder
  | .str "Positional" | .obj [("Positional", .null)] => some .positional
  | .obj [("Named", j)] => Placeholder.named <$> j.str?
  | _ => none

/-- A closing date. -/
def Closing.ofJson? : Json → Option Closing
  | .str "Default" | .obj [("Default", .null)] => some .default
  | .obj [("On", j)] => Closing.on <$> Date.ofJson? j
  | _ => none

/-- A pivot key. -/
def PivotKey.ofJson? : Json → Option PivotKey
  | .obj [("Index", j)] => PivotKey.index <$> ofWordJson? j
  | .obj [("Column", j)] => PivotKey.column <$> j.str?
  | _ => none

/-- A pivot, which has exactly two keys. -/
def PivotBy.ofJson? (j : Json) : Option PivotBy := do
  match ← j.field? Parts.pivotBy "columns" with
  | ⟨.arr [row, column], _⟩ => return ⟨← PivotKey.ofJson? row, ← PivotKey.ofJson? column⟩
  | _ => none

/-- A span, whose ends have at most sixty-four bits. -/
def Span.ofJson? (j : Json) : Option Span := do
  let ⟨start, _⟩ ← j.field? Parts.span "start"
  let ⟨stop, _⟩ ← j.field? Parts.span "end"
  return ⟨← start.word?, ← stop.word?⟩

/-! ## Expressions and queries -/

mutual

/-- An expression. -/
def Expr.ofJson? (j : Json) : Option Expr :=
  match j with
  | .str "Wildcard" | .obj [("Wildcard", .null)] => some .wildcard
  | .obj [(tag, j)] =>
    match tag with
    | "Column" => Expr.column <$> j.str?
    | "Constant" => Expr.constant <$> Constant.ofJson? j
    | "Placeholder" => Expr.placeholder <$> Placeholder.ofJson? j
    | "Function" => do
      let ⟨name, _⟩ ← j.field? Parts.function "name"
      let ⟨args, _⟩ ← j.field? Parts.function "args"
      return .function (← name.str?) (← Expr.ofJsonArray? args)
    | "Attribute" => do
      let ⟨operand, _⟩ ← j.field? Parts.access "operand"
      let ⟨name, _⟩ ← j.field? Parts.access "name"
      return .attribute (← Expr.ofJson? operand) (← name.str?)
    | "Subscript" => do
      let ⟨operand, _⟩ ← j.field? Parts.subscript "operand"
      let ⟨key, _⟩ ← j.field? Parts.subscript "key"
      return .subscript (← Expr.ofJson? operand) (← key.str?)
    | "UnaryOp" => do
      let ⟨op, _⟩ ← j.field? Parts.unary "op"
      let ⟨operand, _⟩ ← j.field? Parts.unary "operand"
      return .unary (← UnaryOp.ofJson? op) (← Expr.ofJson? operand)
    | "BinaryOp" => do
      let ⟨left, _⟩ ← j.field? Parts.binary "left"
      let ⟨op, _⟩ ← j.field? Parts.binary "op"
      let ⟨right, _⟩ ← j.field? Parts.binary "right"
      return .binary (← Expr.ofJson? left) (← BinaryOp.ofJson? op) (← Expr.ofJson? right)
    | "BoolOp" => do
      let ⟨op, _⟩ ← j.field? Parts.bool "op"
      let ⟨args, _⟩ ← j.field? Parts.bool "args"
      return .bool (← BoolOp.ofJson? op) (← Expr.ofJsonArray? args)
    | "Between" => do
      let ⟨operand, _⟩ ← j.field? Parts.between "operand"
      let ⟨lower, _⟩ ← j.field? Parts.between "lower"
      let ⟨upper, _⟩ ← j.field? Parts.between "upper"
      return .between (← Expr.ofJson? operand) (← Expr.ofJson? lower) (← Expr.ofJson? upper)
    | "Subselect" => Expr.subselect <$> Select.ofJson? j
    | _ => none
  | _ => none
termination_by (sizeOf j, 0)

/-- An expression that may be absent. -/
def Expr.ofJsonOption? (j : Json) : Option (Option Expr) :=
  match j with
  | .null => some none
  | j => some <$> Expr.ofJson? j
termination_by (sizeOf j, 1)

/-- An array of expressions. -/
def Expr.ofJsonArray? (j : Json) : Option (List Expr) :=
  match j with
  | .arr items => Expr.ofJsonList? items
  | _ => none
termination_by (sizeOf j, 0)

/-- Some expressions. -/
def Expr.ofJsonList? (items : List Json) : Option (List Expr) :=
  match items with
  | [] => some []
  | j :: js => do return (← Expr.ofJson? j) :: (← Expr.ofJsonList? js)
termination_by (sizeOf items, 0)

/-- A `SELECT` query. -/
def Select.ofJson? (j : Json) : Option Select := do
  let ⟨targets, _⟩ ← j.field? Parts.select "targets"
  let ⟨distinct, _⟩ ← j.field? Parts.select "distinct"
  let ⟨source, _⟩ ← j.part? Parts.select "from_clause"
  let ⟨condition, _⟩ ← j.part? Parts.select "where_clause"
  let ⟨groupBy, _⟩ ← j.part? Parts.select "group_by"
  let ⟨orderBy, _⟩ ← j.part? Parts.select "order_by"
  let ⟨pivotBy, _⟩ ← j.part? Parts.select "pivot_by"
  let ⟨limit, _⟩ ← j.part? Parts.select "limit"
  return ⟨← Targets.ofJson? targets, ← distinct.bool?, ← Source.ofJsonOption? source,
    ← Expr.ofJsonOption? condition, ← GroupBy.ofJsonOption? groupBy,
    ← SortKey.ofJsonOption? orderBy, ← option? PivotBy.ofJson? pivotBy,
    ← option? ofWordJson? limit⟩
termination_by (sizeOf j, 0)

/-- The targets of a query. -/
def Targets.ofJson? (j : Json) : Option Targets :=
  match j with
  | .str "Wildcard" | .obj [("Wildcard", .null)] => some .all
  | .obj [("List", .arr items)] => Targets.list <$> Target.ofJsonList? items
  | _ => none
termination_by (sizeOf j, 0)

/-- Some targets. -/
def Target.ofJsonList? (items : List Json) : Option (List Target) :=
  match items with
  | [] => some []
  | j :: js => do
    let ⟨e, _⟩ ← j.field? (Parts.target j) "expr"
    let ⟨name, _⟩ ← j.part? (Parts.target j) "name"
    let ⟨span, _⟩ ← j.part? (Parts.target j) "span"
    return ⟨← Expr.ofJson? e, ← option? Json.str? name, ← option? Span.ofJson? span⟩ ::
      (← Target.ofJsonList? js)
termination_by (sizeOf items, 0)

/-- A source. -/
def Source.ofJson? (j : Json) : Option Source :=
  match j with
  | .obj [("Table", j)] => do
    let ⟨name, _⟩ ← j.field? Parts.table "name"
    return .table (← name.str?)
  | .obj [("Subselect", j)] => Source.query <$> Select.ofJson? j
  | .obj [("Filter", j)] => Source.entries <$> EntryFilter.ofJson? j
  | _ => none
termination_by (sizeOf j, 0)

/-- A source that may be absent. -/
def Source.ofJsonOption? (j : Json) : Option (Option Source) :=
  match j with
  | .null => some none
  | j => some <$> Source.ofJson? j
termination_by (sizeOf j, 1)

/-- A filter on entries. -/
def EntryFilter.ofJson? (j : Json) : Option EntryFilter := do
  let ⟨expression, _⟩ ← j.part? Parts.entryFilter "expression"
  let ⟨openOn, _⟩ ← j.part? Parts.entryFilter "open"
  let ⟨close, _⟩ ← j.part? Parts.entryFilter "close"
  let ⟨clear, _⟩ ← j.field? Parts.entryFilter "clear"
  return ⟨← Expr.ofJsonOption? expression, ← option? Date.ofJson? openOn,
    ← option? Closing.ofJson? close, ← clear.bool?⟩
termination_by (sizeOf j, 0)

/-- A key. -/
def ColumnKey.ofJson? (j : Json) : Option ColumnKey :=
  match j with
  | .obj [("Index", j)] => ColumnKey.index <$> ofWordJson? j
  | .obj [("Expr", j)] => ColumnKey.expr <$> Expr.ofJson? j
  | _ => none
termination_by (sizeOf j, 0)

/-- An array of keys. -/
def ColumnKey.ofJsonArray? (j : Json) : Option (List ColumnKey) :=
  match j with
  | .arr items => ColumnKey.ofJsonList? items
  | _ => none
termination_by (sizeOf j, 0)

/-- Some keys. -/
def ColumnKey.ofJsonList? (items : List Json) : Option (List ColumnKey) :=
  match items with
  | [] => some []
  | j :: js => do return (← ColumnKey.ofJson? j) :: (← ColumnKey.ofJsonList? js)
termination_by (sizeOf items, 0)

/-- A grouping. -/
def GroupBy.ofJson? (j : Json) : Option GroupBy := do
  let ⟨columns, _⟩ ← j.field? Parts.groupBy "columns"
  let ⟨having, _⟩ ← j.part? Parts.groupBy "having"
  return ⟨← ColumnKey.ofJsonArray? columns, ← Expr.ofJsonOption? having⟩
termination_by (sizeOf j, 0)

/-- A grouping that may be absent. -/
def GroupBy.ofJsonOption? (j : Json) : Option (Option GroupBy) :=
  match j with
  | .null => some none
  | j => some <$> GroupBy.ofJson? j
termination_by (sizeOf j, 1)

/-- Some sort keys. -/
def SortKey.ofJsonList? (items : List Json) : Option (List SortKey) :=
  match items with
  | [] => some []
  | j :: js => do
    let ⟨column, _⟩ ← j.field? Parts.sortKey "column"
    let ⟨direction, _⟩ ← j.field? Parts.sortKey "direction"
    return ⟨← ColumnKey.ofJson? column, ← SortDirection.ofJson? direction⟩ ::
      (← SortKey.ofJsonList? js)
termination_by (sizeOf items, 0)

/-- Sort keys that may be absent. -/
def SortKey.ofJsonOption? (j : Json) : Option (Option (List SortKey)) :=
  match j with
  | .null => some none
  | .arr items => some <$> SortKey.ofJsonList? items
  | _ => none
termination_by (sizeOf j, 0)

end

/-! ## Statements -/

/-- A `BALANCES` query. -/
def Balances.ofJson? (j : Json) : Option Balances := do
  let ⟨summary, _⟩ ← j.part? Parts.balances "summary_func"
  let ⟨source, _⟩ ← j.part? Parts.balances "from_clause"
  let ⟨condition, _⟩ ← j.part? Parts.balances "where_clause"
  return ⟨← option? Json.str? summary, ← option? EntryFilter.ofJson? source,
    ← option? Expr.ofJson? condition⟩

/-- A `JOURNAL` query. -/
def Journal.ofJson? (j : Json) : Option Journal := do
  let ⟨account, _⟩ ← j.part? Parts.journal "account"
  let ⟨summary, _⟩ ← j.part? Parts.journal "summary_func"
  let ⟨source, _⟩ ← j.part? Parts.journal "from_clause"
  return ⟨← option? Json.str? account, ← option? Json.str? summary,
    ← option? EntryFilter.ofJson? source⟩

/-- A `PRINT` query. -/
def Print.ofJson? (j : Json) : Option Print := do
  let ⟨source, _⟩ ← j.part? Parts.print "from_clause"
  return ⟨← option? EntryFilter.ofJson? source⟩

/-- A statement. -/
def Statement.ofJson? : Json → Option Statement
  | .obj [("Select", j)] => Statement.select <$> Select.ofJson? j
  | .obj [("Balances", j)] => Statement.balances <$> Balances.ofJson? j
  | .obj [("Journal", j)] => Statement.journal <$> Journal.ofJson? j
  | .obj [("Print", j)] => Statement.print <$> Print.ofJson? j
  | _ => none

end LedgerQuery
