import LedgerQuery.Json.Basic
import LedgerQuery.Query.Basic

/-!
# The JSON form of queries

A choice without data is a string with its name, and a choice with data an
object with its name as the only key.  A record is an object with a field for
each of its parts.  An absent part is null, except for the span of a target,
which has no field if there is none.  Dates and decimals are strings.
-/

namespace LedgerQuery

open Json (tagged ofNat ofOption)

/-! ## Names -/

/-- The name of an operator. -/
def UnaryOp.tag : UnaryOp → String
  | .not => "Not"
  | .neg => "Neg"
  | .isNull => "IsNull"
  | .isNotNull => "IsNotNull"

/-- The name of an operator. -/
def BinaryOp.tag : BinaryOp → String
  | .less => "Less"
  | .lessEqual => "LessEq"
  | .greater => "Greater"
  | .greaterEqual => "GreaterEq"
  | .equal => "Equal"
  | .notEqual => "NotEqual"
  | .isIn => "In"
  | .notIn => "NotIn"
  | .like => "Match"
  | .notLike => "NotMatch"
  | .add => "Add"
  | .sub => "Sub"
  | .mul => "Mul"
  | .div => "Div"
  | .mod => "Mod"

/-- The name of a connective. -/
def BoolOp.tag : BoolOp → String
  | .and => "And"
  | .or => "Or"

/-- The name of a quote style. -/
def QuoteStyle.tag : QuoteStyle → String
  | .single => "Single"
  | .double => "Double"

/-- The name of a direction. -/
def SortDirection.tag : SortDirection → String
  | .ascending => "Asc"
  | .descending => "Desc"

/-- The name of a kind of expression. -/
def Expr.tag : Expr → String
  | .wildcard => "Wildcard"
  | .column _ => "Column"
  | .constant _ => "Constant"
  | .placeholder _ => "Placeholder"
  | .function _ _ => "Function"
  | .attribute _ _ => "Attribute"
  | .subscript _ _ => "Subscript"
  | .unary _ _ => "UnaryOp"
  | .binary _ _ _ => "BinaryOp"
  | .bool _ _ => "BoolOp"
  | .between _ _ _ => "Between"
  | .subselect _ => "Subselect"

/-! ## Values -/

/-- The JSON form of a number of rows or of a target. -/
def wordJson (n : UInt64) : Json := ofNat n.toNat

/-- The JSON form of a date. -/
def Date.toJson (d : Date) : Json := .str d.text

/-- The JSON form of a string literal. -/
def StringLiteral.toJson (s : StringLiteral) : Json :=
  .obj [("value", .str s.value), ("quote", .str s.quote.tag)]

/-- The JSON form of a literal. -/
def Literal.toJson : Literal → Json
  | .null => .str "Null"
  | .boolean b => tagged "Boolean" (.bool b)
  | .integer n => tagged "Integer" (.num n.toInt)
  | .decimal d => tagged "Decimal" (.str d.text)
  | .date d => tagged "Date" d.toJson
  | .string s => tagged "String" s.toJson

/-- The JSON form of a constant. -/
def Constant.toJson : Constant → Json
  | .literal value => tagged "Literal" value.toJson
  | .list items => tagged "List" (.arr (items.map Literal.toJson))

/-- The JSON form of a parameter. -/
def Placeholder.toJson : Placeholder → Json
  | .positional => .str "Positional"
  | .named name => tagged "Named" (.str name)

/-- The JSON form of a closing date. -/
def Closing.toJson : Closing → Json
  | .default => .str "Default"
  | .on d => tagged "On" d.toJson

/-- The JSON form of a pivot key. -/
def PivotKey.toJson : PivotKey → Json
  | .index n => tagged "Index" (wordJson n)
  | .column name => tagged "Column" (.str name)

/-- The JSON form of a pivot. -/
def PivotBy.toJson (p : PivotBy) : Json :=
  .obj [("columns", .arr [p.row.toJson, p.column.toJson])]

/-- The JSON form of a span. -/
def Span.toJson (s : Span) : Json := .obj [("start", ofNat s.start), ("end", ofNat s.stop)]

/-! ## Expressions and queries -/

mutual

/-- The JSON form of an expression. -/
def Expr.toJson : Expr → Json
  | .wildcard => .str "Wildcard"
  | .column name => tagged "Column" (.str name)
  | .constant value => tagged "Constant" value.toJson
  | .placeholder p => tagged "Placeholder" p.toJson
  | .function name args =>
    tagged "Function" (.obj [("name", .str name), ("args", .arr (Expr.toJsonList args))])
  | .attribute operand name =>
    tagged "Attribute" (.obj [("operand", operand.toJson), ("name", .str name)])
  | .subscript operand key =>
    tagged "Subscript" (.obj [("operand", operand.toJson), ("key", .str key)])
  | .unary op operand =>
    tagged "UnaryOp" (.obj [("op", .str op.tag), ("operand", operand.toJson)])
  | .binary left op right =>
    tagged "BinaryOp"
      (.obj [("left", left.toJson), ("op", .str op.tag), ("right", right.toJson)])
  | .bool op args =>
    tagged "BoolOp" (.obj [("op", .str op.tag), ("args", .arr (Expr.toJsonList args))])
  | .between operand lower upper =>
    tagged "Between"
      (.obj [("operand", operand.toJson), ("lower", lower.toJson), ("upper", upper.toJson)])
  | .subselect query => tagged "Subselect" query.toJson
termination_by structural e => e

/-- The JSON forms of some expressions. -/
def Expr.toJsonList : List Expr → List Json
  | [] => []
  | e :: es => e.toJson :: Expr.toJsonList es
termination_by structural es => es

/-- The JSON form of a `SELECT` query. -/
def Select.toJson : Select → Json
  | ⟨targets, distinct, source, condition, groupBy, orderBy, pivotBy, limit⟩ =>
    .obj
      [("targets", targets.toJson),
        ("distinct", .bool distinct),
        ("from_clause",
          match source with
          | none => .null
          | some s => s.toJson),
        ("where_clause",
          match condition with
          | none => .null
          | some e => e.toJson),
        ("group_by",
          match groupBy with
          | none => .null
          | some g => g.toJson),
        ("order_by",
          match orderBy with
          | none => .null
          | some keys => .arr (SortKey.toJsonList keys)),
        ("pivot_by", ofOption PivotBy.toJson pivotBy),
        ("limit", ofOption wordJson limit)]
termination_by structural s => s

/-- The JSON form of the targets of a query. -/
def Targets.toJson : Targets → Json
  | .all => .str "Wildcard"
  | .list items => tagged "List" (.arr (Target.toJsonList items))
termination_by structural t => t

/-- The JSON forms of some targets. -/
def Target.toJsonList : List Target → List Json
  | [] => []
  | ⟨e, name, span⟩ :: ts =>
    .obj (("expr", e.toJson) :: ("name", ofOption .str name) ::
      (span.map fun s => ("span", s.toJson)).toList) :: Target.toJsonList ts
termination_by structural ts => ts

/-- The JSON form of a source. -/
def Source.toJson : Source → Json
  | .table name => tagged "Table" (.obj [("name", .str name)])
  | .query select => tagged "Subselect" select.toJson
  | .entries filter => tagged "Filter" filter.toJson
termination_by structural s => s

/-- The JSON form of a filter on entries. -/
def EntryFilter.toJson : EntryFilter → Json
  | ⟨expression, openOn, close, clear⟩ =>
    .obj
      [("expression",
          match expression with
          | none => .null
          | some e => e.toJson),
        ("open", ofOption Date.toJson openOn),
        ("close", ofOption Closing.toJson close),
        ("clear", .bool clear)]
termination_by structural f => f

/-- The JSON form of a key. -/
def ColumnKey.toJson : ColumnKey → Json
  | .index n => tagged "Index" (wordJson n)
  | .expr e => tagged "Expr" e.toJson
termination_by structural k => k

/-- The JSON forms of some keys. -/
def ColumnKey.toJsonList : List ColumnKey → List Json
  | [] => []
  | k :: ks => k.toJson :: ColumnKey.toJsonList ks
termination_by structural ks => ks

/-- The JSON form of a grouping. -/
def GroupBy.toJson : GroupBy → Json
  | ⟨keys, having⟩ =>
    .obj
      [("columns", .arr (ColumnKey.toJsonList keys)),
        ("having",
          match having with
          | none => .null
          | some e => e.toJson)]
termination_by structural g => g

/-- The JSON forms of some sort keys. -/
def SortKey.toJsonList : List SortKey → List Json
  | [] => []
  | ⟨column, direction⟩ :: ks =>
    .obj [("column", column.toJson), ("direction", .str direction.tag)] :: SortKey.toJsonList ks
termination_by structural ks => ks

end

/-! ## Statements -/

/-- The JSON form of a `BALANCES` query. -/
def Balances.toJson (b : Balances) : Json :=
  .obj [("summary_func", ofOption .str b.summary),
    ("from_clause", ofOption EntryFilter.toJson b.source),
    ("where_clause", ofOption Expr.toJson b.condition)]

/-- The JSON form of a `JOURNAL` query. -/
def Journal.toJson (j : Journal) : Json :=
  .obj [("account", ofOption .str j.account), ("summary_func", ofOption .str j.summary),
    ("from_clause", ofOption EntryFilter.toJson j.source)]

/-- The JSON form of a `PRINT` query. -/
def Print.toJson (p : Print) : Json :=
  .obj [("from_clause", ofOption EntryFilter.toJson p.source)]

/-- The JSON form of a statement. -/
def Statement.toJson : Statement → Json
  | .select query => tagged "Select" query.toJson
  | .balances query => tagged "Balances" query.toJson
  | .journal query => tagged "Journal" query.toJson
  | .print query => tagged "Print" query.toJson

end LedgerQuery
