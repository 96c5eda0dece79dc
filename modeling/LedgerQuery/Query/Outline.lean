import LedgerQuery.Outline
import LedgerQuery.Query.Written

/-!
# Outlines of queries

Every expression, query and clause is a node named for what it is, with its
parts as fields.  A part that is absent has no field.  Constants stand in their
written form, and names and keys between single quotes.
-/

namespace LedgerQuery

/-- The field of a part, if the part is there. -/
def Outline.field (name : String) (part : Option Outline) : List (String × Outline) :=
  (part.map fun o => (name, o)).toList

open Outline (field quoted)

/-- The text of a constant, as an outline. -/
def Constant.outline (c : Constant) : Outline := .atom (Piece.textOf c.pieces)

/-- A number of a target or of rows, as an outline. -/
def numberOutline (n : UInt64) : Outline := .atom (toString n.toNat)

/-- A mark, as an outline, if it is set. -/
def flagOutline (set : Bool) : Option Outline := if set then some (.atom "true") else none

/-- The outline of a pivot key. -/
def PivotKey.outline : PivotKey → Outline
  | .index n => numberOutline n
  | .column name => .node "column" [("name", quoted name)]

/-- The outline of a pivot. -/
def PivotBy.outline (p : PivotBy) : Outline :=
  .node "pivotby" [("columns", .list [p.row.outline, p.column.outline])]

/-- The outline of a closing date. -/
def Closing.outline : Closing → Outline
  | .default => .atom "default"
  | .on d => .atom d.text

/-- The outline of a direction. -/
def SortDirection.outline : SortDirection → Outline
  | .ascending => .atom "asc"
  | .descending => .atom "desc"

mutual

/-- The outline of an expression. -/
def Expr.outline : Expr → Outline
  | .wildcard => .atom "*"
  | .column name => .node "column" [("name", quoted name)]
  | .constant value => .node "constant" [("value", value.outline)]
  | .placeholder .positional => .node "placeholder" []
  | .placeholder (.named name) => .node "placeholder" [("name", quoted name)]
  | .function name args =>
    .node "function" [("name", quoted name), ("args", .list (Expr.outlines args))]
  | .attribute operand name =>
    .node "attribute" [("operand", operand.outline), ("name", quoted name)]
  | .subscript operand key =>
    .node "subscript" [("operand", operand.outline), ("key", quoted key)]
  | .unary op operand => .node op.name [("operand", operand.outline)]
  | .binary left op right => .node op.name [("left", left.outline), ("right", right.outline)]
  | .bool op args => .node op.name [("args", .list (Expr.outlines args))]
  | .between operand lower upper =>
    .node "between"
      [("operand", operand.outline), ("lower", lower.outline), ("upper", upper.outline)]
  | .subselect query => query.outline
termination_by structural e => e

/-- The outlines of some expressions. -/
def Expr.outlines : List Expr → List Outline
  | [] => []
  | e :: es => e.outline :: Expr.outlines es
termination_by structural es => es

/-- The outline of a query. -/
def Select.outline : Select → Outline
  | ⟨targets, distinct, source, condition, groupBy, orderBy, pivotBy, limit⟩ =>
    .node "select"
      (("targets", targets.outline) :: field "distinct" (flagOutline distinct) ++
        field "from-clause"
          (match source with
            | none => none
            | some s => some s.outline) ++
        field "where-clause"
          (match condition with
            | none => none
            | some e => some e.outline) ++
        field "group-by"
          (match groupBy with
            | none => none
            | some g => some g.outline) ++
        field "order-by"
          (match orderBy with
            | none => none
            | some keys => some (.list (SortKey.outlines keys))) ++
        field "pivot-by" (pivotBy.map PivotBy.outline) ++
        field "limit" (limit.map numberOutline))
termination_by structural s => s

/-- The outline of the targets of a query. -/
def Targets.outline : Targets → Outline
  | .all => .atom "*"
  | .list items => .list (Target.outlines items)
termination_by structural t => t

/-- The outlines of some targets. -/
def Target.outlines : List Target → List Outline
  | [] => []
  | ⟨e, name, _⟩ :: ts =>
    .node "target" (("expr", e.outline) :: field "name" (name.map quoted)) :: Target.outlines ts
termination_by structural ts => ts

/-- The outline of a source. -/
def Source.outline : Source → Outline
  | .table name => .node "table" [("name", quoted name)]
  | .query select => select.outline
  | .entries filter => filter.outline
termination_by structural s => s

/-- The outline of a filter on entries. -/
def EntryFilter.outline : EntryFilter → Outline
  | ⟨expression, openOn, close, clear⟩ =>
    .node "from"
      (field "expression"
          (match expression with
            | none => none
            | some e => some e.outline) ++
        field "open" (openOn.map fun d => .atom d.text) ++
        field "close" (close.map Closing.outline) ++ field "clear" (flagOutline clear))
termination_by structural f => f

/-- The outline of a key. -/
def ColumnKey.outline : ColumnKey → Outline
  | .index n => numberOutline n
  | .expr e => e.outline
termination_by structural k => k

/-- The outlines of some keys. -/
def ColumnKey.outlines : List ColumnKey → List Outline
  | [] => []
  | k :: ks => k.outline :: ColumnKey.outlines ks
termination_by structural ks => ks

/-- The outline of a grouping. -/
def GroupBy.outline : GroupBy → Outline
  | ⟨keys, having⟩ =>
    .node "groupby"
      (("columns", .list (ColumnKey.outlines keys)) ::
        field "having"
          (match having with
            | none => none
            | some e => some e.outline))
termination_by structural g => g

/-- The outlines of some sort keys. -/
def SortKey.outlines : List SortKey → List Outline
  | [] => []
  | ⟨column, direction⟩ :: ks =>
    .node "orderby" [("column", column.outline), ("direction", direction.outline)] ::
      SortKey.outlines ks
termination_by structural ks => ks

end

/-- The outline of a `BALANCES` query. -/
def Balances.outline (b : Balances) : Outline :=
  .node "balances"
    (field "summary-func" (b.summary.map quoted) ++
      field "from-clause" (b.source.map EntryFilter.outline) ++
      field "where-clause" (b.condition.map Expr.outline))

/-- The outline of a `JOURNAL` query. -/
def Journal.outline (j : Journal) : Outline :=
  .node "journal"
    (field "account" (j.account.map quoted) ++ field "summary-func" (j.summary.map quoted) ++
      field "from-clause" (j.source.map EntryFilter.outline))

/-- The outline of a `PRINT` query. -/
def Print.outline (p : Print) : Outline :=
  .node "print" (field "from-clause" (p.source.map EntryFilter.outline))

/-- The outline of a statement. -/
def Statement.outline : Statement → Outline
  | .select query => query.outline
  | .balances query => query.outline
  | .journal query => query.outline
  | .print query => query.outline

end LedgerQuery
