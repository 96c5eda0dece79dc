import LedgerQuery.Query.Basic

/-!
# The expressions of a query in order

Every expression of a query, each after the expressions it holds, and otherwise
in the order of the text.  The expressions inside subselects are among them.
-/

namespace LedgerQuery

mutual

/-- An expression and all that it holds, itself last. -/
def Expr.postorder : Expr → List Expr
  | .function name args => Expr.postorderOfList args ++ [.function name args]
  | .attribute operand name => operand.postorder ++ [.attribute operand name]
  | .subscript operand key => operand.postorder ++ [.subscript operand key]
  | .unary op operand => operand.postorder ++ [.unary op operand]
  | .binary left op right => left.postorder ++ right.postorder ++ [.binary left op right]
  | .bool op args => Expr.postorderOfList args ++ [.bool op args]
  | .between operand lower upper =>
    operand.postorder ++ lower.postorder ++ upper.postorder ++ [.between operand lower upper]
  | .subselect query => query.exprs ++ [.subselect query]
  | .wildcard => [.wildcard]
  | .column name => [.column name]
  | .constant value => [.constant value]
  | .placeholder p => [.placeholder p]
termination_by structural e => e

/-- Some expressions and all that they hold. -/
def Expr.postorderOfList : List Expr → List Expr
  | [] => []
  | e :: es => e.postorder ++ Expr.postorderOfList es
termination_by structural es => es

/-- The expressions of a query, clause by clause. -/
def Select.exprs : Select → List Expr
  | ⟨targets, _, source, condition, groupBy, orderBy, _, _⟩ =>
    targets.exprs ++
      (match source with
        | none => []
        | some s => s.exprs) ++
      (match condition with
        | none => []
        | some e => e.postorder) ++
      (match groupBy with
        | none => []
        | some g => g.exprs) ++
      (match orderBy with
        | none => []
        | some keys => SortKey.exprsOfList keys)
termination_by structural s => s

/-- The expressions of the targets of a query. -/
def Targets.exprs : Targets → List Expr
  | .all => []
  | .list items => Target.exprsOfList items
termination_by structural t => t

/-- The expressions of some targets. -/
def Target.exprsOfList : List Target → List Expr
  | [] => []
  | ⟨e, _, _⟩ :: ts => e.postorder ++ Target.exprsOfList ts
termination_by structural ts => ts

/-- The expressions of a source. -/
def Source.exprs : Source → List Expr
  | .table _ => []
  | .query select => select.exprs
  | .entries filter => filter.exprs
termination_by structural s => s

/-- The expressions of a filter on entries. -/
def EntryFilter.exprs : EntryFilter → List Expr
  | ⟨expression, _, _, _⟩ =>
    match expression with
    | none => []
    | some e => e.postorder
termination_by structural f => f

/-- The expressions of a key. -/
def ColumnKey.exprs : ColumnKey → List Expr
  | .index _ => []
  | .expr e => e.postorder
termination_by structural k => k

/-- The expressions of some keys. -/
def ColumnKey.exprsOfList : List ColumnKey → List Expr
  | [] => []
  | k :: ks => k.exprs ++ ColumnKey.exprsOfList ks
termination_by structural ks => ks

/-- The expressions of a grouping. -/
def GroupBy.exprs : GroupBy → List Expr
  | ⟨keys, having⟩ =>
    ColumnKey.exprsOfList keys ++
      match having with
      | none => []
      | some e => e.postorder
termination_by structural g => g

/-- The expressions of some sort keys. -/
def SortKey.exprsOfList : List SortKey → List Expr
  | [] => []
  | ⟨column, _⟩ :: ks => column.exprs ++ SortKey.exprsOfList ks
termination_by structural ks => ks

end

/-- The expressions of a filter on entries, if there is one. -/
def shorthandSourceExprs (source : Option EntryFilter) : List Expr :=
  (source.map EntryFilter.exprs).getD []

/-- The expressions of a statement, each after those it holds. -/
def Statement.exprs : Statement → List Expr
  | .select query => query.exprs
  | .balances query =>
    shorthandSourceExprs query.source ++ (query.condition.map Expr.postorder).getD []
  | .journal query => shorthandSourceExprs query.source
  | .print query => shorthandSourceExprs query.source

/-- The parameter an expression is, if it is one. -/
def Expr.placeholder? : Expr → Option Placeholder
  | .placeholder p => some p
  | _ => none

/-- The parameters of a statement, in order. -/
def Statement.placeholders (s : Statement) : List Placeholder :=
  s.exprs.filterMap Expr.placeholder?

end LedgerQuery
