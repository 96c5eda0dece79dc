import LedgerQuery.Proofs.Tree.Parts

/-!
# Trees up to spans

`unspanned` forgets where the targets of a query were read from, and nothing else.  Statements are identical apart
from target spans if they are equal without them.
-/

namespace LedgerQuery

mutual

/-- An expression without the spans of targets. -/
def Expr.unspanned : Expr → Expr
  | .wildcard => .wildcard
  | .column name => .column name
  | .constant value => .constant value
  | .placeholder p => .placeholder p
  | .function name args => .function name (Expr.unspannedList args)
  | .attribute operand name => .attribute operand.unspanned name
  | .subscript operand key => .subscript operand.unspanned key
  | .unary op operand => .unary op operand.unspanned
  | .binary left op right => .binary left.unspanned op right.unspanned
  | .bool op args => .bool op (Expr.unspannedList args)
  | .between operand lower upper => .between operand.unspanned lower.unspanned upper.unspanned
  | .subselect query => .subselect query.unspanned
termination_by structural e => e

/-- Some expressions without the spans of targets. -/
def Expr.unspannedList : List Expr → List Expr
  | [] => []
  | e :: es => e.unspanned :: Expr.unspannedList es
termination_by structural es => es

/-- An optional expression without the spans of targets. -/
def Expr.unspannedOption : Option Expr → Option Expr
  | none => none
  | some e => some e.unspanned
termination_by structural e => e

/-- A query without the spans of targets. -/
def Select.unspanned : Select → Select
  | ⟨targets, distinct, source, condition, groupBy, orderBy, pivotBy, limit⟩ =>
    ⟨targets.unspanned, distinct, Source.unspannedOption source, Expr.unspannedOption condition,
      GroupBy.unspannedOption groupBy, SortKey.unspannedOption orderBy, pivotBy, limit⟩
termination_by structural s => s

/-- The targets of a query without their spans. -/
def Targets.unspanned : Targets → Targets
  | .all => .all
  | .list items => .list (Target.unspannedList items)
termination_by structural t => t

/-- Some targets without their spans. -/
def Target.unspannedList : List Target → List Target
  | [] => []
  | ⟨e, name, _⟩ :: ts => ⟨e.unspanned, name, none⟩ :: Target.unspannedList ts
termination_by structural ts => ts

/-- A source without the spans of targets. -/
def Source.unspanned : Source → Source
  | .table name => .table name
  | .query select => .query select.unspanned
  | .entries filter => .entries filter.unspanned
termination_by structural s => s

/-- An optional source without the spans of targets. -/
def Source.unspannedOption : Option Source → Option Source
  | none => none
  | some s => some s.unspanned
termination_by structural s => s

/-- A filter on entries without the spans of targets. -/
def EntryFilter.unspanned : EntryFilter → EntryFilter
  | ⟨expression, openOn, close, clear⟩ => ⟨Expr.unspannedOption expression, openOn, close, clear⟩
termination_by structural f => f

/-- A key without the spans of targets. -/
def ColumnKey.unspanned : ColumnKey → ColumnKey
  | .index n => .index n
  | .expr e => .expr e.unspanned
termination_by structural k => k

/-- Some keys without the spans of targets. -/
def ColumnKey.unspannedList : List ColumnKey → List ColumnKey
  | [] => []
  | k :: ks => k.unspanned :: ColumnKey.unspannedList ks
termination_by structural ks => ks

/-- A grouping without the spans of targets. -/
def GroupBy.unspanned : GroupBy → GroupBy
  | ⟨keys, having⟩ => ⟨ColumnKey.unspannedList keys, Expr.unspannedOption having⟩
termination_by structural g => g

/-- An optional grouping without the spans of targets. -/
def GroupBy.unspannedOption : Option GroupBy → Option GroupBy
  | none => none
  | some g => some g.unspanned
termination_by structural g => g

/-- Some sort keys without the spans of targets. -/
def SortKey.unspannedList : List SortKey → List SortKey
  | [] => []
  | ⟨column, direction⟩ :: ks => ⟨column.unspanned, direction⟩ :: SortKey.unspannedList ks
termination_by structural ks => ks

/-- Optional sort keys without the spans of targets. -/
def SortKey.unspannedOption : Option (List SortKey) → Option (List SortKey)
  | none => none
  | some ks => some (SortKey.unspannedList ks)
termination_by structural ks => ks

end

/-- A target without its span. -/
def Target.unspanned (t : Target) : Target := ⟨t.expr.unspanned, t.name, none⟩

/-- A sort key without the spans of targets. -/
def SortKey.unspanned (k : SortKey) : SortKey := ⟨k.column.unspanned, k.direction⟩

/-- A statement without the spans of targets. -/
def Statement.unspanned : Statement → Statement
  | .select query => .select query.unspanned
  | .balances ⟨summary, source, condition⟩ =>
    .balances ⟨summary, source.map EntryFilter.unspanned, condition.map Expr.unspanned⟩
  | .journal ⟨account, summary, source⟩ => .journal ⟨account, summary, source.map EntryFilter.unspanned⟩
  | .print ⟨source⟩ => .print ⟨source.map EntryFilter.unspanned⟩

/-! ## Lists and clauses -/

theorem Expr.unspannedList_eq_map (es : List Expr) : Expr.unspannedList es = es.map Expr.unspanned := by
  induction es with
  | nil => rfl
  | cons e es ih => rw [Expr.unspannedList, ih, List.map_cons]

theorem Expr.unspannedOption_eq_map (o : Option Expr) : Expr.unspannedOption o = o.map Expr.unspanned := by
  cases o <;> rfl

theorem ColumnKey.unspannedList_eq_map (ks : List ColumnKey) :
    ColumnKey.unspannedList ks = ks.map ColumnKey.unspanned := by
  induction ks with
  | nil => rfl
  | cons k ks ih => rw [ColumnKey.unspannedList, ih, List.map_cons]

theorem Target.unspannedList_eq_map (ts : List Target) : Target.unspannedList ts = ts.map Target.unspanned := by
  induction ts with
  | nil => rfl
  | cons t ts ih =>
    obtain ⟨e, name, span⟩ := t
    rw [Target.unspannedList, ih, List.map_cons]
    rfl

theorem SortKey.unspannedList_eq_map (ks : List SortKey) :
    SortKey.unspannedList ks = ks.map SortKey.unspanned := by
  induction ks with
  | nil => rfl
  | cons k ks ih =>
    obtain ⟨column, direction⟩ := k
    rw [SortKey.unspannedList, ih, List.map_cons]
    rfl

theorem EntryFilter.unspanned_eq (f : EntryFilter) :
    f.unspanned = ⟨f.expression.map Expr.unspanned, f.openOn, f.close, f.clear⟩ := by
  obtain ⟨expression, openOn, close, clear⟩ := f
  rw [EntryFilter.unspanned, Expr.unspannedOption_eq_map]

theorem GroupBy.unspanned_eq (g : GroupBy) :
    g.unspanned = ⟨g.keys.map ColumnKey.unspanned, g.having.map Expr.unspanned⟩ := by
  obtain ⟨keys, having⟩ := g
  rw [GroupBy.unspanned, ColumnKey.unspannedList_eq_map, Expr.unspannedOption_eq_map]

/-- A query without the spans of targets, clause by clause. -/
theorem Select.unspanned_eq (s : Select) :
    s.unspanned = ⟨s.targets.unspanned, s.distinct, s.source.map Source.unspanned, s.condition.map Expr.unspanned,
      s.groupBy.map GroupBy.unspanned, s.orderBy.map (List.map SortKey.unspanned), s.pivotBy, s.limit⟩ := by
  obtain ⟨targets, distinct, source, condition, groupBy, orderBy, pivotBy, limit⟩ := s
  have hsource : Source.unspannedOption source = source.map Source.unspanned := by cases source <;> rfl
  have hgroup : GroupBy.unspannedOption groupBy = groupBy.map GroupBy.unspanned := by cases groupBy <;> rfl
  have horder : SortKey.unspannedOption orderBy = orderBy.map (List.map SortKey.unspanned) := by
    cases orderBy with
    | none => rfl
    | some keys => rw [SortKey.unspannedOption, SortKey.unspannedList_eq_map, Option.map_some]
  rw [Select.unspanned, Expr.unspannedOption_eq_map, hsource, hgroup, horder]

end LedgerQuery
