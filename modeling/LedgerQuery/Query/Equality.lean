import LedgerQuery.Query.Basic

/-!
# Equality of queries

Whether two trees are equal is decided by going through both at once
(`Expr.beq_iff` and its companions), which gives every type of trees decidable
equality.

Two trees mean the same query when they are equal up to two things: the spans
of their targets, and the places that decimals are written with.  `plain`
forgets both, and `Same` compares what is left.
-/

namespace LedgerQuery

/-! ## Deciding equality -/

mutual

/-- Whether two expressions are equal. -/
def Expr.beq : Expr → Expr → Bool
  | .wildcard, .wildcard => true
  | .column a, .column b => a == b
  | .constant a, .constant b => a == b
  | .placeholder a, .placeholder b => a == b
  | .function a as, .function b bs => a == b && Expr.beqList as bs
  | .attribute a n, .attribute b m => a.beq b && n == m
  | .subscript a k, .subscript b l => a.beq b && k == l
  | .unary o a, .unary p b => o == p && a.beq b
  | .binary a o b, .binary c p d => a.beq c && o == p && b.beq d
  | .bool o as, .bool p bs => o == p && Expr.beqList as bs
  | .between a b c, .between d e f => a.beq d && b.beq e && c.beq f
  | .subselect a, .subselect b => a.beq b
  | _, _ => false
termination_by structural e => e

/-- Whether two lists of expressions are equal. -/
def Expr.beqList : List Expr → List Expr → Bool
  | [], [] => true
  | a :: as, b :: bs => a.beq b && Expr.beqList as bs
  | _, _ => false
termination_by structural es => es

/-- Whether two optional expressions are equal. -/
def Expr.beqOption : Option Expr → Option Expr → Bool
  | none, none => true
  | some a, some b => a.beq b
  | _, _ => false
termination_by structural e => e

/-- Whether two queries are equal. -/
def Select.beq : Select → Select → Bool
  | ⟨t, d, s, c, g, o, p, l⟩, ⟨t', d', s', c', g', o', p', l'⟩ =>
    t.beq t' && d == d' && Source.beqOption s s' && Expr.beqOption c c' &&
      GroupBy.beqOption g g' && SortKey.beqOption o o' && p == p' && l == l'
termination_by structural s => s

/-- Whether the targets of two queries are equal. -/
def Targets.beq : Targets → Targets → Bool
  | .all, .all => true
  | .list ts, .list us => Target.beqList ts us
  | _, _ => false
termination_by structural t => t

/-- Whether two lists of targets are equal. -/
def Target.beqList : List Target → List Target → Bool
  | [], [] => true
  | ⟨e, n, s⟩ :: ts, ⟨f, m, t⟩ :: us => e.beq f && n == m && s == t && Target.beqList ts us
  | _, _ => false
termination_by structural ts => ts

/-- Whether two sources are equal. -/
def Source.beq : Source → Source → Bool
  | .table n, .table m => n == m
  | .query a, .query b => a.beq b
  | .entries f, .entries g => f.beq g
  | _, _ => false
termination_by structural s => s

/-- Whether two optional sources are equal. -/
def Source.beqOption : Option Source → Option Source → Bool
  | none, none => true
  | some a, some b => a.beq b
  | _, _ => false
termination_by structural s => s

/-- Whether two filters on entries are equal. -/
def EntryFilter.beq : EntryFilter → EntryFilter → Bool
  | ⟨e, o, c, l⟩, ⟨e', o', c', l'⟩ => Expr.beqOption e e' && o == o' && c == c' && l == l'
termination_by structural f => f

/-- Whether two keys are equal. -/
def ColumnKey.beq : ColumnKey → ColumnKey → Bool
  | .index n, .index m => n == m
  | .expr e, .expr f => e.beq f
  | _, _ => false
termination_by structural k => k

/-- Whether two lists of keys are equal. -/
def ColumnKey.beqList : List ColumnKey → List ColumnKey → Bool
  | [], [] => true
  | a :: as, b :: bs => a.beq b && ColumnKey.beqList as bs
  | _, _ => false
termination_by structural ks => ks

/-- Whether two groupings are equal. -/
def GroupBy.beq : GroupBy → GroupBy → Bool
  | ⟨ks, h⟩, ⟨ks', h'⟩ => ColumnKey.beqList ks ks' && Expr.beqOption h h'
termination_by structural g => g

/-- Whether two optional groupings are equal. -/
def GroupBy.beqOption : Option GroupBy → Option GroupBy → Bool
  | none, none => true
  | some a, some b => a.beq b
  | _, _ => false
termination_by structural g => g

/-- Whether two lists of sort keys are equal. -/
def SortKey.beqList : List SortKey → List SortKey → Bool
  | [], [] => true
  | ⟨k, d⟩ :: as, ⟨l, e⟩ :: bs => k.beq l && d == e && SortKey.beqList as bs
  | _, _ => false
termination_by structural ks => ks

/-- Whether two optional lists of sort keys are equal. -/
def SortKey.beqOption : Option (List SortKey) → Option (List SortKey) → Bool
  | none, none => true
  | some a, some b => SortKey.beqList a b
  | _, _ => false
termination_by structural ks => ks

end

mutual

theorem Expr.beq_iff : ∀ a b : Expr, a.beq b = true ↔ a = b
  | .wildcard, b => by cases b <;> simp [Expr.beq]
  | .column _, b => by cases b <;> simp [Expr.beq]
  | .constant _, b => by cases b <;> simp [Expr.beq]
  | .placeholder _, b => by cases b <;> simp [Expr.beq]
  | .function _ as, b => by cases b <;> simp [Expr.beq, Expr.beqList_iff as]
  | .attribute a _, b => by cases b <;> simp [Expr.beq, Expr.beq_iff a]
  | .subscript a _, b => by cases b <;> simp [Expr.beq, Expr.beq_iff a]
  | .unary _ a, b => by cases b <;> simp [Expr.beq, Expr.beq_iff a]
  | .binary a _ c, b => by
    cases b <;> simp [Expr.beq, Expr.beq_iff a, Expr.beq_iff c, and_assoc]
  | .bool _ as, b => by cases b <;> simp [Expr.beq, Expr.beqList_iff as]
  | .between a c d, b => by
    cases b <;> simp [Expr.beq, Expr.beq_iff a, Expr.beq_iff c, Expr.beq_iff d, and_assoc]
  | .subselect a, b => by cases b <;> simp [Expr.beq, Select.beq_iff a]
termination_by structural a => a

theorem Expr.beqList_iff : ∀ as bs : List Expr, Expr.beqList as bs = true ↔ as = bs
  | [], bs => by cases bs <;> simp [Expr.beqList]
  | a :: as, bs => by cases bs <;> simp [Expr.beqList, Expr.beq_iff a, Expr.beqList_iff as]
termination_by structural as => as

theorem Expr.beqOption_iff : ∀ a b : Option Expr, Expr.beqOption a b = true ↔ a = b
  | none, b => by cases b <;> simp [Expr.beqOption]
  | some a, b => by cases b <;> simp [Expr.beqOption, Expr.beq_iff a]
termination_by structural a => a

theorem Select.beq_iff : ∀ a b : Select, a.beq b = true ↔ a = b
  | ⟨t, _, s, c, g, o, _, _⟩, ⟨_, _, _, _, _, _, _, _⟩ => by
    simp [Select.beq, Targets.beq_iff t, Source.beqOption_iff s, Expr.beqOption_iff c,
      GroupBy.beqOption_iff g, SortKey.beqOption_iff o, and_assoc]
termination_by structural a => a

theorem Targets.beq_iff : ∀ a b : Targets, a.beq b = true ↔ a = b
  | .all, b => by cases b <;> simp [Targets.beq]
  | .list ts, b => by cases b <;> simp [Targets.beq, Target.beqList_iff ts]
termination_by structural a => a

theorem Target.beqList_iff : ∀ as bs : List Target, Target.beqList as bs = true ↔ as = bs
  | [], bs => by cases bs <;> simp [Target.beqList]
  | ⟨e, _, _⟩ :: as, bs => by
    cases bs with
    | nil => simp [Target.beqList]
    | cons b bs =>
      cases b
      simp [Target.beqList, Expr.beq_iff e, Target.beqList_iff as, and_assoc]
termination_by structural as => as

theorem Source.beq_iff : ∀ a b : Source, a.beq b = true ↔ a = b
  | .table _, b => by cases b <;> simp [Source.beq]
  | .query a, b => by cases b <;> simp [Source.beq, Select.beq_iff a]
  | .entries f, b => by cases b <;> simp [Source.beq, EntryFilter.beq_iff f]
termination_by structural a => a

theorem Source.beqOption_iff : ∀ a b : Option Source, Source.beqOption a b = true ↔ a = b
  | none, b => by cases b <;> simp [Source.beqOption]
  | some a, b => by cases b <;> simp [Source.beqOption, Source.beq_iff a]
termination_by structural a => a

theorem EntryFilter.beq_iff : ∀ a b : EntryFilter, a.beq b = true ↔ a = b
  | ⟨e, _, _, _⟩, ⟨_, _, _, _⟩ => by
    simp [EntryFilter.beq, Expr.beqOption_iff e, and_assoc]
termination_by structural a => a

theorem ColumnKey.beq_iff : ∀ a b : ColumnKey, a.beq b = true ↔ a = b
  | .index _, b => by cases b <;> simp [ColumnKey.beq]
  | .expr e, b => by cases b <;> simp [ColumnKey.beq, Expr.beq_iff e]
termination_by structural a => a

theorem ColumnKey.beqList_iff : ∀ as bs : List ColumnKey, ColumnKey.beqList as bs = true ↔ as = bs
  | [], bs => by cases bs <;> simp [ColumnKey.beqList]
  | a :: as, bs => by
    cases bs <;> simp [ColumnKey.beqList, ColumnKey.beq_iff a, ColumnKey.beqList_iff as]
termination_by structural as => as

theorem GroupBy.beq_iff : ∀ a b : GroupBy, a.beq b = true ↔ a = b
  | ⟨ks, h⟩, ⟨_, _⟩ => by
    simp [GroupBy.beq, ColumnKey.beqList_iff ks, Expr.beqOption_iff h]
termination_by structural a => a

theorem GroupBy.beqOption_iff : ∀ a b : Option GroupBy, GroupBy.beqOption a b = true ↔ a = b
  | none, b => by cases b <;> simp [GroupBy.beqOption]
  | some a, b => by cases b <;> simp [GroupBy.beqOption, GroupBy.beq_iff a]
termination_by structural a => a

theorem SortKey.beqList_iff : ∀ as bs : List SortKey, SortKey.beqList as bs = true ↔ as = bs
  | [], bs => by cases bs <;> simp [SortKey.beqList]
  | ⟨k, _⟩ :: as, bs => by
    cases bs with
    | nil => simp [SortKey.beqList]
    | cons b bs =>
      cases b
      simp [SortKey.beqList, ColumnKey.beq_iff k, SortKey.beqList_iff as]
termination_by structural as => as

theorem SortKey.beqOption_iff :
    ∀ a b : Option (List SortKey), SortKey.beqOption a b = true ↔ a = b
  | none, b => by cases b <;> simp [SortKey.beqOption]
  | some a, b => by cases b <;> simp [SortKey.beqOption, SortKey.beqList_iff a]
termination_by structural a => a

end

instance : DecidableEq Expr := fun a b => decidable_of_iff _ (Expr.beq_iff a b)
instance : DecidableEq Select := fun a b => decidable_of_iff _ (Select.beq_iff a b)
instance : DecidableEq Targets := fun a b => decidable_of_iff _ (Targets.beq_iff a b)
instance : DecidableEq Source := fun a b => decidable_of_iff _ (Source.beq_iff a b)
instance : DecidableEq EntryFilter := fun a b => decidable_of_iff _ (EntryFilter.beq_iff a b)
instance : DecidableEq ColumnKey := fun a b => decidable_of_iff _ (ColumnKey.beq_iff a b)
instance : DecidableEq GroupBy := fun a b => decidable_of_iff _ (GroupBy.beq_iff a b)


instance : DecidableEq Target := fun ⟨e, n, s⟩ ⟨f, m, t⟩ =>
  decidable_of_iff (e = f ∧ n = m ∧ s = t) (by simp)

instance : DecidableEq SortKey := fun ⟨k, d⟩ ⟨l, e⟩ =>
  decidable_of_iff (k = l ∧ d = e) (by simp)

deriving instance DecidableEq for Balances, Journal, Print, Statement

/-! ## Equality up to spans and places -/

/-- A literal with its decimal in the fewest places. -/
def Literal.plain : Literal → Literal
  | .decimal d => .decimal d.reduced
  | l => l

/-- A constant with its decimals in the fewest places. -/
def Constant.plain : Constant → Constant
  | .literal value => .literal value.plain
  | .list items => .list (items.map Literal.plain)

mutual

/-- An expression without spans, and with its decimals in the fewest places. -/
def Expr.plain : Expr → Expr
  | .wildcard => .wildcard
  | .column name => .column name
  | .constant value => .constant value.plain
  | .placeholder p => .placeholder p
  | .function name args => .function name (Expr.plainList args)
  | .attribute operand name => .attribute operand.plain name
  | .subscript operand key => .subscript operand.plain key
  | .unary op operand => .unary op operand.plain
  | .binary left op right => .binary left.plain op right.plain
  | .bool op args => .bool op (Expr.plainList args)
  | .between operand lower upper => .between operand.plain lower.plain upper.plain
  | .subselect query => .subselect query.plain
termination_by structural e => e

/-- Some expressions without spans. -/
def Expr.plainList : List Expr → List Expr
  | [] => []
  | e :: es => e.plain :: Expr.plainList es
termination_by structural es => es

/-- An optional expression without spans. -/
def Expr.plainOption : Option Expr → Option Expr
  | none => none
  | some e => some e.plain
termination_by structural e => e

/-- A query without spans. -/
def Select.plain : Select → Select
  | ⟨targets, distinct, source, condition, groupBy, orderBy, pivotBy, limit⟩ =>
    ⟨targets.plain, distinct, Source.plainOption source, Expr.plainOption condition,
      GroupBy.plainOption groupBy, SortKey.plainOption orderBy, pivotBy, limit⟩
termination_by structural s => s

/-- The targets of a query without spans. -/
def Targets.plain : Targets → Targets
  | .all => .all
  | .list items => .list (Target.plainList items)
termination_by structural t => t

/-- Some targets without spans. -/
def Target.plainList : List Target → List Target
  | [] => []
  | ⟨e, name, _⟩ :: ts => ⟨e.plain, name, none⟩ :: Target.plainList ts
termination_by structural ts => ts

/-- A source without spans. -/
def Source.plain : Source → Source
  | .table name => .table name
  | .query select => .query select.plain
  | .entries filter => .entries filter.plain
termination_by structural s => s

/-- An optional source without spans. -/
def Source.plainOption : Option Source → Option Source
  | none => none
  | some s => some s.plain
termination_by structural s => s

/-- A filter on entries without spans. -/
def EntryFilter.plain : EntryFilter → EntryFilter
  | ⟨expression, openOn, close, clear⟩ => ⟨Expr.plainOption expression, openOn, close, clear⟩
termination_by structural f => f

/-- A key without spans. -/
def ColumnKey.plain : ColumnKey → ColumnKey
  | .index n => .index n
  | .expr e => .expr e.plain
termination_by structural k => k

/-- Some keys without spans. -/
def ColumnKey.plainList : List ColumnKey → List ColumnKey
  | [] => []
  | k :: ks => k.plain :: ColumnKey.plainList ks
termination_by structural ks => ks

/-- A grouping without spans. -/
def GroupBy.plain : GroupBy → GroupBy
  | ⟨keys, having⟩ => ⟨ColumnKey.plainList keys, Expr.plainOption having⟩
termination_by structural g => g

/-- An optional grouping without spans. -/
def GroupBy.plainOption : Option GroupBy → Option GroupBy
  | none => none
  | some g => some g.plain
termination_by structural g => g

/-- Some sort keys without spans. -/
def SortKey.plainList : List SortKey → List SortKey
  | [] => []
  | ⟨column, direction⟩ :: ks => ⟨column.plain, direction⟩ :: SortKey.plainList ks
termination_by structural ks => ks

/-- Optional sort keys without spans. -/
def SortKey.plainOption : Option (List SortKey) → Option (List SortKey)
  | none => none
  | some ks => some (SortKey.plainList ks)
termination_by structural ks => ks

end

/-- A statement without spans, and with its decimals in the fewest places. -/
def Statement.plain : Statement → Statement
  | .select query => .select query.plain
  | .balances ⟨summary, source, condition⟩ =>
    .balances ⟨summary, source.map EntryFilter.plain, condition.map Expr.plain⟩
  | .journal ⟨account, summary, source⟩ =>
    .journal ⟨account, summary, source.map EntryFilter.plain⟩
  | .print ⟨source⟩ => .print ⟨source.map EntryFilter.plain⟩

/-- Two statements are the same query. -/
def Statement.Same (a b : Statement) : Prop := a.plain = b.plain

instance (a b : Statement) : Decidable (a.Same b) :=
  inferInstanceAs (Decidable (a.plain = b.plain))

end LedgerQuery
