import LedgerQuery.Proofs.Tree.Parts
import LedgerQuery.Proofs.Written.Pieces

/-!
# Levels

The levels of a tree are how deep its written form is nested.  A level is a pair of
parentheses around an expression or a query, the argument of a call, a sign or `NOT`, and
every expression that a clause holds.
-/

namespace LedgerQuery

/-- The levels of an expression at a place that asks for some strength. -/
def nesting (strength least levels : Nat) : Nat := if strength < least then levels + 1 else levels

mutual

/-- The levels of an expression. -/
def Expr.levels : Expr → Nat
  | .wildcard | .column _ | .constant _ | .placeholder _ => 0
  | .function _ args => Expr.levelsOfArguments args
  | .attribute x _ | .subscript x _ => x.levels
  | .unary op x =>
    match op with
    | .not => nesting x.strength 3 x.levels + 1
    | .neg => nesting x.strength 7 x.levels + 1
    | .isNull | .isNotNull => nesting x.strength 5 x.levels
  | .binary left op right =>
    let strength := (Expr.binary left op right).strength
    max (nesting left.strength (if strength = 4 then 5 else strength) left.levels)
      (nesting right.strength (strength + 1) right.levels)
  | .bool op args => Expr.levelsOfList ((Expr.bool op args).strength + 1) args
  | .between x lower upper =>
    max (nesting x.strength 5 x.levels)
      (max (nesting lower.strength 5 lower.levels) (nesting upper.strength 5 upper.levels))
  | .subselect s => s.levels + 2
termination_by structural e => e

/-- The levels of the arguments of a call. -/
def Expr.levelsOfArguments : List Expr → Nat
  | [] => 0
  | e :: es =>
    max (match e with
      | .wildcard => 0
      | e => e.levels + 1) (Expr.levelsOfArguments es)
termination_by structural es => es

/-- The levels of operands at places that ask for some strength. -/
def Expr.levelsOfList (least : Nat) : List Expr → Nat
  | [] => 0
  | e :: es => max (nesting e.strength least e.levels) (Expr.levelsOfList least es)
termination_by structural es => es

/-- The levels of an expression one level deeper, if there is one. -/
def Expr.levelsOfOption : Option Expr → Nat
  | none => 0
  | some e => e.levels + 1
termination_by structural o => o

/-- The levels of a query. -/
def Select.levels : Select → Nat
  | ⟨targets, _, source, condition, groupBy, orderBy, _, _⟩ =>
    max targets.levels (max (Source.levelsOfOption source) (max (Expr.levelsOfOption condition)
      (max (GroupBy.levelsOfOption groupBy) (SortKey.levelsOfOption orderBy))))
termination_by structural s => s

/-- The levels of targets. -/
def Targets.levels : Targets → Nat
  | .all => 0
  | .list items => Target.levelsOfList items
termination_by structural t => t

/-- The levels of a list of targets. -/
def Target.levelsOfList : List Target → Nat
  | [] => 0
  | ⟨e, _, _⟩ :: ts => max (e.levels + 1) (Target.levelsOfList ts)
termination_by structural ts => ts

/-- The levels of a source, if there is one. -/
def Source.levelsOfOption : Option Source → Nat
  | none => 0
  | some a => a.levels
termination_by structural o => o

/-- The levels of a source. -/
def Source.levels : Source → Nat
  | .table _ => 0
  | .query s => s.levels + 1
  | .entries f => f.levels
termination_by structural a => a

/-- The levels of a filter. -/
def EntryFilter.levels : EntryFilter → Nat
  | ⟨expression, _, _, _⟩ => Expr.levelsOfOption expression
termination_by structural f => f

/-- The levels of a key; an integer literal stands in parentheses. -/
def ColumnKey.levels : ColumnKey → Nat
  | .index _ => 0
  | .expr e =>
    match e with
    | .constant (.literal (.integer _)) => 2
    | e => e.levels + 1
termination_by structural k => k

/-- The levels of a list of keys. -/
def ColumnKey.levelsOfList : List ColumnKey → Nat
  | [] => 0
  | k :: ks => max k.levels (ColumnKey.levelsOfList ks)
termination_by structural ks => ks

/-- The levels of a grouping, if there is one. -/
def GroupBy.levelsOfOption : Option GroupBy → Nat
  | none => 0
  | some g => g.levels
termination_by structural o => o

/-- The levels of a grouping. -/
def GroupBy.levels : GroupBy → Nat
  | ⟨keys, having⟩ => max (ColumnKey.levelsOfList keys) (Expr.levelsOfOption having)
termination_by structural g => g

/-- The levels of sort keys, if there are any. -/
def SortKey.levelsOfOption : Option (List SortKey) → Nat
  | none => 0
  | some ks => SortKey.levelsOfList ks
termination_by structural o => o

/-- The levels of a list of sort keys. -/
def SortKey.levelsOfList : List SortKey → Nat
  | [] => 0
  | ⟨k, _⟩ :: ks => max k.levels (SortKey.levelsOfList ks)
termination_by structural ks => ks

end

/-- The levels of a statement: the limit its written form needs. -/
def Statement.levels : Statement → Nat
  | .select s => s.levels + 1
  | .balances b => max ((b.source.map EntryFilter.levels).getD 0) (Expr.levelsOfOption b.condition)
  | .journal j => (j.source.map EntryFilter.levels).getD 0
  | .print p => (p.source.map EntryFilter.levels).getD 0

/-! ## How many levels are enough -/

section
variable {k : Nat}

theorem Expr.levelsOfArguments_le_iff {args : List Expr} :
    Expr.levelsOfArguments args ≤ k ↔ ∀ e ∈ args, e ≠ .wildcard → e.levels + 1 ≤ k := by
  induction args with
  | nil => simp [Expr.levelsOfArguments]
  | cons e args ih =>
    by_cases he : e = .wildcard
    · subst he
      rw [Expr.levelsOfArguments.eq_2, Nat.zero_max, ih]
      simp
    · rw [Expr.levelsOfArguments.eq_3 _ _ he, Nat.max_le, ih, List.forall_mem_cons]
      simp [he]

theorem Expr.levelsOfList_le_iff {least : Nat} {es : List Expr} :
    Expr.levelsOfList least es ≤ k ↔ ∀ e ∈ es, nesting e.strength least e.levels ≤ k := by
  induction es with
  | nil => simp [Expr.levelsOfList]
  | cons e es ih => rw [Expr.levelsOfList, Nat.max_le, ih, List.forall_mem_cons]

theorem Expr.levels_function_le_iff {n : String} {args : List Expr} :
    (Expr.function n args).levels ≤ k ↔ ∀ e ∈ args, e ≠ .wildcard → e.levels + 1 ≤ k := by
  rw [Expr.levels, Expr.levelsOfArguments_le_iff]

theorem Expr.levels_bool_le_iff {op : BoolOp} {args : List Expr} : (Expr.bool op args).levels ≤ k ↔
    ∀ e ∈ args, nesting e.strength ((Expr.bool op args).strength + 1) e.levels ≤ k := by
  rw [Expr.levels, Expr.levelsOfList_le_iff]

theorem Expr.levelsOfOption_le_iff {o : Option Expr} :
    Expr.levelsOfOption o ≤ k ↔ ∀ e ∈ o, e.levels + 1 ≤ k := by
  cases o <;> simp [Expr.levelsOfOption]

theorem Target.levelsOfList_le_iff {ts : List Target} :
    Target.levelsOfList ts ≤ k ↔ ∀ t ∈ ts, t.expr.levels + 1 ≤ k := by
  induction ts with
  | nil => simp [Target.levelsOfList]
  | cons t ts ih =>
    obtain ⟨e, name, span⟩ := t
    rw [Target.levelsOfList, Nat.max_le, ih, List.forall_mem_cons]

theorem ColumnKey.levelsOfList_le_iff {keys : List ColumnKey} :
    ColumnKey.levelsOfList keys ≤ k ↔ ∀ key ∈ keys, key.levels ≤ k := by
  induction keys with
  | nil => simp [ColumnKey.levelsOfList]
  | cons key keys ih => rw [ColumnKey.levelsOfList, Nat.max_le, ih, List.forall_mem_cons]

theorem ColumnKey.levels_expr {e : Expr} (he : ∀ n, e ≠ .literal (.integer n)) :
    (ColumnKey.expr e).levels = e.levels + 1 := by
  unfold ColumnKey.levels
  split
  · exact absurd rfl (he _)
  · rfl

theorem SortKey.levelsOfList_le_iff {keys : List SortKey} :
    SortKey.levelsOfList keys ≤ k ↔ ∀ key ∈ keys, key.column.levels ≤ k := by
  induction keys with
  | nil => simp [SortKey.levelsOfList]
  | cons key keys ih =>
    obtain ⟨column, direction⟩ := key
    rw [SortKey.levelsOfList, Nat.max_le, ih, List.forall_mem_cons]

theorem EntryFilter.levels_le_iff {f : EntryFilter} :
    f.levels ≤ k ↔ ∀ e ∈ f.expression, e.levels + 1 ≤ k := by
  obtain ⟨expression, openOn, close, clear⟩ := f
  rw [EntryFilter.levels, Expr.levelsOfOption_le_iff]

theorem GroupBy.levels_le_iff {g : GroupBy} :
    g.levels ≤ k ↔ (∀ key ∈ g.keys, key.levels ≤ k) ∧ ∀ e ∈ g.having, e.levels + 1 ≤ k := by
  obtain ⟨keys, having⟩ := g
  rw [GroupBy.levels, Nat.max_le, ColumnKey.levelsOfList_le_iff, Expr.levelsOfOption_le_iff]

/-- How many levels are enough for a query, clause by clause. -/
theorem Select.levels_le_iff {s : Select} :
    s.levels ≤ k ↔ s.targets.levels ≤ k ∧ (∀ a ∈ s.source, a.levels ≤ k) ∧
      (∀ e ∈ s.condition, e.levels + 1 ≤ k) ∧ (∀ g ∈ s.groupBy, g.levels ≤ k) ∧
        ∀ keys ∈ s.orderBy, ∀ key ∈ keys, key.column.levels ≤ k := by
  obtain ⟨targets, distinct, source, condition, groupBy, orderBy, pivotBy, limit⟩ := s
  have hsource : Source.levelsOfOption source ≤ k ↔ ∀ a ∈ source, a.levels ≤ k := by
    cases source <;> simp [Source.levelsOfOption]
  have hgroup : GroupBy.levelsOfOption groupBy ≤ k ↔ ∀ g ∈ groupBy, g.levels ≤ k := by
    cases groupBy <;> simp [GroupBy.levelsOfOption]
  have horder : SortKey.levelsOfOption orderBy ≤ k ↔
      ∀ keys ∈ orderBy, ∀ key ∈ keys, key.column.levels ≤ k := by
    cases orderBy <;> simp [SortKey.levelsOfOption, SortKey.levelsOfList_le_iff]
  simp only [Select.levels, Nat.max_le, hsource, hgroup, horder, Expr.levelsOfOption_le_iff]

end

end LedgerQuery
