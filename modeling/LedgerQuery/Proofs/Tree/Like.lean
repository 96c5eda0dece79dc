import LedgerQuery.Grammar.Expr
import LedgerQuery.Proofs.Tree.Parts

/-!
# Trees that look alike

Two runs of a reader may find trees that differ in what does not matter, such as the spans of targets.
`Like w v` says that two values look the same through a view `v`, if it matters (`w`).  Trees are put
together from parts that look alike, one lemma for each way to do so.
-/

namespace LedgerQuery

/-- Whether two values look the same through a view, if this matters. -/
def Like {α β : Type} (w : Prop) (v : α → β) (a b : α) : Prop := w → v a = v b

namespace Like

variable {α β : Type} {w : Prop} {v : α → β}

theorem refl (a : α) : Like w v a a := fun _ => rfl

theorem list {as bs : List α} (h : List.Forall₂ (Like w v) as bs) : Like w (List.map v) as bs := by
  intro hw
  induction h with
  | nil => rfl
  | cons ha _ ih => rw [List.map_cons, List.map_cons, ha hw, ih]

theorem option {a b : Option α} (h : Option.Rel (Like w v) a b) : Like w (Option.map v) a b := by
  intro hw
  cases h with
  | none => rfl
  | some h => rw [Option.map_some, Option.map_some, h hw]

/-! ## Expressions -/

section
variable {e e' f f' g g' : Expr} {es fs : List Expr}

theorem function (n : String) (h : List.Forall₂ (Like w Expr.plain) es fs) :
    Like w Expr.plain (.function n es) (.function n fs) := by
  intro hw
  rw [Expr.plain_function, Expr.plain_function, Like.list h hw]

theorem unary (op : UnaryOp) (h : Like w Expr.plain e f) :
    Like w Expr.plain (.unary op e) (.unary op f) := by
  intro hw
  rw [Expr.plain, Expr.plain, h hw]

theorem binary (op : BinaryOp) (he : Like w Expr.plain e f) (he' : Like w Expr.plain e' f') :
    Like w Expr.plain (.binary e op e') (.binary f op f') := by
  intro hw
  rw [Expr.plain, Expr.plain, he hw, he' hw]

theorem between (he : Like w Expr.plain e f) (he' : Like w Expr.plain e' f')
    (hg : Like w Expr.plain g g') :
    Like w Expr.plain (.between e e' g) (.between f f' g') := by
  intro hw
  rw [Expr.plain, Expr.plain, he hw, he' hw, hg hw]

theorem bool (op : BoolOp) (h : List.Forall₂ (Like w Expr.plain) es fs) :
    Like w Expr.plain (.bool op es) (.bool op fs) := by
  intro hw
  rw [Expr.plain_bool, Expr.plain_bool, Like.list h hw]

theorem subselect {s t : Select} (h : Like w Select.plain s t) :
    Like w Expr.plain (.subselect s) (.subselect t) := by
  intro hw
  rw [Expr.plain, Expr.plain, h hw]

theorem suffix (s : Parser.Suffix) (h : Like w Expr.plain e f) :
    Like w Expr.plain (s.apply e) (s.apply f) := by
  intro hw
  cases s <;> simp only [Parser.Suffix.apply, Expr.plain, h hw]

theorem suffixes (h : Like w Expr.plain e f) (ss : List Parser.Suffix) :
    Like w Expr.plain (ss.foldl Parser.Suffix.apply e) (ss.foldl Parser.Suffix.apply f) := by
  induction ss generalizing e f with
  | nil => exact h
  | cons s ss ih => exact ih (h.suffix s)

/-- Whether two operators with right operands are the same operator with operands that look alike. -/
def Operation (w : Prop) (a b : BinaryOp × Expr) : Prop := a.1 = b.1 ∧ Like w Expr.plain a.2 b.2

theorem operations {as bs : List (BinaryOp × Expr)} (h : Like w Expr.plain e f)
    (hs : List.Forall₂ (Operation w) as bs) :
    Like w Expr.plain (as.foldl (fun left (op, right) => .binary left op right) e)
      (bs.foldl (fun left (op, right) => .binary left op right) f) := by
  induction hs generalizing e f with
  | nil => exact h
  | @cons a b as bs hab _ ih =>
    obtain ⟨op, x⟩ := a
    obtain ⟨_, y⟩ := b
    obtain ⟨rfl, hxy⟩ := hab
    exact ih (h.binary op hxy)

end

/-! ## Queries -/

theorem columnKey {e f : Expr} (h : Like w Expr.plain e f) :
    Like w ColumnKey.plain (.expr e) (.expr f) := by
  intro hw
  rw [ColumnKey.plain, ColumnKey.plain, h hw]

theorem target {e f : Expr} (h : Like w Expr.plain e f) (name : Option String) (s t : Option Span) :
    Like w Target.plain ⟨e, name, s⟩ ⟨f, name, t⟩ := by
  intro hw
  rw [Target.plain, Target.plain, h hw]

theorem targets {ts us : List Target} (h : List.Forall₂ (Like w Target.plain) ts us) :
    Like w Targets.plain (.list ts) (.list us) := by
  intro hw
  simp only [Targets.plain, Target.plainList_eq_map, Like.list h hw]

theorem filter {e f : Option Expr} (h : Option.Rel (Like w Expr.plain) e f) (o : Option Date)
    (c : Option Closing) (b : Bool) : Like w EntryFilter.plain ⟨e, o, c, b⟩ ⟨f, o, c, b⟩ := by
  intro hw
  simp only [EntryFilter.plain_eq, Like.option h hw]

theorem query {s t : Select} (h : Like w Select.plain s t) :
    Like w Source.plain (.query s) (.query t) := by
  intro hw
  rw [Source.plain, Source.plain, h hw]

theorem entries {f g : EntryFilter} (h : Like w EntryFilter.plain f g) :
    Like w Source.plain (.entries f) (.entries g) := by
  intro hw
  rw [Source.plain, Source.plain, h hw]

theorem groupBy {ks ls : List ColumnKey} {e f : Option Expr}
    (hk : List.Forall₂ (Like w ColumnKey.plain) ks ls) (he : Option.Rel (Like w Expr.plain) e f) :
    Like w GroupBy.plain ⟨ks, e⟩ ⟨ls, f⟩ := by
  intro hw
  simp only [GroupBy.plain_eq, Like.list hk hw, Like.option he hw]

theorem sortKey {k l : ColumnKey} (h : Like w ColumnKey.plain k l) (d : SortDirection) :
    Like w SortKey.plain ⟨k, d⟩ ⟨l, d⟩ := by
  intro hw
  rw [SortKey.plain, SortKey.plain, h hw]

theorem select {t t' : Targets} {a a' : Option Source} {c c' : Option Expr} {g g' : Option GroupBy}
    {o o' : Option (List SortKey)} (d : Bool) (p : Option PivotBy) (l : Option UInt64)
    (ht : Like w Targets.plain t t') (ha : Option.Rel (Like w Source.plain) a a')
    (hc : Option.Rel (Like w Expr.plain) c c') (hg : Option.Rel (Like w GroupBy.plain) g g')
    (ho : Option.Rel (List.Forall₂ (Like w SortKey.plain)) o o') :
    Like w Select.plain ⟨t, d, a, c, g, o, p, l⟩ ⟨t', d, a', c', g', o', p, l⟩ := by
  intro hw
  have ho : o.map (List.map SortKey.plain) = o'.map (List.map SortKey.plain) := by
    cases ho with
    | none => rfl
    | some h => rw [Option.map_some, Option.map_some, Like.list h hw]
  simp only [Select.plain_eq, ht hw, Like.option ha hw, Like.option hc hw, Like.option hg hw, ho]

theorem statement {s t : Select} (h : Like w Select.plain s t) :
    Like w Statement.plain (.select s) (.select t) := by
  intro hw
  rw [Statement.plain, Statement.plain, h hw]

theorem balances {f g : Option EntryFilter} {c c' : Option Expr} (n : Option String)
    (hf : Option.Rel (Like w EntryFilter.plain) f g) (hc : Option.Rel (Like w Expr.plain) c c') :
    Like w Statement.plain (.balances ⟨n, f, c⟩) (.balances ⟨n, g, c'⟩) := by
  intro hw
  rw [Statement.plain, Statement.plain, Like.option hf hw, Like.option hc hw]

theorem journal {f g : Option EntryFilter} (a n : Option String)
    (hf : Option.Rel (Like w EntryFilter.plain) f g) :
    Like w Statement.plain (.journal ⟨a, n, f⟩) (.journal ⟨a, n, g⟩) := by
  intro hw
  rw [Statement.plain, Statement.plain, Like.option hf hw]

theorem print {f g : Option EntryFilter} (hf : Option.Rel (Like w EntryFilter.plain) f g) :
    Like w Statement.plain (.print ⟨f⟩) (.print ⟨g⟩) := by
  intro hw
  rw [Statement.plain, Statement.plain, Like.option hf hw]

end Like

end LedgerQuery
