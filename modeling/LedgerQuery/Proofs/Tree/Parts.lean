import LedgerQuery.Query.Equality
import LedgerQuery.Query.Written
import Mathlib

/-!
# Parts of trees

The expressions that an expression or a query holds directly are its parts.  A
subselect has no parts of its own but a query, and a query may have another query
as its source.

`Expr.All` says that something holds of every expression and query in a tree.
`induct` is induction over the parts and queries of trees, in place of a
recursion over every type of trees.
-/

namespace LedgerQuery

/-! ## Parts -/

/-- The expressions that an expression holds directly. -/
def Expr.parts : Expr → List Expr
  | .function _ args | .bool _ args => args
  | .attribute x _ | .subscript x _ | .unary _ x => [x]
  | .binary left _ right => [left, right]
  | .between x lower upper => [x, lower, upper]
  | _ => []

/-- The expressions of targets. -/
def Targets.parts : Targets → List Expr
  | .all => []
  | .list items => items.map Target.expr

/-- The expression of a filter. -/
def EntryFilter.parts (f : EntryFilter) : List Expr := f.expression.toList

/-- The expression of the filter that a source is. -/
def Source.parts : Source → List Expr
  | .entries f => f.parts
  | _ => []

/-- The expression of a key. -/
def ColumnKey.parts : ColumnKey → List Expr
  | .index _ => []
  | .expr e => [e]

/-- The expressions of a grouping. -/
def GroupBy.parts (g : GroupBy) : List Expr := g.keys.flatMap ColumnKey.parts ++ g.having.toList

/-- The expressions that a query holds directly. -/
def Select.parts (s : Select) : List Expr :=
  s.targets.parts ++ (s.source.map Source.parts).getD [] ++ s.condition.toList ++
    (s.groupBy.map GroupBy.parts).getD [] ++
    (s.orderBy.getD []).flatMap fun k => k.column.parts

section
variable {s : Select} {x : Expr}

theorem Select.mem_parts : x ∈ s.parts ↔ x ∈ s.targets.parts ∨
    (∃ source, s.source = some source ∧ x ∈ source.parts) ∨ s.condition = some x ∨
    (∃ g, s.groupBy = some g ∧ x ∈ g.parts) ∨
    ∃ keys, s.orderBy = some keys ∧ ∃ k ∈ keys, x ∈ k.column.parts := by
  have option : ∀ {α : Type} {o : Option α} {f : α → List Expr},
      x ∈ (o.map f).getD [] ↔ ∃ a, o = some a ∧ x ∈ f a := by
    intro α o f
    cases o <;> simp
  have keys : x ∈ (s.orderBy.getD []).flatMap (fun k => k.column.parts) ↔
      ∃ keys, s.orderBy = some keys ∧ ∃ k ∈ keys, x ∈ k.column.parts := by
    cases s.orderBy <;> simp
  have condition : x ∈ s.condition.toList ↔ s.condition = some x := by
    cases s.condition <;> simp [eq_comm]
  simp only [Select.parts, List.mem_append, option, keys, condition, or_assoc]

end

/-! ## Every expression and query of a tree -/

mutual

/-- Whether something holds of an expression and of all expressions and queries in it. -/
inductive Expr.All (p : Expr → Prop) (q : Select → Prop) : Expr → Prop where
  /-- It holds of the expression, of its parts and of its query. -/
  | mk {e : Expr} : p e → (∀ x ∈ e.parts, x.All p q) → (∀ s, e = .subselect s → s.All p q) → e.All p q

/-- Whether something holds of a query and of all expressions and queries in it. -/
inductive Select.All (p : Expr → Prop) (q : Select → Prop) : Select → Prop where
  /-- It holds of the query, of its parts and of the query that is its source. -/
  | mk {s : Select} : q s → (∀ x ∈ s.parts, x.All p q) →
    (∀ s', s.source = some (.query s') → s'.All p q) → s.All p q

end

section
variable {p : Expr → Prop} {q : Select → Prop} {e : Expr} {s : Select}

theorem Expr.all_iff :
    e.All p q ↔ p e ∧ (∀ x ∈ e.parts, x.All p q) ∧ ∀ s, e = .subselect s → s.All p q := by
  constructor
  · intro h
    cases h with
    | mk h₁ h₂ h₃ => exact ⟨h₁, h₂, h₃⟩
  · rintro ⟨h₁, h₂, h₃⟩
    exact .mk h₁ h₂ h₃

theorem Select.all_iff :
    s.All p q ↔ q s ∧ (∀ x ∈ s.parts, x.All p q) ∧ ∀ s', s.source = some (.query s') → s'.All p q := by
  constructor
  · intro h
    cases h with
    | mk h₁ h₂ h₃ => exact ⟨h₁, h₂, h₃⟩
  · rintro ⟨h₁, h₂, h₃⟩
    exact .mk h₁ h₂ h₃

/-- What holds of the parts and of the source of a query, clause by clause. -/
theorem Select.forall_parts {P : Expr → Prop} {Q : Select → Prop} :
    ((∀ x ∈ s.parts, P x) ∧ ∀ s', s.source = some (.query s') → Q s') ↔
      (∀ x ∈ s.targets.parts, P x) ∧
      (∀ a ∈ s.source, (∀ x ∈ a.parts, P x) ∧ ∀ s', a = .query s' → Q s') ∧
      (∀ x ∈ s.condition, P x) ∧ (∀ g ∈ s.groupBy, ∀ x ∈ g.parts, P x) ∧
        ∀ keys ∈ s.orderBy, ∀ k ∈ keys, ∀ x ∈ k.column.parts, P x := by
  simp only [Select.mem_parts, Option.mem_def]
  constructor
  · rintro ⟨hp, hs⟩
    exact ⟨fun x hx => hp x (.inl hx), fun a ha => ⟨fun x hx => hp x (.inr (.inl ⟨a, ha, hx⟩)),
      fun s' he => hs s' (he ▸ ha)⟩, fun x hx => hp x (.inr (.inr (.inl hx))),
      fun g hg x hx => hp x (.inr (.inr (.inr (.inl ⟨g, hg, hx⟩)))),
      fun keys hk k hm x hx => hp x (.inr (.inr (.inr (.inr ⟨keys, hk, k, hm, hx⟩))))⟩
  · rintro ⟨ht, hs, hc, hg, ho⟩
    refine ⟨?_, fun s' he => (hs _ he).2 s' rfl⟩
    rintro x (hx | ⟨a, ha, hx⟩ | hx | ⟨g, hg', hx⟩ | ⟨keys, hk, k, hm, hx⟩)
    · exact ht x hx
    · exact (hs a ha).1 x hx
    · exact hc x hx
    · exact hg g hg' x hx
    · exact ho keys hk k hm x hx

end

/-! ## Induction -/

/-- What has to be shown of every expression and query, supposing it of their parts and queries. -/
structure Inductive (P : Expr → Prop) (Q : Select → Prop) : Prop where
  /-- Of expressions. -/
  expr : ∀ e : Expr, (∀ x ∈ e.parts, P x) → (∀ s, e = .subselect s → Q s) → P e
  /-- Of queries. -/
  select : ∀ s : Select, (∀ x ∈ s.parts, P x) → (∀ s', s.source = some (.query s') → Q s') → Q s

section
variable {P : Expr → Prop} {Q : Select → Prop} (h : Inductive P Q)
include h

set_option linter.unusedSectionVars false

mutual

theorem Expr.induct : ∀ e, P e
  | .wildcard => h.expr _ (by simp [Expr.parts]) (by simp)
  | .column _ => h.expr _ (by simp [Expr.parts]) (by simp)
  | .constant _ => h.expr _ (by simp [Expr.parts]) (by simp)
  | .placeholder _ => h.expr _ (by simp [Expr.parts]) (by simp)
  | .function _ args => h.expr _ (Expr.inductList args) (by simp)
  | .attribute x _ => h.expr _ (by simpa [Expr.parts] using Expr.induct x) (by simp)
  | .subscript x _ => h.expr _ (by simpa [Expr.parts] using Expr.induct x) (by simp)
  | .unary _ x => h.expr _ (by simpa [Expr.parts] using Expr.induct x) (by simp)
  | .binary left _ right =>
    h.expr _ (by simpa [Expr.parts] using ⟨Expr.induct left, Expr.induct right⟩) (by simp)
  | .bool _ args => h.expr _ (Expr.inductList args) (by simp)
  | .between x lower upper =>
    h.expr _ (by simpa [Expr.parts] using
      ⟨Expr.induct x, Expr.induct lower, Expr.induct upper⟩) (by simp)
  | .subselect s => h.expr _ (by simp [Expr.parts]) (by simpa using Select.induct s)
termination_by structural e => e

theorem Expr.inductList : ∀ es : List Expr, ∀ x ∈ es, P x
  | [] => by simp
  | e :: es => by simpa using ⟨Expr.induct e, Expr.inductList es⟩
termination_by structural es => es

theorem Expr.inductOption : ∀ (o : Option Expr) x, o = some x → P x
  | none => by simp
  | some e => by simpa using Expr.induct e
termination_by structural o => o

theorem Select.induct : ∀ s, Q s
  | ⟨targets, _, source, condition, groupBy, orderBy, _, _⟩ => by
    refine h.select _ (fun x hx => ?_) (Source.inductQuery source)
    rcases Select.mem_parts.mp hx with hx | ⟨a, ha, hx⟩ | hx | ⟨g, hg, hx⟩ | ⟨keys, hk, k, hm, hx⟩
    · exact Targets.induct targets x hx
    · exact Source.inductOption source a ha x hx
    · exact Expr.inductOption condition x hx
    · exact GroupBy.inductOption groupBy g hg x hx
    · exact SortKey.inductOption orderBy keys hk k hm x hx
termination_by structural s => s

theorem Targets.induct : ∀ t : Targets, ∀ x ∈ t.parts, P x
  | .all => by simp [Targets.parts]
  | .list items => by simpa [Targets.parts] using Target.inductList items
termination_by structural t => t

theorem Target.inductList : ∀ ts : List Target, ∀ t ∈ ts, P t.expr
  | [] => by simp
  | ⟨e, _, _⟩ :: ts => by simpa using ⟨Expr.induct e, Target.inductList ts⟩
termination_by structural ts => ts

theorem Source.inductParts : ∀ a : Source, ∀ x ∈ a.parts, P x
  | .table _ => by simp [Source.parts]
  | .query _ => by simp [Source.parts]
  | .entries f => EntryFilter.induct f
termination_by structural a => a

theorem Source.inductOption : ∀ (o : Option Source) a, o = some a → ∀ x ∈ a.parts, P x
  | none => by simp
  | some a => by simpa using Source.inductParts a
termination_by structural o => o

theorem Source.inductSelect : ∀ (a : Source) s, a = .query s → Q s
  | .table _ => by simp
  | .query s => by simpa using Select.induct s
  | .entries _ => by simp
termination_by structural a => a

theorem Source.inductQuery : ∀ (o : Option Source) s, o = some (.query s) → Q s
  | none => by simp
  | some a => by simpa using Source.inductSelect a
termination_by structural o => o

theorem EntryFilter.induct : ∀ f : EntryFilter, ∀ x ∈ f.parts, P x
  | ⟨e, _, _, _⟩ => by simpa [EntryFilter.parts, Option.mem_toList] using Expr.inductOption e
termination_by structural f => f

theorem ColumnKey.induct : ∀ k : ColumnKey, ∀ x ∈ k.parts, P x
  | .index _ => by simp [ColumnKey.parts]
  | .expr e => by simpa [ColumnKey.parts] using Expr.induct e
termination_by structural k => k

theorem ColumnKey.inductList : ∀ ks : List ColumnKey, ∀ k ∈ ks, ∀ x ∈ k.parts, P x
  | [] => by simp
  | k :: ks => by
    rw [List.forall_mem_cons]
    exact ⟨ColumnKey.induct k, ColumnKey.inductList ks⟩
termination_by structural ks => ks

theorem GroupBy.induct : ∀ g : GroupBy, ∀ x ∈ g.parts, P x
  | ⟨keys, having⟩ => by
    intro x hx
    simp only [GroupBy.parts, List.mem_append, List.mem_flatMap, Option.mem_toList] at hx
    rcases hx with ⟨k, hk, hx⟩ | hx
    · exact ColumnKey.inductList keys k hk x hx
    · exact Expr.inductOption having x hx
termination_by structural g => g

theorem GroupBy.inductOption : ∀ (o : Option GroupBy) g, o = some g → ∀ x ∈ g.parts, P x
  | none => by simp
  | some g => by simpa using GroupBy.induct g
termination_by structural o => o

theorem SortKey.inductList : ∀ ks : List SortKey, ∀ k ∈ ks, ∀ x ∈ k.column.parts, P x
  | [] => by simp
  | ⟨k, _⟩ :: ks => by
    rw [List.forall_mem_cons]
    exact ⟨ColumnKey.induct k, SortKey.inductList ks⟩
termination_by structural ks => ks

theorem SortKey.inductOption :
    ∀ (o : Option (List SortKey)) ks, o = some ks → ∀ k ∈ ks, ∀ x ∈ k.column.parts, P x
  | none => by simp
  | some ks => by simpa using SortKey.inductList ks
termination_by structural o => o

end

/-- What is inductive holds of every expression and query. -/
theorem Inductive.all : (∀ e, P e) ∧ ∀ s, Q s := ⟨Expr.induct h, Select.induct h⟩

end

/-! ## Trees without spans -/

theorem Expr.strength_plain (e : Expr) : e.plain.strength = e.strength := by
  cases e with
  | unary op x => cases op <;> rfl
  | binary l op r => cases op <;> rfl
  | bool op args => cases op <;> rfl
  | _ => rfl

theorem Expr.strength_eq_of_plain {e e' : Expr} (h : e'.plain = e.plain) : e'.strength = e.strength := by
  rw [← e'.strength_plain, h, e.strength_plain]

theorem Expr.plainList_eq_map (es : List Expr) : Expr.plainList es = es.map Expr.plain := by
  induction es with
  | nil => rfl
  | cons e es ih => rw [Expr.plainList, ih, List.map_cons]

theorem Expr.plain_function (n : String) (args : List Expr) :
    (Expr.function n args).plain = .function n (args.map Expr.plain) := by
  rw [Expr.plain, Expr.plainList_eq_map]

theorem Expr.plain_bool (op : BoolOp) (args : List Expr) :
    (Expr.bool op args).plain = .bool op (args.map Expr.plain) := by
  rw [Expr.plain, Expr.plainList_eq_map]

theorem Expr.plainOption_eq_map (o : Option Expr) : Expr.plainOption o = o.map Expr.plain := by
  cases o <;> rfl

theorem ColumnKey.plainList_eq_map (ks : List ColumnKey) :
    ColumnKey.plainList ks = ks.map ColumnKey.plain := by
  induction ks with
  | nil => rfl
  | cons k ks ih => rw [ColumnKey.plainList, ih, List.map_cons]

/-- A target without its span. -/
def Target.plain (t : Target) : Target := ⟨t.expr.plain, t.name, none⟩

theorem Target.plainList_eq_map (ts : List Target) : Target.plainList ts = ts.map Target.plain := by
  induction ts with
  | nil => rfl
  | cons t ts ih =>
    obtain ⟨e, name, span⟩ := t
    rw [Target.plainList, ih, List.map_cons]
    rfl

/-- A sort key without spans. -/
def SortKey.plain (k : SortKey) : SortKey := ⟨k.column.plain, k.direction⟩

theorem SortKey.plainList_eq_map (ks : List SortKey) :
    SortKey.plainList ks = ks.map SortKey.plain := by
  induction ks with
  | nil => rfl
  | cons k ks ih =>
    obtain ⟨column, direction⟩ := k
    rw [SortKey.plainList, ih, List.map_cons]
    rfl

theorem EntryFilter.plain_eq (f : EntryFilter) :
    f.plain = ⟨f.expression.map Expr.plain, f.openOn, f.close, f.clear⟩ := by
  obtain ⟨expression, openOn, close, clear⟩ := f
  rw [EntryFilter.plain, Expr.plainOption_eq_map]

theorem GroupBy.plain_eq (g : GroupBy) :
    g.plain = ⟨g.keys.map ColumnKey.plain, g.having.map Expr.plain⟩ := by
  obtain ⟨keys, having⟩ := g
  rw [GroupBy.plain, ColumnKey.plainList_eq_map, Expr.plainOption_eq_map]

/-- A query without spans, clause by clause. -/
theorem Select.plain_eq (s : Select) :
    s.plain = ⟨s.targets.plain, s.distinct, s.source.map Source.plain, s.condition.map Expr.plain,
      s.groupBy.map GroupBy.plain, s.orderBy.map (List.map SortKey.plain), s.pivotBy, s.limit⟩ := by
  obtain ⟨targets, distinct, source, condition, groupBy, orderBy, pivotBy, limit⟩ := s
  have hsource : Source.plainOption source = source.map Source.plain := by cases source <;> rfl
  have hgroup : GroupBy.plainOption groupBy = groupBy.map GroupBy.plain := by cases groupBy <;> rfl
  have horder : SortKey.plainOption orderBy = orderBy.map (List.map SortKey.plain) := by
    cases orderBy with
    | none => rfl
    | some keys => rw [SortKey.plainOption, SortKey.plainList_eq_map, Option.map_some]
  rw [Select.plain, Expr.plainOption_eq_map, hsource, hgroup, horder]

end LedgerQuery
