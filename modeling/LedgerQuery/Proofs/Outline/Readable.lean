import LedgerQuery.Proofs.Lexing.Segments
import LedgerQuery.Proofs.Outline.Constants
import LedgerQuery.Proofs.Tree.Conditions

/-!
# Outlines of queries are legible

The outline of a well-formed tree is legible if its strings, subscript keys and account patterns are on one line each
(`Statement.WellFormed.legible`).  Names and numbers always are.
-/

namespace LedgerQuery

open Outline

/-! ## Outlines part by part -/

theorem Expr.outlines_eq_map (es : List Expr) : Expr.outlines es = es.map Expr.outline := by
  induction es with
  | nil => rfl
  | cons e es ih => rw [Expr.outlines, ih, List.map_cons]

/-- The name of a parameter. -/
def Placeholder.name? : Placeholder → Option String
  | .positional => none
  | .named name => some name

theorem Expr.outline_placeholder (p : Placeholder) :
    (Expr.placeholder p).outline = .node "placeholder" (field "name" (p.name?.map quoted)) := by
  cases p <;> rfl

theorem Expr.outline_function (name : String) (args : List Expr) : (Expr.function name args).outline =
    .node "function" [("name", quoted name), ("args", .list (args.map Expr.outline))] := by
  rw [Expr.outline, Expr.outlines_eq_map]

theorem Expr.outline_bool (op : BoolOp) (args : List Expr) :
    (Expr.bool op args).outline = .node op.name [("args", .list (args.map Expr.outline))] := by
  rw [Expr.outline, Expr.outlines_eq_map]

/-- The outline of a target. -/
def Target.outline (t : Target) : Outline :=
  .node "target" (("expr", t.expr.outline) :: field "name" (t.name.map quoted))

theorem Targets.outline_list (items : List Target) : (Targets.list items).outline = .list (items.map Target.outline) := by
  rw [Targets.outline]
  congr 1
  induction items with
  | nil => rfl
  | cons t items ih =>
    obtain ⟨e, name, span⟩ := t
    rw [Target.outlines, ih]
    rfl

theorem EntryFilter.outline_eq (f : EntryFilter) : f.outline =
    .node "from" (field "expression" (f.expression.map Expr.outline) ++
      field "open" (f.openOn.map fun d => .atom d.text) ++ field "close" (f.close.map Closing.outline) ++
      field "clear" (flagOutline f.clear)) := by
  obtain ⟨expression, openOn, close, clear⟩ := f
  cases expression <;> rfl

theorem ColumnKey.outlines_eq_map (ks : List ColumnKey) : ColumnKey.outlines ks = ks.map ColumnKey.outline := by
  induction ks with
  | nil => rfl
  | cons k ks ih => rw [ColumnKey.outlines, ih, List.map_cons]

theorem GroupBy.outline_eq (g : GroupBy) : g.outline =
    .node "groupby" (("columns", .list (g.keys.map ColumnKey.outline)) ::
      field "having" (g.having.map Expr.outline)) := by
  obtain ⟨keys, having⟩ := g
  rw [← ColumnKey.outlines_eq_map]
  cases having <;> rfl

/-- The outline of a sort key. -/
def SortKey.outline (k : SortKey) : Outline :=
  .node "orderby" [("column", k.column.outline), ("direction", k.direction.outline)]

theorem SortKey.outlines_eq_map (ks : List SortKey) : SortKey.outlines ks = ks.map SortKey.outline := by
  induction ks with
  | nil => rfl
  | cons k ks ih =>
    obtain ⟨column, direction⟩ := k
    rw [SortKey.outlines, ih]
    rfl

/-- The fields of the outline of a query. -/
def Select.fields (s : Select) : List (String × Outline) :=
  ("targets", s.targets.outline) :: (field "distinct" (flagOutline s.distinct) ++
    field "from-clause" (s.source.map Source.outline) ++ field "where-clause" (s.condition.map Expr.outline) ++
    field "group-by" (s.groupBy.map GroupBy.outline) ++
    field "order-by" (s.orderBy.map fun keys => .list (keys.map SortKey.outline)) ++
    field "pivot-by" (s.pivotBy.map PivotBy.outline) ++ field "limit" (s.limit.map numberOutline))

theorem Select.outline_eq (s : Select) : s.outline = .node "select" s.fields := by
  obtain ⟨targets, distinct, source, condition, groupBy, orderBy, pivotBy, limit⟩ := s
  cases orderBy with
  | none => cases source <;> cases condition <;> cases groupBy <;> rfl
  | some keys =>
    rw [Select.fields, Option.map_some, ← SortKey.outlines_eq_map]
    cases source <;> cases condition <;> cases groupBy <;> rfl

/-! ## Texts on one line -/

/-- Whether the texts of the outermost construction of an expression have no line feed. -/
def Expr.OneLine : Expr → Prop
  | .constant c => ∀ x ∈ c.items, x.OneLine
  | .subscript _ key => '\n' ∉ key.toList
  | _ => True

/-- Whether no string literal or subscript key in an expression has a line feed. -/
def Expr.AllOneLine (e : Expr) : Prop := e.All Expr.OneLine fun _ => True

/-- Whether no string literal or subscript key in a query has a line feed. -/
def Select.AllOneLine (s : Select) : Prop := s.All Expr.OneLine fun _ => True

/-- Whether no string literal, subscript key or account pattern in a statement has a line feed. -/
def Statement.AllOneLine : Statement → Prop
  | .select s => s.AllOneLine
  | .balances b => (∀ f ∈ b.source, ∀ e ∈ f.expression, e.AllOneLine) ∧ ∀ e ∈ b.condition, e.AllOneLine
  | .journal j => (∀ a ∈ j.account, '\n' ∉ a.toList) ∧ ∀ f ∈ j.source, ∀ e ∈ f.expression, e.AllOneLine
  | .print p => ∀ f ∈ p.source, ∀ e ∈ f.expression, e.AllOneLine

/-! ## Legible fields -/

/-- Whether a field has a name and a legible value. -/
def IsField (f : String × Outline) : Prop := IsKey f.1.toList ∧ Legible f.2

theorem legible_node {name : String} {fields : List (String × Outline)} (hname : IsKey name.toList)
    (h : ∀ f ∈ fields, IsField f) : Legible (.node name fields) :=
  .node hname (fun f hf => (h f hf).1) fun f hf => (h f hf).2

theorem legible_map {α : Type} {f : α → Outline} {as : List α} (h : ∀ a ∈ as, Legible (f a)) :
    Legible (.list (as.map f)) := .list (List.forall_mem_map.mpr h)

theorem forall_mem_field {name : String} {part : Option Outline} {P : String × Outline → Prop} :
    (∀ f ∈ field name part, P f) ↔ ∀ o ∈ part, P (name, o) := by
  cases part <;> simp [field]

theorem isField_of_option {α : Type} (name : String) {f : α → Outline} {part : Option α} (hname : IsKey name.toList)
    (h : ∀ a ∈ part, Legible (f a)) : ∀ x ∈ field name (part.map f), IsField x := by
  rw [forall_mem_field]
  cases part with
  | none => simp
  | some a => simpa using ⟨hname, h a rfl⟩

theorem notMem_of_isWord {name : String} (h : isWord name.toList = true) : '\n' ∉ name.toList :=
  fun hm => absurd (isWord_all h _ hm) (by decide)

theorem IsName.legible {name : String} (h : IsName name) : Legible (quoted name) :=
  legible_quoted (notMem_of_isWord h.1)

/-- A word of small letters is the atom of a legible outline. -/
theorem IsKey.isAtom {cs : List Char} (h : IsKey cs) : IsAtom cs := by
  obtain ⟨c, cs, rfl⟩ := List.exists_cons_of_ne_nil h.1
  refine .plain h.notMem ⟨c, rfl, fun he => ?_⟩ fun d hd hbad => ?_
  · exact absurd (h.2 c (by simp)) (he ▸ by decide)
  · have hkey := h.2 d (List.mem_of_mem_getLast? hd)
    simp only [List.mem_cons, List.not_mem_nil, or_false] at hbad
    rcases hbad with rfl | rfl <;> cases hkey

theorem legible_flag (name : String) (set : Bool) (hname : IsKey name.toList) :
    ∀ x ∈ field name (flagOutline set), IsField x := by
  rw [forall_mem_field]
  intro o ho
  cases set with
  | false => cases ho
  | true =>
    obtain rfl : .atom "true" = o := Option.some.inj ho
    exact ⟨hname, .atom (IsKey.isAtom ⟨by simp, by simp [isKeyChar]⟩)⟩

theorem UnaryOp.isKey_name (op : UnaryOp) : IsKey op.name.toList := by
  cases op <;> simp [UnaryOp.name, IsKey, isKeyChar]

theorem BinaryOp.isKey_name (op : BinaryOp) : IsKey op.name.toList := by
  cases op <;> simp [BinaryOp.name, IsKey, isKeyChar]

theorem BoolOp.isKey_name (op : BoolOp) : IsKey op.name.toList := by
  cases op <;> simp [BoolOp.name, IsKey, isKeyChar]

/-! ## Legible trees -/

theorem Placeholder.legible {p : Placeholder} (h : (Token.placeholder p).Legal) :
    Legible (Expr.placeholder p).outline := by
  rw [Expr.outline_placeholder]
  refine legible_node (by simp [IsKey, isKeyChar]) (isField_of_option "name" (by simp [IsKey, isKeyChar]) fun n hn => ?_)
  cases p with
  | positional => cases hn
  | named name =>
    obtain rfl : name = n := Option.some.inj hn
    exact legible_quoted (notMem_of_isWord h)

/-- The outline of an expression is legible if those of its parts are. -/
theorem Expr.legible_of_parts {e : Expr} (hw : e.Writable) (hl : e.OneLine) (ih : ∀ x ∈ e.parts, Legible x.outline)
    (hq : ∀ s, e = .subselect s → Legible s.outline) : Legible e.outline := by
  cases e with
  | wildcard => exact .atom (.plain (by simp) ⟨'*', rfl, by simp⟩ (by simp))
  | column n =>
    have hname : Legible (quoted n) := IsName.legible hw
    exact legible_node (by simp [IsKey, isKeyChar]) (by simpa [IsField, IsKey, isKeyChar] using hname)
  | constant c =>
    have hvalue : Legible c.outline := Constant.Writable.legible hw hl
    exact legible_node (by simp [IsKey, isKeyChar]) (by simpa [IsField, IsKey, isKeyChar] using hvalue)
  | placeholder p => exact Placeholder.legible hw
  | function n args =>
    rw [Expr.outline_function]
    have hname : Legible (quoted n) := IsName.legible hw.1
    exact legible_node (by simp [IsKey, isKeyChar])
      (by simpa [IsField, IsKey, isKeyChar] using ⟨hname, legible_map ih⟩)
  | «attribute» x n =>
    have hname : Legible (quoted n) := IsName.legible hw.1
    have hx : Legible x.outline := ih x (by simp [Expr.parts])
    exact legible_node (by simp [IsKey, isKeyChar]) (by simpa [IsField, IsKey, isKeyChar] using ⟨hx, hname⟩)
  | subscript x key =>
    have hkey : Legible (quoted key) := legible_quoted hl
    have hx : Legible x.outline := ih x (by simp [Expr.parts])
    exact legible_node (by simp [IsKey, isKeyChar]) (by simpa [IsField, IsKey, isKeyChar] using ⟨hx, hkey⟩)
  | unary op x =>
    have hx : Legible x.outline := ih x (by simp [Expr.parts])
    exact legible_node op.isKey_name (by simpa [IsField, IsKey, isKeyChar] using hx)
  | binary left op right =>
    have hleft : Legible left.outline := ih left (by simp [Expr.parts])
    have hright : Legible right.outline := ih right (by simp [Expr.parts])
    exact legible_node op.isKey_name (by simpa [IsField, IsKey, isKeyChar] using ⟨hleft, hright⟩)
  | bool op args =>
    rw [Expr.outline_bool]
    have hargs : Legible (.list (args.map Expr.outline)) := legible_map ih
    exact legible_node op.isKey_name (by simpa [IsField, IsKey, isKeyChar] using hargs)
  | between x lower upper =>
    have hx : Legible x.outline := ih x (by simp [Expr.parts])
    have hlower : Legible lower.outline := ih lower (by simp [Expr.parts])
    have hupper : Legible upper.outline := ih upper (by simp [Expr.parts])
    exact legible_node (by simp [IsKey, isKeyChar])
      (by simpa [IsField, IsKey, isKeyChar] using ⟨hx, hlower, hupper⟩)
  | subselect s => exact hq s rfl

theorem ColumnKey.legible {k : ColumnKey} (h : ∀ x ∈ k.parts, Legible x.outline) : Legible k.outline := by
  cases k with
  | index n => exact legible_number n
  | expr e => exact h e (by simp [ColumnKey.parts])

theorem GroupBy.legible {g : GroupBy} (h : ∀ x ∈ g.parts, Legible x.outline) : Legible g.outline := by
  have hkeys : ∀ k ∈ g.keys, Legible k.outline := fun k hk =>
    ColumnKey.legible fun x hx => h x (by simpa [GroupBy.parts] using .inl ⟨k, hk, hx⟩)
  have hhaving := isField_of_option "having" (by simp [IsKey, isKeyChar])
    fun e (he : e ∈ g.having) => h e (by simpa [GroupBy.parts] using .inr he)
  rw [GroupBy.outline_eq]
  refine legible_node (by simp [IsKey, isKeyChar]) (List.forall_mem_cons.mpr ⟨⟨?_, legible_map hkeys⟩, hhaving⟩)
  simp [IsKey, isKeyChar]

theorem SortDirection.legible (d : SortDirection) : Legible d.outline := by
  cases d <;> exact .atom (IsKey.isAtom (by simp [IsKey, isKeyChar]))

theorem SortKey.legible {k : SortKey} (h : ∀ x ∈ k.column.parts, Legible x.outline) : Legible k.outline :=
  legible_node (by simp [IsKey, isKeyChar])
    (by simpa [IsField, IsKey, isKeyChar] using ⟨ColumnKey.legible h, k.direction.legible⟩)

theorem PivotKey.legible {k : PivotKey} (h : k.Writable) : Legible k.outline := by
  cases k with
  | index n => exact legible_number n
  | column n =>
    have hname : Legible (quoted n) := IsName.legible h
    exact legible_node (by simp [IsKey, isKeyChar]) (by simpa [IsField, IsKey, isKeyChar] using hname)

theorem PivotBy.legible {p : PivotBy} (hr : p.row.Writable) (hc : p.column.Writable) : Legible p.outline := by
  have hkeys : Legible (.list [p.row.outline, p.column.outline]) :=
    .list (by simpa using ⟨PivotKey.legible hr, PivotKey.legible hc⟩)
  exact legible_node (by simp [IsKey, isKeyChar]) (by simpa [IsField, IsKey, isKeyChar] using hkeys)

theorem Target.legible {t : Target} (hn : ∀ n ∈ t.name, IsName n) (h : Legible t.expr.outline) : Legible t.outline := by
  have hname := isField_of_option "name" (by simp [IsKey, isKeyChar]) fun n (hm : n ∈ t.name) => (hn n hm).legible
  refine legible_node (by simp [IsKey, isKeyChar]) (List.forall_mem_cons.mpr ⟨⟨?_, h⟩, hname⟩)
  simp [IsKey, isKeyChar]

theorem Targets.legible {t : Targets} (hw : t.Writable) (h : ∀ x ∈ t.parts, Legible x.outline) :
    Legible t.outline := by
  cases t with
  | all => exact .atom (.plain (by simp) ⟨'*', rfl, by simp⟩ (by simp))
  | list items =>
    rw [Targets.outline_list]
    exact legible_map fun t ht => Target.legible (hw.2 t ht) (h _ (List.mem_map_of_mem ht))

theorem Closing.legible {c : Closing} (h : ∀ d, c = .on d → 0 ≤ d.year ∧ d.year ≤ 9999) : Legible c.outline := by
  cases c with
  | default => exact .atom (IsKey.isAtom (by simp [IsKey, isKeyChar]))
  | on d => exact .atom (Date.inline_text (h d rfl)).isAtom

theorem EntryFilter.legible {f : EntryFilter} (hw : f.Writable) (h : ∀ x ∈ f.expression, Legible x.outline) :
    Legible f.outline := by
  have hexpr := isField_of_option "expression" (by simp [IsKey, isKeyChar]) h
  have hopen := isField_of_option "open" (by simp [IsKey, isKeyChar])
    fun d (hm : d ∈ f.openOn) => Legible.atom (Date.inline_text (hw.1 d hm)).isAtom
  have hclose := isField_of_option "close" (by simp [IsKey, isKeyChar])
    fun c (hm : c ∈ f.close) => Closing.legible fun d hd => hw.2 d (hd ▸ hm)
  have hclear := legible_flag "clear" f.clear (by simp [IsKey, isKeyChar])
  rw [EntryFilter.outline_eq]
  refine legible_node (by simp [IsKey, isKeyChar]) ?_
  simp only [List.forall_mem_append]
  exact ⟨⟨⟨hexpr, hopen⟩, hclose⟩, hclear⟩

theorem Source.legible {a : Source} (hw : a.Writable) (h : ∀ x ∈ a.parts, Legible x.outline)
    (hq : ∀ s, a = .query s → Legible s.outline) : Legible a.outline := by
  cases a with
  | table n =>
    have hline : '\n' ∉ n.toList := by
      rcases hw with hnil | hword
      · simp [hnil]
      · exact notMem_of_isWord hword
    exact legible_node (by simp [IsKey, isKeyChar])
      (by simpa [IsField, IsKey, isKeyChar] using legible_quoted hline)
  | query s => exact hq s rfl
  | entries f => exact EntryFilter.legible hw fun x hx => h x (by simpa [Source.parts, EntryFilter.parts] using hx)

/-- The outline of a query is legible if those of its parts and of its source are. -/
theorem Select.legible_of_parts {s : Select} (hw : s.Writable) (ih : ∀ x ∈ s.parts, Legible x.outline)
    (hq : ∀ s', s.source = some (.query s') → Legible s'.outline) : Legible s.outline := by
  obtain ⟨ht, ha, hc, hg, ho⟩ := Select.forall_parts.mp ⟨ih, hq⟩
  have hdistinct := legible_flag "distinct" s.distinct (by simp [IsKey, isKeyChar])
  have hsource := isField_of_option "from-clause" (by simp [IsKey, isKeyChar])
    fun a (hm : a ∈ s.source) => Source.legible (hw.2.1 a hm) (ha a hm).1 (ha a hm).2
  have hcondition := isField_of_option "where-clause" (by simp [IsKey, isKeyChar]) hc
  have hgroup := isField_of_option "group-by" (by simp [IsKey, isKeyChar])
    fun g (hm : g ∈ s.groupBy) => GroupBy.legible (hg g hm)
  have horder := isField_of_option "order-by" (f := fun keys => .list (keys.map SortKey.outline))
    (by simp [IsKey, isKeyChar]) fun keys (hm : keys ∈ s.orderBy) => legible_map fun k hk => SortKey.legible (ho keys hm k hk)
  have hpivot := isField_of_option "pivot-by" (by simp [IsKey, isKeyChar])
    fun p (hm : p ∈ s.pivotBy) => PivotBy.legible (hw.2.2.2.2.1 p hm).1 (hw.2.2.2.2.1 p hm).2
  have hlimit := isField_of_option "limit" (by simp [IsKey, isKeyChar])
    fun n (_ : n ∈ s.limit) => legible_number n
  rw [Select.outline_eq]
  refine legible_node (by simp [IsKey, isKeyChar]) (List.forall_mem_cons.mpr ⟨⟨?_, Targets.legible hw.1 ht⟩, ?_⟩)
  · simp [IsKey, isKeyChar]
  · simp only [List.forall_mem_append]
    exact ⟨⟨⟨⟨⟨⟨hdistinct, hsource⟩, hcondition⟩, hgroup⟩, horder⟩, hpivot⟩, hlimit⟩

theorem legible_inductive : Inductive (fun e => e.WellFormed → e.AllOneLine → Legible e.outline)
    (fun s => s.WellFormed → s.AllOneLine → Legible s.outline) where
  expr e ih hq h hl := by
    obtain ⟨hw, hp, hs⟩ := Expr.all_iff.mp h
    obtain ⟨hl, hlp, hls⟩ := Expr.all_iff.mp hl
    exact Expr.legible_of_parts hw hl (fun x hx => ih x hx (hp x hx) (hlp x hx)) fun s he =>
      hq s he (hs s he) (hls s he)
  select s ih hq h hl := by
    obtain ⟨hw, hp, hs⟩ := Select.all_iff.mp h
    obtain ⟨-, hlp, hls⟩ := Select.all_iff.mp hl
    exact Select.legible_of_parts hw (fun x hx => ih x hx (hp x hx) (hlp x hx)) fun s' he =>
      hq s' he (hs s' he) (hls s' he)

theorem EntryFilter.WellFormed.legible {f : EntryFilter} (h : f.WellFormed) (hl : ∀ e ∈ f.expression, e.AllOneLine) :
    Legible f.outline :=
  EntryFilter.legible h.1 fun e he => legible_inductive.all.1 e (h.2 e he).2 (hl e he)

/-- The outline of a well-formed statement is legible if its strings, keys and patterns are on one line each. -/
theorem Statement.WellFormed.legible {t : Statement} (h : t.WellFormed) (hl : t.AllOneLine) : Legible t.outline := by
  cases t with
  | select s => exact legible_inductive.all.2 s h hl
  | balances b =>
    obtain ⟨hs, hf, hc⟩ := h
    have hsummary := isField_of_option "summary-func" (by simp [IsKey, isKeyChar])
      fun n (hm : n ∈ b.summary) => (hs n hm).legible
    have hsource := isField_of_option "from-clause" (by simp [IsKey, isKeyChar])
      fun f (hm : f ∈ b.source) => (hf f hm).legible (hl.1 f hm)
    have hcondition := isField_of_option "where-clause" (by simp [IsKey, isKeyChar])
      fun e (hm : e ∈ b.condition) => legible_inductive.all.1 e (hc e hm).2 (hl.2 e hm)
    refine legible_node (by simp [IsKey, isKeyChar]) ?_
    simp only [List.forall_mem_append]
    exact ⟨⟨hsummary, hsource⟩, hcondition⟩
  | journal j =>
    obtain ⟨-, hs, hf⟩ := h
    have haccount := isField_of_option "account" (by simp [IsKey, isKeyChar])
      fun a (hm : a ∈ j.account) => legible_quoted (hl.1 a hm)
    have hsummary := isField_of_option "summary-func" (by simp [IsKey, isKeyChar])
      fun n (hm : n ∈ j.summary) => (hs n hm).legible
    have hsource := isField_of_option "from-clause" (by simp [IsKey, isKeyChar])
      fun f (hm : f ∈ j.source) => (hf f hm).legible (hl.2 f hm)
    refine legible_node (by simp [IsKey, isKeyChar]) ?_
    simp only [List.forall_mem_append]
    exact ⟨⟨haccount, hsummary⟩, hsource⟩
  | print p =>
    exact legible_node (by simp [IsKey, isKeyChar]) (isField_of_option "from-clause" (by simp [IsKey, isKeyChar])
      fun f (hm : f ∈ p.source) => (h f hm).legible (hl f hm))

end LedgerQuery
