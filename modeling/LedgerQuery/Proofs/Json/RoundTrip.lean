import LedgerQuery.Proofs.Json.Values
import LedgerQuery.Proofs.Tree.Parts

/-!
# Trees come back from their JSON form

A statement is read back from its JSON form exactly as it was (`Statement.ofJson?_toJson`), whether or
not a text can be read as it.  Nothing is asked of it but that the spans of its targets have ends of
sixty-four bits.

The induction is over the parts of trees.  Each clause comes back if the expressions in it do.
-/

namespace LedgerQuery

/-- Whether the spans of all targets have ends of sixty-four bits. -/
def Select.SpansFit (s : Select) : Prop :=
  ∀ items, s.targets = .list items → ∀ t ∈ items, ∀ span ∈ t.span, span.FitsWords

/-- Whether an expression has spans of sixty-four bits at every depth. -/
def Expr.Encodable (e : Expr) : Prop := e.All (fun _ => True) Select.SpansFit

/-- Whether a query has spans of sixty-four bits at every depth. -/
def Select.Encodable (s : Select) : Prop := s.All (fun _ => True) Select.SpansFit

/-- Whether a filter has spans of sixty-four bits at every depth. -/
def EntryFilter.Encodable (f : EntryFilter) : Prop := ∀ e ∈ f.parts, e.Encodable

/-- Whether a statement has spans of sixty-four bits at every depth. -/
def Statement.Encodable : Statement → Prop
  | .select s => s.Encodable
  | .balances b => (∀ f ∈ b.source, f.Encodable) ∧ ∀ e ∈ b.condition, e.Encodable
  | .journal j => ∀ f ∈ j.source, f.Encodable
  | .print p => ∀ f ∈ p.source, f.Encodable

/-- Whether an expression comes back from its JSON form. -/
def Expr.Returns (e : Expr) : Prop := Expr.ofJson? e.toJson = some e

/-- Whether a query comes back from its JSON form. -/
def Select.Returns (s : Select) : Prop := Select.ofJson? s.toJson = some s

/-! ## Expressions -/

section
variable {e x y z : Expr} {es : List Expr}

theorem Expr.toJson_ne_null (e : Expr) : e.toJson ≠ .null := by
  cases e <;> simp [Expr.toJson, Json.tagged]

theorem Expr.ofJsonOption?_ofOption {o : Option Expr} (h : ∀ e ∈ o, e.Returns) :
    Expr.ofJsonOption? (Json.ofOption Expr.toJson o) = some o := by
  cases o with
  | none => simp [Json.ofOption, Expr.ofJsonOption?]
  | some e =>
    have he : Expr.ofJson? e.toJson = some e := h e rfl
    have hsome : ∀ j, j ≠ .null → Expr.ofJsonOption? j = some <$> Expr.ofJson? j := fun j hj => by
      rw [Expr.ofJsonOption?]
      exact hj
    rw [Json.ofOption, hsome _ e.toJson_ne_null, he]
    rfl

theorem Expr.ofJsonList?_toJsonList (h : ∀ e ∈ es, e.Returns) :
    Expr.ofJsonList? (Expr.toJsonList es) = some es := by
  induction es with
  | nil => simp [Expr.toJsonList, Expr.ofJsonList?]
  | cons e es ih =>
    have he : Expr.ofJson? e.toJson = some e := h e (by simp)
    simp [Expr.toJsonList, Expr.ofJsonList?, he, ih fun x hx => h x (by simp [hx])]

/-- An expression comes back if its parts and its query do. -/
theorem Expr.Returns.of_parts (hx : ∀ x ∈ e.parts, x.Returns) (hs : ∀ s, e = .subselect s → s.Returns) :
    e.Returns := by
  unfold Expr.Returns at hx ⊢
  cases e with
  | wildcard => simp [Expr.toJson, Expr.ofJson?]
  | column n => simp [Expr.toJson, Json.tagged, Expr.ofJson?, Json.str?]
  | constant c => simp [Expr.toJson, Json.tagged, Expr.ofJson?]
  | placeholder p => simp [Expr.toJson, Json.tagged, Expr.ofJson?]
  | function n args =>
    have hargs : Expr.ofJsonList? (Expr.toJsonList args) = some args := Expr.ofJsonList?_toJsonList hx
    simp [Expr.toJson, Json.tagged, Expr.ofJson?, Json.field?, Json.lookup?, Json.str?, Expr.ofJsonArray?, hargs]
  | «attribute» x n =>
    have hx := hx x (by simp [Expr.parts])
    simp [Expr.toJson, Json.tagged, Expr.ofJson?, Json.field?, Json.lookup?, Json.str?, hx]
  | subscript x key =>
    have hx := hx x (by simp [Expr.parts])
    simp [Expr.toJson, Json.tagged, Expr.ofJson?, Json.field?, Json.lookup?, Json.str?, hx]
  | unary op x =>
    have hx := hx x (by simp [Expr.parts])
    simp [Expr.toJson, Json.tagged, Expr.ofJson?, Json.field?, Json.lookup?, hx]
  | binary x op y =>
    have hl := hx x (by simp [Expr.parts])
    have hr := hx y (by simp [Expr.parts])
    simp [Expr.toJson, Json.tagged, Expr.ofJson?, Json.field?, Json.lookup?, hl, hr]
  | bool op args =>
    have hargs : Expr.ofJsonList? (Expr.toJsonList args) = some args := Expr.ofJsonList?_toJsonList hx
    simp [Expr.toJson, Json.tagged, Expr.ofJson?, Json.field?, Json.lookup?, Expr.ofJsonArray?, hargs]
  | between x y z =>
    have h₁ := hx x (by simp [Expr.parts])
    have h₂ := hx y (by simp [Expr.parts])
    have h₃ := hx z (by simp [Expr.parts])
    simp [Expr.toJson, Json.tagged, Expr.ofJson?, Json.field?, Json.lookup?, h₁, h₂, h₃]
  | subselect s =>
    have hs : Select.ofJson? s.toJson = some s := hs s rfl
    simp [Expr.toJson, Json.tagged, Expr.ofJson?, hs]

end

/-! ## Clauses -/

theorem option?_name {n : Option String} : Json.option? Json.str? (Json.ofOption .str n) = some n :=
  option?_ofOption (fun _ _ => by simp) fun _ _ => rfl

theorem EntryFilter.toJson_eq (f : EntryFilter) : f.toJson =
    .obj [("expression", Json.ofOption Expr.toJson f.expression), ("open", Json.ofOption Date.toJson f.openOn),
      ("close", Json.ofOption Closing.toJson f.close), ("clear", .bool f.clear)] := by
  obtain ⟨_ | e, _, _, _⟩ := f <;> rfl

theorem EntryFilter.ofJson?_encoded {f : EntryFilter} (h : ∀ x ∈ f.parts, x.Returns) :
    EntryFilter.ofJson? f.toJson = some f := by
  have hexpression := Expr.ofJsonOption?_ofOption (o := f.expression) fun e he => h e (Option.mem_toList.mpr he)
  have hopen : Json.option? Date.ofJson? (Json.ofOption Date.toJson f.openOn) = some f.openOn :=
    option?_ofOption (fun d _ => by simp [Date.toJson]) fun d _ => d.ofJson?_encoded
  have hclose : Json.option? Closing.ofJson? (Json.ofOption Closing.toJson f.close) = some f.close :=
    option?_ofOption (fun c _ => by cases c <;> simp [Closing.toJson, Json.tagged]) fun c _ => c.ofJson?_encoded
  simp [EntryFilter.toJson_eq, EntryFilter.ofJson?, Json.part?, Json.field?, Json.lookup?, Json.bool?, hexpression,
    hopen, hclose]
  cases f
  rfl

theorem ColumnKey.ofJson?_encoded {k : ColumnKey} (h : ∀ x ∈ k.parts, x.Returns) :
    ColumnKey.ofJson? k.toJson = some k := by
  cases k with
  | index n => simp [ColumnKey.toJson, Json.tagged, ColumnKey.ofJson?]
  | expr e =>
    have he : Expr.ofJson? e.toJson = some e := h e (by simp [ColumnKey.parts])
    simp [ColumnKey.toJson, Json.tagged, ColumnKey.ofJson?, he]

theorem ColumnKey.ofJsonList?_toJsonList {keys : List ColumnKey} (h : ∀ k ∈ keys, ∀ x ∈ k.parts, x.Returns) :
    ColumnKey.ofJsonList? (ColumnKey.toJsonList keys) = some keys := by
  induction keys with
  | nil => simp [ColumnKey.toJsonList, ColumnKey.ofJsonList?]
  | cons k keys ih =>
    have hk := ColumnKey.ofJson?_encoded (h k (by simp))
    simp [ColumnKey.toJsonList, ColumnKey.ofJsonList?, hk, ih fun k hk => h k (by simp [hk])]

theorem GroupBy.toJson_eq (g : GroupBy) : g.toJson =
    .obj [("columns", .arr (ColumnKey.toJsonList g.keys)), ("having", Json.ofOption Expr.toJson g.having)] := by
  obtain ⟨_, _ | e⟩ := g <;> rfl

theorem GroupBy.ofJson?_encoded {g : GroupBy} (h : ∀ x ∈ g.parts, x.Returns) :
    GroupBy.ofJson? g.toJson = some g := by
  have hkeys : ColumnKey.ofJsonList? (ColumnKey.toJsonList g.keys) = some g.keys :=
    ColumnKey.ofJsonList?_toJsonList fun k hk x hx => h x (List.mem_append_left _ (List.mem_flatMap.mpr ⟨k, hk, hx⟩))
  have hhaving := Expr.ofJsonOption?_ofOption (o := g.having) fun e he =>
    h e (List.mem_append_right _ (Option.mem_toList.mpr he))
  simp [GroupBy.toJson_eq, GroupBy.ofJson?, Json.part?, Json.field?, Json.lookup?, ColumnKey.ofJsonArray?, hkeys,
    hhaving]
  cases g
  rfl

theorem GroupBy.ofJsonOption?_ofOption {o : Option GroupBy} (h : ∀ g ∈ o, ∀ x ∈ g.parts, x.Returns) :
    GroupBy.ofJsonOption? (Json.ofOption GroupBy.toJson o) = some o := by
  cases o with
  | none => simp [Json.ofOption, GroupBy.ofJsonOption?]
  | some g =>
    have hsome : ∀ j, j ≠ .null → GroupBy.ofJsonOption? j = some <$> GroupBy.ofJson? j := fun j hj => by
      rw [GroupBy.ofJsonOption?]
      exact hj
    rw [Json.ofOption, hsome _ (by simp [GroupBy.toJson_eq]), GroupBy.ofJson?_encoded (h g rfl)]
    rfl

theorem SortKey.ofJsonList?_toJsonList {keys : List SortKey} (h : ∀ k ∈ keys, ∀ x ∈ k.column.parts, x.Returns) :
    SortKey.ofJsonList? (SortKey.toJsonList keys) = some keys := by
  induction keys with
  | nil => simp [SortKey.toJsonList, SortKey.ofJsonList?]
  | cons k keys ih =>
    obtain ⟨column, direction⟩ := k
    have hk := ColumnKey.ofJson?_encoded (h _ List.mem_cons_self)
    simp [SortKey.toJsonList, SortKey.ofJsonList?, Json.field?, Json.lookup?, hk,
      ih fun k hk => h k (List.mem_cons_of_mem _ hk)]

/-- Targets come back if their expressions do and their spans have ends of sixty-four bits. -/
theorem Target.ofJsonList?_toJsonList {ts : List Target} (h : ∀ t ∈ ts, t.expr.Returns)
    (hspan : ∀ t ∈ ts, ∀ span ∈ t.span, span.FitsWords) :
    Target.ofJsonList? (Target.toJsonList ts) = some ts := by
  induction ts with
  | nil => simp [Target.toJsonList, Target.ofJsonList?]
  | cons t ts ih =>
    obtain ⟨e, name, span⟩ := t
    have he : Expr.ofJson? e.toJson = some e := h _ List.mem_cons_self
    have hname := option?_name (n := name)
    have hts := ih (fun t ht => h t (List.mem_cons_of_mem _ ht)) fun t ht => hspan t (List.mem_cons_of_mem _ ht)
    cases span with
    | none => simp [Target.toJsonList, Target.ofJsonList?, Json.part?, Json.field?, Json.lookup?, he, hname, hts]
    | some span =>
      have hs : Json.option? Span.ofJson? span.toJson = some (some span) := by
        rw [option?_of_ne_null (by simp [Span.toJson]), Span.ofJson?_encoded (hspan _ List.mem_cons_self span rfl),
          Option.map_some]
      simp [Target.toJsonList, Target.ofJsonList?, Json.part?, Json.field?, Json.lookup?, he, hname, hs, hts]

theorem Targets.ofJson?_encoded {t : Targets} (h : ∀ x ∈ t.parts, x.Returns)
    (hspan : ∀ items, t = .list items → ∀ t ∈ items, ∀ span ∈ t.span, span.FitsWords) :
    Targets.ofJson? t.toJson = some t := by
  cases t with
  | all => simp [Targets.toJson, Targets.ofJson?]
  | list items =>
    have hitems : Target.ofJsonList? (Target.toJsonList items) = some items := Target.ofJsonList?_toJsonList
      (fun t ht => h _ (List.mem_map_of_mem ht)) (hspan items rfl)
    simp [Targets.toJson, Json.tagged, Targets.ofJson?, hitems]

theorem Source.ofJsonOption?_ofOption {o : Option Source} (h : ∀ a ∈ o, ∀ x ∈ a.parts, x.Returns)
    (hs : ∀ s, o = some (.query s) → s.Returns) :
    Source.ofJsonOption? (Json.ofOption Source.toJson o) = some o := by
  cases o with
  | none => simp [Json.ofOption, Source.ofJsonOption?]
  | some a =>
    cases a with
    | table n =>
      simp [Json.ofOption, Source.toJson, Json.tagged, Source.ofJsonOption?, Source.ofJson?, Json.field?, Json.lookup?,
        Json.str?]
    | query s =>
      have hs : Select.ofJson? s.toJson = some s := hs s rfl
      simp [Json.ofOption, Source.toJson, Json.tagged, Source.ofJsonOption?, Source.ofJson?, hs]
    | entries f =>
      have hf := EntryFilter.ofJson?_encoded (f := f) (h _ rfl)
      simp [Json.ofOption, Source.toJson, Json.tagged, Source.ofJsonOption?, Source.ofJson?, hf]

theorem SortKey.ofJsonOption?_ofOption {o : Option (List SortKey)}
    (h : ∀ keys ∈ o, ∀ k ∈ keys, ∀ x ∈ k.column.parts, x.Returns) :
    SortKey.ofJsonOption? (Json.ofOption (fun keys => .arr (SortKey.toJsonList keys)) o) = some o := by
  cases o with
  | none => simp [Json.ofOption, SortKey.ofJsonOption?]
  | some keys => simp [Json.ofOption, SortKey.ofJsonOption?, SortKey.ofJsonList?_toJsonList (h keys rfl)]

/-! ## Queries -/

theorem Select.toJson_eq (s : Select) : s.toJson =
    .obj [("targets", s.targets.toJson), ("distinct", .bool s.distinct),
      ("from_clause", Json.ofOption Source.toJson s.source), ("where_clause", Json.ofOption Expr.toJson s.condition),
      ("group_by", Json.ofOption GroupBy.toJson s.groupBy),
      ("order_by", Json.ofOption (fun keys => .arr (SortKey.toJsonList keys)) s.orderBy),
      ("pivot_by", Json.ofOption PivotBy.toJson s.pivotBy), ("limit", Json.ofOption wordJson s.limit)] := by
  obtain ⟨_, _, _ | a, _ | e, _ | g, _ | keys, _, _⟩ := s <;> rfl

/-- A query comes back if its parts and the query that is its source do, and the spans of its targets
have ends of sixty-four bits. -/
theorem Select.Returns.of_parts {s : Select} (hx : ∀ x ∈ s.parts, x.Returns)
    (hs : ∀ s', s.source = some (.query s') → s'.Returns) (hspan : s.SpansFit) : s.Returns := by
  obtain ⟨ht, ha, hc, hg, ho⟩ := Select.forall_parts.mp ⟨hx, hs⟩
  have htargets := Targets.ofJson?_encoded ht hspan
  have hsource := Source.ofJsonOption?_ofOption (fun a hm => (ha a hm).1) hs
  have hcondition := Expr.ofJsonOption?_ofOption hc
  have hgroup := GroupBy.ofJsonOption?_ofOption hg
  have horder := SortKey.ofJsonOption?_ofOption ho
  have hpivot : Json.option? PivotBy.ofJson? (Json.ofOption PivotBy.toJson s.pivotBy) = some s.pivotBy :=
    option?_ofOption (fun p _ => by simp [PivotBy.toJson]) fun p _ => p.ofJson?_encoded
  have hlimit : Json.option? ofWordJson? (Json.ofOption wordJson s.limit) = some s.limit :=
    option?_ofOption (fun n _ => by simp [wordJson, Json.ofNat]) fun n _ => ofWordJson?_wordJson n
  simp [Select.Returns, Select.toJson_eq, Select.ofJson?, Json.part?, Json.field?, Json.lookup?, Json.bool?, htargets,
    hsource, hcondition, hgroup, horder, hpivot, hlimit]
  cases s
  rfl

theorem returns_inductive : Inductive (fun e => e.Encodable → e.Returns) (fun s => s.Encodable → s.Returns) where
  expr e ih ihs h := by
    obtain ⟨-, hx, hs⟩ := Expr.all_iff.mp h
    exact .of_parts (fun x hm => ih x hm (hx x hm)) fun s he => ihs s he (hs s he)
  select s ih ihs h := by
    obtain ⟨hspan, hx, hs⟩ := Select.all_iff.mp h
    exact .of_parts (fun x hm => ih x hm (hx x hm)) (fun s' he => ihs s' he (hs s' he)) hspan

/-- An expression comes back from its JSON form. -/
theorem Expr.Encodable.returns {e : Expr} (h : e.Encodable) : e.Returns := returns_inductive.all.1 e h

/-- A query comes back from its JSON form. -/
theorem Select.Encodable.returns {s : Select} (h : s.Encodable) : s.Returns := returns_inductive.all.2 s h

/-! ## Statements -/

section
variable {f : Option EntryFilter} {e : Option Expr}

theorem option?_filter (h : ∀ x ∈ f, x.Encodable) :
    Json.option? EntryFilter.ofJson? (Json.ofOption EntryFilter.toJson f) = some f :=
  option?_ofOption (fun f _ => by simp [EntryFilter.toJson_eq]) fun f hf =>
    EntryFilter.ofJson?_encoded fun x hx => (h f hf x hx).returns

theorem option?_condition (h : ∀ x ∈ e, x.Encodable) :
    Json.option? Expr.ofJson? (Json.ofOption Expr.toJson e) = some e :=
  option?_ofOption (fun e _ => e.toJson_ne_null) fun e he => (h e he).returns

end

/-- A statement whose spans have ends of sixty-four bits comes back from its JSON form. -/
theorem Statement.ofJson?_toJson {t : Statement} (h : t.Encodable) : Statement.ofJson? t.toJson = some t := by
  cases t with
  | select s =>
    have hs : Select.ofJson? s.toJson = some s := Select.Encodable.returns h
    simp [Statement.toJson, Json.tagged, Statement.ofJson?, hs]
  | balances b =>
    simp [Statement.toJson, Json.tagged, Statement.ofJson?, Balances.toJson, Balances.ofJson?, Json.part?,
      Json.lookup?, option?_name, option?_filter h.1, option?_condition h.2]
  | journal j =>
    simp [Statement.toJson, Json.tagged, Statement.ofJson?, Journal.toJson, Journal.ofJson?, Json.part?,
      Json.lookup?, option?_name, option?_filter h]
  | print p =>
    simp [Statement.toJson, Json.tagged, Statement.ofJson?, Print.toJson, Print.ofJson?, Json.part?, Json.lookup?,
      option?_filter h]

/-- The largest span and limit, a negative integer, a negative decimal with a zero at its end, a source
without targets, and a target without a span. -/
theorem Statement.ofJson?_toJson_extremes :
    let number : Expr := .binary (.literal (.integer (-1))) .sub (.literal (.decimal ⟨-150, 2, by decide, by decide⟩))
    let t : Statement := .select ⟨.list [⟨number, some "", some ⟨0, 18446744073709551615⟩⟩, ⟨.wildcard, none, none⟩],
      true, some (.query (.ofTargets (.list []))), none, none, some [], none, some 18446744073709551615⟩
    t.Encodable ∧ Statement.ofJson? t.toJson = some t := by
  intro number t
  have hleaf : ∀ e : Expr, e.parts = [] → (∀ s, e ≠ .subselect s) → e.Encodable := fun e hp hs =>
    .mk trivial (by simp [hp]) fun s he => absurd he (hs s)
  have hnumber : number.Encodable := by
    refine .mk trivial (fun x hx => ?_) (by simp [number])
    obtain rfl | rfl : x = .literal (.integer (-1)) ∨ x = .literal (.decimal ⟨-150, 2, by decide, by decide⟩) := by
      simpa [number, Expr.parts] using hx
    all_goals exact hleaf _ rfl (by simp [Expr.literal])
  have hsource : (Select.ofTargets (.list [])).Encodable := by
    refine .mk ?_ (by simp [Select.parts, Select.ofTargets, Targets.parts]) (by simp [Select.ofTargets])
    rintro items ⟨⟩
    simp
  have h : t.Encodable := by
    refine .mk ?_ (fun x hx => ?_) ?_
    · rintro items ⟨⟩
      simp [Span.FitsWords]
    · obtain rfl | rfl : x = number ∨ x = .wildcard := by
        simpa [Select.parts, Targets.parts, Source.parts] using hx
      exacts [hnumber, hleaf _ rfl (by simp)]
    · rintro s ⟨⟩
      exact hsource
  exact ⟨h, Statement.ofJson?_toJson h⟩

end LedgerQuery
