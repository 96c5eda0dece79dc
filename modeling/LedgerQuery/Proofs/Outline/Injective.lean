import LedgerQuery.Proofs.Outline.Readable
import LedgerQuery.Proofs.Reading.Valid
import LedgerQuery.Proofs.Tree.Unspanned

/-!
# Different queries have different outlines

The outlines of two well-formed trees are the same only if the trees are, apart from the spans of their targets
(`determined_inductive`).  The fields of a node have different names, so each is found by its name, and a part that is
absent has no field.

With the texts of legible outlines this holds of the texts as well: two statements that were read and have the same
dump are the same query (`unspanned_eq_of_outline_text`).
-/

namespace LedgerQuery

open Outline

/-! ## What an outline shows -/

/-- Whether what is made of a value determines what a view shows of it, among values of one kind. -/
def Determines {α β γ : Type} (kind : α → Prop) (f : α → β) (v : α → γ) (a : α) : Prop :=
  ∀ b, kind b → f a = f b → v a = v b

namespace Determines

variable {α β γ : Type} {kind : α → Prop} {f : α → β} {v : α → γ}

theorem list {as : List α} (h : ∀ a ∈ as, Determines kind f v a) :
    Determines (fun bs => ∀ b ∈ bs, kind b) (List.map f) (List.map v) as := by
  induction as with
  | nil =>
    intro bs _ he
    rw [List.map_nil] at he
    rw [List.map_eq_nil_iff.mp he.symm]
  | cons a as ih =>
    intro bs hk he
    cases bs with
    | nil => cases he
    | cons b bs =>
      obtain ⟨hhead, htail⟩ := List.cons.inj he
      rw [List.map_cons, List.map_cons, h a (by simp) b (hk b (by simp)) hhead,
        ih (fun x hx => h x (List.mem_cons_of_mem a hx)) bs (fun x hx => hk x (List.mem_cons_of_mem b hx)) htail]

theorem option {o : Option α} (h : ∀ a ∈ o, Determines kind f v a) :
    Determines (fun o => ∀ b ∈ o, kind b) (Option.map f) (Option.map v) o := by
  intro o' hk he
  cases o with
  | none =>
    cases o' with
    | none => rfl
    | some b => cases he
  | some a =>
    cases o' with
    | none => cases he
    | some b => rw [Option.map_some, Option.map_some, h a rfl b (hk b rfl) (Option.some.inj he)]

end Determines

/-- Two optional values of which the same is made are the same, if it is made of one value only. -/
theorem option_eq_of_map {α β : Type} {f : α → β} {o o' : Option α} (h : ∀ a ∈ o, ∀ b ∈ o', f a = f b → a = b)
    (he : o.map f = o'.map f) : o = o' := by
  simpa using Determines.option (v := id) (fun a ha b hb => h a ha b hb) o' (fun b hb => hb) he

/-! ## Finding fields -/

theorem lookup_cons_field (key name : String) (o : Outline) (fields : List (String × Outline)) :
    ((name, o) :: fields).lookup key = if key = name then some o else fields.lookup key := by
  by_cases h : key = name
  · rw [if_pos h, h, List.lookup_cons_self]
  · rw [if_neg h, List.lookup, beq_eq_false_iff_ne.mpr h]

theorem lookup_field (key name : String) (part : Option Outline) :
    (field name part).lookup key = if key = name then part else none := by
  cases part with
  | none => rw [ite_self]; rfl
  | some o => exact lookup_cons_field key name o []

theorem flagOutline_inj {b b' : Bool} (h : flagOutline b = flagOutline b') : b = b' := by
  cases b <;> cases b' <;> simp [flagOutline] at h ⊢

/-! ## Expressions -/

/-- Whether an expression is determined by its outline, apart from spans. -/
def Expr.Determined (e : Expr) : Prop := Determines Expr.WellFormed Expr.outline Expr.unspanned e

/-- Whether a query is determined by its outline, apart from spans. -/
def Select.Determined (s : Select) : Prop := Determines Select.WellFormed Select.outline Select.unspanned s

theorem UnaryOp.name_inj {op op' : UnaryOp} (h : op.name = op'.name) : op = op' := by
  cases op <;> cases op' <;> simp [UnaryOp.name] at h ⊢

theorem BinaryOp.name_inj {op op' : BinaryOp} (h : op.name = op'.name) : op = op' := by
  cases op <;> cases op' <;> simp [BinaryOp.name] at h ⊢

theorem BoolOp.name_inj {op op' : BoolOp} (h : op.name = op'.name) : op = op' := by
  cases op <;> cases op' <;> simp [BoolOp.name] at h ⊢

section
variable {e x left right lower upper : Expr} {n key : String} {c : Constant} {p : Placeholder} {args : List Expr}
  {s : Select}

theorem Expr.eq_wildcard_of_outline (h : e.outline = Expr.wildcard.outline) : e = .wildcard := by
  cases e with
  | wildcard => rfl
  | _ => simp [Expr.outline, Expr.outline_placeholder, Select.outline_eq] at h

theorem Expr.eq_column_of_outline (h : e.outline = (Expr.column n).outline) : e = .column n := by
  cases e with
  | column n' => rw [quoted_inj (show quoted n' = quoted n by simpa [Expr.outline] using h)]
  | _ => simp [Expr.outline, Expr.outline_placeholder, Select.outline_eq] at h

theorem Expr.eq_constant_of_outline (h : e.outline = (Expr.constant c).outline) :
    ∃ c', e = .constant c' ∧ c'.outline = c.outline := by
  cases e with
  | constant c' => exact ⟨c', rfl, by simpa [Expr.outline] using h⟩
  | _ => simp [Expr.outline, Expr.outline_placeholder, Select.outline_eq] at h

theorem Expr.eq_placeholder_of_outline (h : e.outline = (Expr.placeholder p).outline) : e = .placeholder p := by
  cases p with
  | positional =>
    cases e with
    | placeholder p' => cases p' <;> simp [Expr.outline] at h ⊢
    | _ => simp [Expr.outline, Select.outline_eq, Select.fields] at h
  | named n =>
    cases e with
    | placeholder p' =>
      cases p' with
      | positional => simp [Expr.outline] at h
      | named n' =>
        have hn : quoted n' = quoted n := by simpa [Expr.outline] using h
        rw [quoted_inj hn]
    | _ => simp [Expr.outline, Select.outline_eq, Select.fields] at h

theorem Expr.eq_function_of_outline (h : e.outline = (Expr.function n args).outline) :
    ∃ args', e = .function n args' ∧ args'.map Expr.outline = args.map Expr.outline := by
  cases e with
  | function n' args' =>
    rw [Expr.outline_function, Expr.outline_function] at h
    obtain ⟨hn, hargs⟩ : quoted n' = quoted n ∧ args'.map Expr.outline = args.map Expr.outline := by simpa using h
    exact ⟨args', by rw [quoted_inj hn], hargs⟩
  | _ => simp [Expr.outline, Expr.outline_placeholder, Select.outline_eq, Select.fields, field] at h

theorem Expr.eq_attribute_of_outline (h : e.outline = (Expr.attribute x n).outline) :
    ∃ x', e = .attribute x' n ∧ x'.outline = x.outline := by
  cases e with
  | «attribute» x' n' =>
    obtain ⟨hx, hn⟩ : x'.outline = x.outline ∧ quoted n' = quoted n := by simpa [Expr.outline] using h
    exact ⟨x', by rw [quoted_inj hn], hx⟩
  | _ => simp [Expr.outline, Expr.outline_placeholder, Select.outline_eq, Select.fields, field] at h

theorem Expr.eq_subscript_of_outline (h : e.outline = (Expr.subscript x key).outline) :
    ∃ x', e = .subscript x' key ∧ x'.outline = x.outline := by
  cases e with
  | subscript x' key' =>
    obtain ⟨hx, hkey⟩ : x'.outline = x.outline ∧ quoted key' = quoted key := by simpa [Expr.outline] using h
    exact ⟨x', by rw [quoted_inj hkey], hx⟩
  | _ => simp [Expr.outline, Expr.outline_placeholder, Select.outline_eq, Select.fields, field] at h

theorem Expr.eq_unary_of_outline {op : UnaryOp} (h : e.outline = (Expr.unary op x).outline) :
    ∃ x', e = .unary op x' ∧ x'.outline = x.outline := by
  cases e with
  | placeholder p => cases Expr.eq_placeholder_of_outline h.symm
  | unary op' x' =>
    obtain ⟨hop, hx⟩ : op'.name = op.name ∧ x'.outline = x.outline := by simpa [Expr.outline] using h
    exact ⟨x', by rw [UnaryOp.name_inj hop], hx⟩
  | _ => simp [Expr.outline, Select.outline_eq, Select.fields, field] at h

theorem Expr.eq_binary_of_outline {op : BinaryOp} (h : e.outline = (Expr.binary left op right).outline) :
    ∃ left' right', e = .binary left' op right' ∧ left'.outline = left.outline ∧ right'.outline = right.outline := by
  cases e with
  | placeholder p => cases Expr.eq_placeholder_of_outline h.symm
  | binary left' op' right' =>
    obtain ⟨hop, hleft, hright⟩ : op'.name = op.name ∧ left'.outline = left.outline ∧
        right'.outline = right.outline := by simpa [Expr.outline] using h
    exact ⟨left', right', by rw [BinaryOp.name_inj hop], hleft, hright⟩
  | _ => simp [Expr.outline, Select.outline_eq, Select.fields, field] at h

theorem Expr.eq_bool_of_outline {op : BoolOp} (h : e.outline = (Expr.bool op args).outline) :
    ∃ args', e = .bool op args' ∧ args'.map Expr.outline = args.map Expr.outline := by
  cases e with
  | placeholder p => cases Expr.eq_placeholder_of_outline h.symm
  | bool op' args' =>
    rw [Expr.outline_bool, Expr.outline_bool] at h
    obtain ⟨hop, hargs⟩ : op'.name = op.name ∧ args'.map Expr.outline = args.map Expr.outline := by simpa using h
    exact ⟨args', by rw [BoolOp.name_inj hop], hargs⟩
  | _ => simp [Expr.outline, Select.outline_eq, Select.fields, field] at h

theorem Expr.eq_between_of_outline (h : e.outline = (Expr.between x lower upper).outline) :
    ∃ x' lower' upper', e = .between x' lower' upper' ∧ x'.outline = x.outline ∧ lower'.outline = lower.outline ∧
      upper'.outline = upper.outline := by
  cases e with
  | between x' lower' upper' => exact ⟨x', lower', upper', rfl, by simpa [Expr.outline] using h⟩
  | _ => simp [Expr.outline, Expr.outline_placeholder, Select.outline_eq, Select.fields, field] at h

theorem Expr.eq_subselect_of_outline (h : e.outline = (Expr.subselect s).outline) :
    ∃ s', e = .subselect s' ∧ s'.outline = s.outline := by
  cases e with
  | subselect s' => exact ⟨s', rfl, h⟩
  | _ => simp [Expr.outline, Expr.outline_placeholder, Select.outline_eq, Select.fields, field] at h

end

/-- An expression is determined by its outline if its parts are. -/
theorem Expr.determined_of_parts {e : Expr} (hw : e.Writable) (ih : ∀ x ∈ e.parts, x.Determined)
    (hq : ∀ s, e = .subselect s → s.Determined) : e.Determined := by
  intro e' h' he
  obtain ⟨hw', hp', hs'⟩ := Expr.all_iff.mp h'
  have hpart : ∀ x ∈ e.parts, ∀ x' ∈ e'.parts, x'.outline = x.outline → x.unspanned = x'.unspanned :=
    fun x hx x' hx' hxx => ih x hx x' (hp' x' hx') hxx.symm
  cases e with
  | wildcard => rw [Expr.eq_wildcard_of_outline he.symm]
  | column n => rw [Expr.eq_column_of_outline he.symm]
  | constant c =>
    obtain ⟨c', rfl, hc⟩ := Expr.eq_constant_of_outline he.symm
    rw [Constant.Writable.outline_inj hw hw' hc.symm]
  | placeholder p => rw [Expr.eq_placeholder_of_outline he.symm]
  | function n args =>
    obtain ⟨args', rfl, hargs⟩ := Expr.eq_function_of_outline he.symm
    have hsame : args.map Expr.unspanned = args'.map Expr.unspanned := Determines.list ih args' hp' hargs.symm
    rw [Expr.unspanned, Expr.unspanned, Expr.unspannedList_eq_map, Expr.unspannedList_eq_map, hsame]
  | «attribute» x n =>
    obtain ⟨x', rfl, hx⟩ := Expr.eq_attribute_of_outline he.symm
    rw [Expr.unspanned, Expr.unspanned, hpart x (by simp [Expr.parts]) x' (by simp [Expr.parts]) hx]
  | subscript x key =>
    obtain ⟨x', rfl, hx⟩ := Expr.eq_subscript_of_outline he.symm
    rw [Expr.unspanned, Expr.unspanned, hpart x (by simp [Expr.parts]) x' (by simp [Expr.parts]) hx]
  | unary op x =>
    obtain ⟨x', rfl, hx⟩ := Expr.eq_unary_of_outline he.symm
    rw [Expr.unspanned, Expr.unspanned, hpart x (by simp [Expr.parts]) x' (by simp [Expr.parts]) hx]
  | binary left op right =>
    obtain ⟨left', right', rfl, hleft, hright⟩ := Expr.eq_binary_of_outline he.symm
    rw [Expr.unspanned, Expr.unspanned, hpart left (by simp [Expr.parts]) left' (by simp [Expr.parts]) hleft,
      hpart right (by simp [Expr.parts]) right' (by simp [Expr.parts]) hright]
  | bool op args =>
    obtain ⟨args', rfl, hargs⟩ := Expr.eq_bool_of_outline he.symm
    have hsame : args.map Expr.unspanned = args'.map Expr.unspanned := Determines.list ih args' hp' hargs.symm
    rw [Expr.unspanned, Expr.unspanned, Expr.unspannedList_eq_map, Expr.unspannedList_eq_map, hsame]
  | between x lower upper =>
    obtain ⟨x', lower', upper', rfl, hx, hlower, hupper⟩ := Expr.eq_between_of_outline he.symm
    rw [Expr.unspanned, Expr.unspanned, hpart x (by simp [Expr.parts]) x' (by simp [Expr.parts]) hx,
      hpart lower (by simp [Expr.parts]) lower' (by simp [Expr.parts]) hlower,
      hpart upper (by simp [Expr.parts]) upper' (by simp [Expr.parts]) hupper]
  | subselect s =>
    obtain ⟨s', rfl, hs⟩ := Expr.eq_subselect_of_outline he.symm
    rw [Expr.unspanned, Expr.unspanned, hq s rfl s' (hs' s' rfl) hs.symm]

/-! ## Clauses -/

/-- Whether an expression that stands in a clause is well-formed. -/
def Expr.WellFormedPart (e : Expr) : Prop := e ≠ .wildcard ∧ e.WellFormed

/-- The number of a target is no expression. -/
theorem numberOutline_ne {n : UInt64} {e : Expr} (h : e ≠ .wildcard) : numberOutline n ≠ e.outline := by
  intro he
  cases e with
  | wildcard => exact h rfl
  | _ => simp [numberOutline, Expr.outline, Expr.outline_placeholder, Select.outline_eq] at he

theorem ColumnKey.determined {k : ColumnKey} (hne : .wildcard ∉ k.parts) (h : ∀ x ∈ k.parts, x.Determined) :
    Determines (fun k => ∀ x ∈ k.parts, x.WellFormedPart) ColumnKey.outline ColumnKey.unspanned k := by
  intro k' hk' he
  cases k with
  | index n =>
    cases k' with
    | index n' =>
      have hn : numberOutline n = numberOutline n' := he
      rw [numberOutline_inj hn]
    | expr e' => exact absurd he (numberOutline_ne (hk' e' (by simp [ColumnKey.parts])).1)
  | expr e =>
    cases k' with
    | index n' => exact absurd he.symm (numberOutline_ne fun hw => hne (by simp [ColumnKey.parts, hw]))
    | expr e' =>
      rw [ColumnKey.unspanned, ColumnKey.unspanned,
        h e (by simp [ColumnKey.parts]) e' (hk' e' (by simp [ColumnKey.parts])).2 he]

theorem GroupBy.determined {g : GroupBy} (hne : .wildcard ∉ g.parts) (h : ∀ x ∈ g.parts, x.Determined) :
    Determines (fun g => ∀ x ∈ g.parts, x.WellFormedPart) GroupBy.outline GroupBy.unspanned g := by
  have hkeys : ∀ k ∈ g.keys, Determines (fun k => ∀ x ∈ k.parts, x.WellFormedPart) ColumnKey.outline
      ColumnKey.unspanned k := fun k hk =>
    ColumnKey.determined (fun hm => hne (by simpa [GroupBy.parts] using .inl ⟨k, hk, hm⟩))
      fun x hx => h x (by simpa [GroupBy.parts] using .inl ⟨k, hk, hx⟩)
  have hhaving : ∀ e ∈ g.having, e.Determined := fun e he => h e (by simpa [GroupBy.parts] using .inr he)
  intro g' hg' he
  rw [GroupBy.outline_eq, GroupBy.outline_eq] at he
  obtain ⟨hk, hf⟩ : g.keys.map ColumnKey.outline = g'.keys.map ColumnKey.outline ∧
    field "having" (g.having.map Expr.outline) = field "having" (g'.having.map Expr.outline) := by simpa using he
  have hh := congrArg (List.lookup "having") hf
  rw [lookup_field, lookup_field] at hh
  rw [GroupBy.unspanned_eq, GroupBy.unspanned_eq,
    Determines.list hkeys g'.keys (fun k hk x hx => hg' x (by simpa [GroupBy.parts] using .inl ⟨k, hk, hx⟩)) hk,
    Determines.option hhaving g'.having (fun x hx => (hg' x (by simpa [GroupBy.parts] using .inr hx)).2) hh]

theorem SortKey.determined {k : SortKey} (hne : .wildcard ∉ k.column.parts) (h : ∀ x ∈ k.column.parts, x.Determined) :
    Determines (fun k => ∀ x ∈ k.column.parts, x.WellFormedPart) SortKey.outline SortKey.unspanned k := by
  intro k' hk' he
  obtain ⟨hc, hd⟩ : k.column.outline = k'.column.outline ∧ k.direction.outline = k'.direction.outline := by
    simpa [SortKey.outline] using he
  have hsame : k.direction = k'.direction := by
    cases hdir : k.direction <;> cases hdir' : k'.direction <;> simp [hdir, hdir', SortDirection.outline] at hd ⊢
  rw [SortKey.unspanned, SortKey.unspanned, ColumnKey.determined hne h k'.column hk' hc, hsame]

theorem Target.determined {t : Target} (h : t.expr.Determined) :
    Determines (fun t => t.expr.WellFormed) Target.outline Target.unspanned t := by
  intro t' ht' he
  obtain ⟨hx, hf⟩ : t.expr.outline = t'.expr.outline ∧
    field "name" (t.name.map quoted) = field "name" (t'.name.map quoted) := by simpa [Target.outline] using he
  have hn := congrArg (List.lookup "name") hf
  rw [lookup_field, lookup_field] at hn
  rw [Target.unspanned, Target.unspanned, h t'.expr ht' hx, option_eq_of_map (fun _ _ _ _ => quoted_inj) hn]

theorem Targets.determined {t : Targets} (h : ∀ x ∈ t.parts, x.Determined) :
    Determines (fun t => ∀ x ∈ t.parts, x.WellFormed) Targets.outline Targets.unspanned t := by
  intro t' ht' he
  cases t with
  | all =>
    cases t' with
    | all => rfl
    | list items' => simp [Targets.outline] at he
  | list items =>
    cases t' with
    | all => simp [Targets.outline] at he
    | list items' =>
      rw [Targets.outline_list, Targets.outline_list] at he
      have hitems : ∀ t ∈ items, Determines (fun t => t.expr.WellFormed) Target.outline Target.unspanned t :=
        fun t ht => Target.determined (h t.expr (List.mem_map_of_mem ht))
      rw [Targets.unspanned, Targets.unspanned, Target.unspannedList_eq_map, Target.unspannedList_eq_map,
        Determines.list hitems items' (fun t ht => ht' t.expr (List.mem_map_of_mem ht)) (Outline.list.inj he)]

theorem Closing.outline_inj {c c' : Closing} (h : c.outline = c'.outline) : c = c' := by
  have hnot : ∀ {d : Date}, d.text ≠ "default" := by
    intro d hd
    have hread := Date.ofText?_text d
    rw [hd] at hread
    cases hread
  cases c with
  | default =>
    cases c' with
    | default => rfl
    | on d' => exact absurd (Outline.atom.inj h).symm hnot
  | on d =>
    cases c' with
    | default => exact absurd (Outline.atom.inj h) hnot
    | on d' => rw [Date.text_inj (Outline.atom.inj h)]

theorem EntryFilter.determined {f : EntryFilter} (h : ∀ x ∈ f.expression, x.Determined) :
    Determines (fun f => ∀ x ∈ f.expression, x.WellFormed) EntryFilter.outline EntryFilter.unspanned f := by
  intro f' hf' he
  rw [EntryFilter.outline_eq, EntryFilter.outline_eq] at he
  have hpart := fun key => congrArg (List.lookup key) (Outline.node.inj he).2
  simp only [List.lookup_append, lookup_field] at hpart
  have hexpr : f.expression.map Expr.outline = f'.expression.map Expr.outline := by simpa using hpart "expression"
  have hopen : f.openOn.map (fun d => Outline.atom d.text) = f'.openOn.map fun d => Outline.atom d.text := by
    simpa using hpart "open"
  have hclose : f.close.map Closing.outline = f'.close.map Closing.outline := by simpa using hpart "close"
  have hclear : flagOutline f.clear = flagOutline f'.clear := by simpa using hpart "clear"
  rw [EntryFilter.unspanned_eq, EntryFilter.unspanned_eq, Determines.option h f'.expression hf' hexpr,
    option_eq_of_map (fun _ _ _ _ hd => Date.text_inj (Outline.atom.inj hd)) hopen,
    option_eq_of_map (fun _ _ _ _ => Closing.outline_inj) hclose, flagOutline_inj hclear]

theorem Source.determined {a : Source} (h : ∀ x ∈ a.parts, x.Determined) (hq : ∀ s, a = .query s → s.Determined) :
    Determines (fun a => (∀ x ∈ a.parts, x.WellFormed) ∧ ∀ s, a = .query s → s.WellFormed) Source.outline
      Source.unspanned a := by
  intro a' ha' he
  cases a with
  | table n =>
    cases a' with
    | table n' =>
      have hn : quoted n = quoted n' := by simpa [Source.outline] using he
      rw [quoted_inj hn]
    | _ => simp [Source.outline, Select.outline_eq, EntryFilter.outline_eq] at he
  | query s =>
    cases a' with
    | query s' =>
      have hs : s.outline = s'.outline := he
      rw [Source.unspanned, Source.unspanned, hq s rfl s' (ha'.2 s' rfl) hs]
    | _ => simp [Source.outline, Select.outline_eq, EntryFilter.outline_eq] at he
  | entries f =>
    cases a' with
    | entries f' =>
      have hf : f.outline = f'.outline := he
      have hexpr : ∀ x ∈ f.expression, x.Determined := fun x hx =>
        h x (by simpa [Source.parts, EntryFilter.parts] using hx)
      rw [Source.unspanned, Source.unspanned, EntryFilter.determined hexpr f' (fun x hx =>
        ha'.1 x (by simpa [Source.parts, EntryFilter.parts] using hx)) hf]
    | _ => simp [Source.outline, Select.outline_eq, EntryFilter.outline_eq] at he

theorem PivotKey.outline_inj {k k' : PivotKey} (h : k.outline = k'.outline) : k = k' := by
  cases k with
  | index n =>
    cases k' with
    | index n' => rw [numberOutline_inj h]
    | column n' => cases h
  | column n =>
    cases k' with
    | index n' => cases h
    | column n' =>
      have hn : quoted n = quoted n' := by simpa [PivotKey.outline] using h
      rw [quoted_inj hn]

theorem PivotBy.outline_inj {p p' : PivotBy} (h : p.outline = p'.outline) : p = p' := by
  obtain ⟨row, column⟩ := p
  obtain ⟨row', column'⟩ := p'
  obtain ⟨hr, hc⟩ : row.outline = row'.outline ∧ column.outline = column'.outline := by
    simpa [PivotBy.outline] using h
  rw [PivotKey.outline_inj hr, PivotKey.outline_inj hc]

/-! ## Queries -/

/-- A query is determined by its outline if its parts and its source are. -/
theorem Select.determined_of_parts {s : Select} (hw : s.Writable) (ih : ∀ x ∈ s.parts, x.Determined)
    (hq : ∀ s', s.source = some (.query s') → s'.Determined) : s.Determined := by
  intro s' h' he
  obtain ⟨ht, ha, hc, hg, ho⟩ := Select.forall_parts.mp ⟨ih, hq⟩
  obtain ⟨-, -, -, hng, hno⟩ := (Select.forall_parts (s := s) (P := (· ≠ .wildcard)) (Q := fun _ => True)).mp
    ⟨fun x hx he => hw.2.2.2.2.2 (he ▸ hx), fun _ _ => trivial⟩
  obtain ⟨hw', hp', hq'⟩ := Select.all_iff.mp h'
  obtain ⟨ht', ha', hc', hg', ho'⟩ := (Select.forall_parts (s := s') (P := Expr.WellFormedPart) (Q := Select.WellFormed)).mp
    ⟨fun x hx => ⟨fun he => hw'.2.2.2.2.2 (he ▸ hx), hp' x hx⟩, hq'⟩
  rw [Select.outline_eq, Select.outline_eq] at he
  have hpart := fun key => congrArg (List.lookup key) (Outline.node.inj he).2
  simp only [Select.fields, lookup_cons_field, List.lookup_append, lookup_field] at hpart
  have htargets : s.targets.outline = s'.targets.outline := by simpa using hpart "targets"
  have hdistinct : flagOutline s.distinct = flagOutline s'.distinct := by simpa using hpart "distinct"
  have hsource : s.source.map Source.outline = s'.source.map Source.outline := by simpa using hpart "from-clause"
  have hcondition : s.condition.map Expr.outline = s'.condition.map Expr.outline := by simpa using hpart "where-clause"
  have hgroup : s.groupBy.map GroupBy.outline = s'.groupBy.map GroupBy.outline := by simpa using hpart "group-by"
  have horder : s.orderBy.map (fun keys => Outline.list (keys.map SortKey.outline)) =
    s'.orderBy.map fun keys => Outline.list (keys.map SortKey.outline) := by simpa using hpart "order-by"
  have hpivot : s.pivotBy.map PivotBy.outline = s'.pivotBy.map PivotBy.outline := by simpa using hpart "pivot-by"
  have hlimit : s.limit.map numberOutline = s'.limit.map numberOutline := by simpa using hpart "limit"
  have hkeys : ∀ keys ∈ s.orderBy, Determines (fun keys => ∀ k ∈ keys, ∀ x ∈ k.column.parts, x.WellFormedPart)
      (fun keys => Outline.list (keys.map SortKey.outline)) (List.map SortKey.unspanned) keys := by
    intro keys hk keys' hk' he
    refine Determines.list (fun k hm => ?_) keys' hk' (Outline.list.inj he)
    exact SortKey.determined (fun hw => hno keys hk k hm _ hw rfl) (ho keys hk k hm)
  rw [Select.unspanned_eq, Select.unspanned_eq,
    Targets.determined ht s'.targets (fun x hx => (ht' x hx).2) htargets, flagOutline_inj hdistinct,
    Determines.option (fun a hm => Source.determined (ha a hm).1 (ha a hm).2) s'.source
      (fun a hm => ⟨fun x hx => ((ha' a hm).1 x hx).2, (ha' a hm).2⟩) hsource,
    Determines.option hc s'.condition (fun x hx => (hc' x hx).2) hcondition,
    Determines.option (fun g hm => GroupBy.determined (fun hw => hng g hm _ hw rfl) (hg g hm)) s'.groupBy hg' hgroup,
    Determines.option hkeys s'.orderBy ho' horder, option_eq_of_map (fun _ _ _ _ => PivotBy.outline_inj) hpivot,
    option_eq_of_map (fun _ _ _ _ => numberOutline_inj) hlimit]

theorem determined_inductive :
    Inductive (fun e => e.WellFormed → e.Determined) (fun s => s.WellFormed → s.Determined) where
  expr e ih hq h := by
    obtain ⟨hw, hp, hs⟩ := Expr.all_iff.mp h
    exact Expr.determined_of_parts hw (fun x hx => ih x hx (hp x hx)) fun s he => hq s he (hs s he)
  select s ih hq h := by
    obtain ⟨hw, hp, hs⟩ := Select.all_iff.mp h
    exact Select.determined_of_parts hw (fun x hx => ih x hx (hp x hx)) fun s' he => hq s' he (hs s' he)

/-! ## Statements -/

theorem conditions_determined {o o' : Option Expr} (h : ∀ e ∈ o, e.WellFormed) (h' : ∀ e ∈ o', e.WellFormed)
    (he : o.map Expr.outline = o'.map Expr.outline) : o.map Expr.unspanned = o'.map Expr.unspanned :=
  Determines.option (fun e hm => determined_inductive.all.1 e (h e hm)) o' h' he

theorem filters_determined {o o' : Option EntryFilter} (h : ∀ f ∈ o, f.WellFormed) (h' : ∀ f ∈ o', f.WellFormed)
    (he : o.map EntryFilter.outline = o'.map EntryFilter.outline) :
    o.map EntryFilter.unspanned = o'.map EntryFilter.unspanned := by
  have hfilter : ∀ f ∈ o, Determines (fun f => ∀ x ∈ f.expression, x.WellFormed) EntryFilter.outline
      EntryFilter.unspanned f := fun f hf =>
    EntryFilter.determined fun e hm => determined_inductive.all.1 e ((h f hf).2 e hm).2
  exact Determines.option hfilter o' (fun f hf e hm => ((h' f hf).2 e hm).2) he

/-- Well-formed statements with the same outline are the same, apart from the spans of targets. -/
theorem Statement.WellFormed.unspanned_eq_of_outline {t t' : Statement} (h : t.WellFormed) (h' : t'.WellFormed)
    (he : t.outline = t'.outline) : t.unspanned = t'.unspanned := by
  cases t with
  | select s =>
    cases t' with
    | select s' =>
      have hs : s.outline = s'.outline := he
      rw [Statement.unspanned, Statement.unspanned, determined_inductive.all.2 s h s' h' hs]
    | _ => simp [Statement.outline, Select.outline_eq, Balances.outline, Journal.outline, Print.outline] at he
  | balances b =>
    cases t' with
    | balances b' =>
      obtain ⟨-, hf, hc⟩ := h
      obtain ⟨-, hf', hc'⟩ := h'
      have hpart := fun key => congrArg (List.lookup key) (Outline.node.inj he).2
      simp only [List.lookup_append, lookup_field] at hpart
      have hsummary : b.summary.map quoted = b'.summary.map quoted := by simpa using hpart "summary-func"
      have hsource : b.source.map EntryFilter.outline = b'.source.map EntryFilter.outline := by
        simpa using hpart "from-clause"
      have hcondition : b.condition.map Expr.outline = b'.condition.map Expr.outline := by
        simpa using hpart "where-clause"
      rw [Statement.unspanned, Statement.unspanned, option_eq_of_map (fun _ _ _ _ => quoted_inj) hsummary,
        filters_determined hf hf' hsource,
        conditions_determined (fun e hm => (hc e hm).2) (fun e hm => (hc' e hm).2) hcondition]
    | _ => simp [Statement.outline, Select.outline_eq, Balances.outline, Journal.outline, Print.outline] at he
  | journal j =>
    cases t' with
    | journal j' =>
      obtain ⟨-, -, hf⟩ := h
      obtain ⟨-, -, hf'⟩ := h'
      have hpart := fun key => congrArg (List.lookup key) (Outline.node.inj he).2
      simp only [List.lookup_append, lookup_field] at hpart
      have haccount : j.account.map quoted = j'.account.map quoted := by simpa using hpart "account"
      have hsummary : j.summary.map quoted = j'.summary.map quoted := by simpa using hpart "summary-func"
      have hsource : j.source.map EntryFilter.outline = j'.source.map EntryFilter.outline := by
        simpa using hpart "from-clause"
      rw [Statement.unspanned, Statement.unspanned, option_eq_of_map (fun _ _ _ _ => quoted_inj) haccount,
        option_eq_of_map (fun _ _ _ _ => quoted_inj) hsummary, filters_determined hf hf' hsource]
    | _ => simp [Statement.outline, Select.outline_eq, Balances.outline, Journal.outline, Print.outline] at he
  | print p =>
    cases t' with
    | print p' =>
      have hpart := congrArg (List.lookup "from-clause") (Outline.node.inj he).2
      rw [lookup_field, lookup_field] at hpart
      rw [Statement.unspanned, Statement.unspanned, filters_determined h h' hpart]
    | _ => simp [Statement.outline, Select.outline_eq, Balances.outline, Journal.outline, Print.outline] at he

/-- Two statements that were read, with each string literal, subscript key and account pattern on one line, have the
same dump only if they are identical apart from the spans of their targets. -/
theorem unspanned_eq_of_outline_text {source source' : String} {limit limit' : Nat} {t t' : Statement}
    (h : parse source limit = .ok t) (h' : parse source' limit' = .ok t') (hl : t.AllOneLine) (hl' : t'.AllOneLine)
    (he : t.outline.text = t'.outline.text) : t.unspanned = t'.unspanned := by
  have hw : t.WellFormed := (valid_of_parse h).wellFormed
  have hw' : t'.WellFormed := (valid_of_parse h').wellFormed
  have hlayout : t.outline.layout = t'.outline.layout := String.ofList_injective he
  exact hw.unspanned_eq_of_outline hw' (layout_injective (hw.legible hl) (hw'.legible hl') hlayout)

/-- The query of one string under a name, read from a span. -/
def namedString (value name : String) (span : Span) : Statement :=
  .select (.ofTargets (.list [⟨.literal (.string ⟨value, .single⟩), some name, some span⟩]))

theorem namedString_allOneLine {value name : String} {span : Span} (h : '\n' ∉ value.toList) :
    (namedString value name span).AllOneLine := by
  refine Select.all_iff.mpr ⟨trivial, fun x hx => ?_, fun s' hs => by cases hs⟩
  obtain rfl : x = .literal (.string ⟨value, .single⟩) := by
    simpa [Select.parts, Select.ofTargets, Targets.parts] using hx
  refine Expr.all_iff.mpr ⟨fun l hl => ?_, by simp [Expr.literal, Expr.parts], by simp [Expr.literal]⟩
  obtain rfl : l = .string ⟨value, .single⟩ := by simpa [Constant.items] using hl
  exact h

/-- More blanks move the span of a target, and nothing else. -/
theorem unspanned_eq_of_outline_text_blanks :
    parse "SELECT 'x)' AS b" 8 = .ok (namedString "x)" "b" ⟨7, 16⟩) ∧
      parse "SELECT  'x)'  AS b" 8 = .ok (namedString "x)" "b" ⟨8, 18⟩) ∧
      (namedString "x)" "b" ⟨7, 16⟩).outline.text = (namedString "x)" "b" ⟨8, 18⟩).outline.text ∧
      (namedString "x)" "b" ⟨7, 16⟩).unspanned = (namedString "x)" "b" ⟨8, 18⟩).unspanned := by
  have h : parse "SELECT 'x)' AS b" 8 = .ok (namedString "x)" "b" ⟨7, 16⟩) := by cbv
  have h' : parse "SELECT  'x)'  AS b" 8 = .ok (namedString "x)" "b" ⟨8, 18⟩) := by cbv
  have he : (namedString "x)" "b" ⟨7, 16⟩).outline.text = (namedString "x)" "b" ⟨8, 18⟩).outline.text := rfl
  exact ⟨h, h', he, unspanned_eq_of_outline_text h h' (namedString_allOneLine (by simp))
    (namedString_allOneLine (by simp)) he⟩

end LedgerQuery
