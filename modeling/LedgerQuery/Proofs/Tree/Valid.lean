import LedgerQuery.Proofs.Tree.Conditions

/-!
# Trees that are read

A tree that is read from a text is valid: every expression and every query in it is built as the
grammar builds them.  This is more than that a text can hold it.

* The operand of an attribute or a subscript is a primary.
* A filter has a part.
* A target has the span it was read from.

A valid tree is well-formed (`Statement.Valid.wellFormed`).
-/

namespace LedgerQuery

/-- Whether an expression is a primary: a column, a constant, a parameter, a call, a subselect, or
one of these with attributes and subscripts. -/
def Expr.IsPrimary : Expr → Prop
  | .column _ | .constant _ | .placeholder _ | .function _ _ | .attribute _ _ | .subscript _ _
  | .subselect _ => True
  | _ => False

/-- Whether the outermost construction of an expression is one that is read. -/
def Expr.Readable (e : Expr) : Prop :=
  e.Writable ∧ ∀ x, ((∃ n, e = .attribute x n) ∨ ∃ key, e = .subscript x key) → x.IsPrimary

/-- Whether a filter has a part. -/
def EntryFilter.HasPart (f : EntryFilter) : Prop :=
  f.expression.isSome ∨ f.openOn.isSome ∨ f.close.isSome ∨ f.clear

/-- Whether the clauses of a query are ones that are read. -/
def Select.Readable (s : Select) : Prop :=
  s.Writable ∧ (∀ f, s.source = some (.entries f) → f.HasPart) ∧
    ∀ items, s.targets = .list items → ∀ t ∈ items, t.span.isSome

/-- Whether an expression is valid at every depth. -/
def Expr.Valid (e : Expr) : Prop := e.All Expr.Readable Select.Readable

/-- Whether a query is valid at every depth. -/
def Select.Valid (s : Select) : Prop := s.All Expr.Readable Select.Readable

/-- Whether an expression that stands in a clause is valid at every depth. -/
def Expr.ValidPart (e : Expr) : Prop := e ≠ .wildcard ∧ e.Valid

/-- Whether the filter of a shorthand is valid at every depth. -/
def EntryFilter.Valid (f : EntryFilter) : Prop :=
  f.Writable ∧ f.HasPart ∧ ∀ e ∈ f.expression, e.ValidPart

/-- Whether a statement is valid at every depth. -/
def Statement.Valid : Statement → Prop
  | .select s => s.Valid
  | .balances b => (∀ n ∈ b.summary, IsName n) ∧ (∀ f ∈ b.source, f.Valid) ∧
      ∀ e ∈ b.condition, e.ValidPart
  | .journal j => (∀ value ∈ j.account, IsQuotable value) ∧ (∀ n ∈ j.summary, IsName n) ∧
      ∀ f ∈ j.source, f.Valid
  | .print p => ∀ f ∈ p.source, f.Valid

/-! ## Valid trees are well-formed -/

section
variable {p p' : Expr → Prop} {q q' : Select → Prop}

theorem all_imp_inductive (hp : ∀ e, p e → p' e) (hq : ∀ s, q s → q' s) :
    Inductive (fun e => e.All p q → e.All p' q') (fun s => s.All p q → s.All p' q') where
  expr e ih ihq h := by
    obtain ⟨he, hx, hs⟩ := Expr.all_iff.mp h
    exact .mk (hp e he) (fun x hm => ih x hm (hx x hm)) fun s he => ihq s he (hs s he)
  select s ih ihq h := by
    obtain ⟨he, hx, hs⟩ := Select.all_iff.mp h
    exact .mk (hq s he) (fun x hm => ih x hm (hx x hm)) fun s' he => ihq s' he (hs s' he)

end

theorem Expr.Valid.wellFormed {e : Expr} (h : e.Valid) : e.WellFormed :=
  (all_imp_inductive (fun _ h => h.1) fun _ h => h.1).all.1 e h

theorem Select.Valid.wellFormed {s : Select} (h : s.Valid) : s.WellFormed :=
  (all_imp_inductive (fun _ h => h.1) fun _ h => h.1).all.2 s h

theorem EntryFilter.Valid.wellFormed {f : EntryFilter} (h : f.Valid) : f.WellFormed :=
  ⟨h.1, fun e he => ⟨(h.2.2 e he).1, (h.2.2 e he).2.wellFormed⟩⟩

/-- A valid statement is well-formed. -/
theorem Statement.Valid.wellFormed {t : Statement} (h : t.Valid) : t.WellFormed := by
  cases t with
  | select s => exact Select.Valid.wellFormed h
  | balances b =>
    obtain ⟨hn, hf, he⟩ := h
    exact ⟨hn, fun f hm => (hf f hm).wellFormed, fun e hm => ⟨(he e hm).1, (he e hm).2.wellFormed⟩⟩
  | journal j =>
    obtain ⟨ha, hn, hf⟩ := h
    exact ⟨ha, hn, fun f hm => (hf f hm).wellFormed⟩
  | print p => exact fun f hm => (h f hm).wellFormed

end LedgerQuery
