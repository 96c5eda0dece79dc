import LedgerQuery.Proofs.Phrase.Grammar

/-!
# How expressions begin

An expression begins with a token that can begin an operand, or with `NOT`.
When it begins with a literal and goes on after it, it goes on with a token that
makes the literal part of a larger expression.

The second fact is what looking ahead rests on.  A left parenthesis with a
literal and a comma after it cannot begin an expression in parentheses.  A key
that begins with an integer and is not that integer alone goes on like an
expression.
-/

namespace LedgerQuery

/-- Whether a token can begin an operand. -/
def Token.opensOperand (t : Token) : Bool :=
  t.isName || t.isLiteral ||
    match t with
    | .placeholder _ => true
    | .symbol s => [Symbol.leftParen, .minus, .plus].contains s
    | .keyword k _ => k = .select
    | _ => false

/-- Whether a token can begin an expression. -/
def Token.opensExpr (t : Token) : Bool := t.opensOperand || t.is (.keyword .not)

/-- Whether a run begins with a token of some kind, and goes on like an expression if this
token is a literal. -/
def OpensWith (C : Token → Bool) (u : List Lexeme) : Prop :=
  ∃ l v, u = l :: v ∧ C l.token = true ∧
    (l.token.isLiteral = true → ∀ m ∈ v.head?, m.token.continuesExpression = true)

namespace OpensWith

variable {C D : Token → Bool} {u v : List Lexeme}

theorem append (h : OpensWith C u) (hv : ∀ m ∈ v.head?, m.token.continuesExpression = true) :
    OpensWith C (u ++ v) := by
  obtain ⟨l, w, rfl, hc, hl⟩ := h
  refine ⟨l, w ++ v, rfl, hc, fun hlit m hm => ?_⟩
  cases w with
  | nil => exact hv m hm
  | cons n w => exact hl hlit m hm

theorem mono (h : OpensWith C u) (hCD : ∀ t, C t = true → D t = true) : OpensWith D u := by
  obtain ⟨l, w, rfl, hc, hl⟩ := h
  exact ⟨l, w, rfl, hCD _ hc, hl⟩

theorem ne_nil (h : OpensWith C u) : u ≠ [] := by
  obtain ⟨l, w, rfl, -, -⟩ := h
  simp

/-- A run of one token. -/
theorem single {l : Lexeme} (h : C l.token = true) : OpensWith C [l] :=
  ⟨l, [], rfl, h, fun _ m hm => by simp at hm⟩

/-- A run that does not begin with a literal. -/
theorem of_not_literal {l : Lexeme} (h : C l.token = true) (hl : l.token.isLiteral = false) :
    OpensWith C (l :: v) :=
  ⟨l, v, rfl, h, fun hlit => by simp [hl] at hlit⟩

end OpensWith

namespace Token

theorem opensOperand_of_is {t : Token} {s : Symbol} (h : t.is (.symbol s) = true)
    (hs : s ∈ [Symbol.leftParen, .minus, .plus]) :
    t.opensOperand = true ∧ t.isLiteral = false := by
  obtain rfl := is_symbol_iff.mp h
  exact ⟨by simpa [opensOperand, isName, name?, isLiteral] using hs, rfl⟩

theorem opensOperand_of_name {t : Token} {n : String} (h : t.name? = some n) :
    t.opensOperand = true := by
  simp [opensOperand, isName, h]

/-- A name is no literal. -/
theorem not_isLiteral_of_name {t : Token} {n : String} (h : t.name? = some n) :
    t.isLiteral = false := by
  cases t with
  | keyword k written => cases k <;> simp_all [name?, isLiteral, Keyword.isReserved, Keyword.contextual]
  | ident => rfl
  | _ => simp [name?] at h

/-- The tokens of literals are those that stand for one. -/
theorem isLiteral_eq (t : Token) : t.isLiteral = t.literal?.isSome := by
  cases t with
  | keyword k written => cases k <;> rfl
  | _ => rfl

/-- A token that stands for a literal is one. -/
theorem isLiteral_of_literal? {t : Token} {r : Except Fault Literal} (h : t.literal? = some r) :
    t.isLiteral = true := by rw [isLiteral_eq, h, Option.isSome_some]

end Token

namespace Phrase

variable {G : Phrases} {u : List Lexeme}

theorem suffix_opens {a : Parser.Suffix} (h : suffix u a) :
    ∃ l w, u = l :: w ∧ l.token.continuesExpression = true := by
  simp only [suffix, oneOf_cons, oneOf_nil, or_false] at h
  rcases h with ⟨_, w, _, rfl, ⟨l, rfl, hl⟩, -⟩ | ⟨_, w, _, rfl, ⟨l, rfl, hl⟩, -⟩ <;>
  · refine ⟨l, w, rfl, ?_⟩
    rw [Token.is_symbol_iff.mp hl]
    rfl

theorem operator_opens {family : Symbol → Option BinaryOp} {op : BinaryOp}
    (hf : ∀ s, (family s).isSome = true → (Token.symbol s).continuesExpression = true)
    (h : operator family u op) : ∃ l, u = [l] ∧ l.token.continuesExpression = true := by
  obtain ⟨l, s, rfl, ht, hs⟩ := operator_iff.mp h
  exact ⟨l, rfl, by rw [ht]; exact hf s (by simp [hs])⟩

theorem continuesExpression_of_keyword {t : Token} {k : Keyword} (h : t.is (.keyword k) = true)
    (hk : k ∈ [Keyword.and, .or, .in, .not, .is, .between]) : t.continuesExpression = true := by
  obtain ⟨written, rfl⟩ := Token.is_keyword_iff.mp h
  simpa [Token.continuesExpression] using hk

section
variable (bare : ∀ u q, G.bare u q → ∃ l v, u = l :: v ∧ l.token.is (.keyword .select) = true)
include bare

theorem atom_opens {e : Expr} (h : atom G u e) : OpensWith Token.opensOperand u := by
  simp only [atom, oneOf_cons, oneOf_nil, or_false] at h
  rcases h with ⟨_, w, n, rfl, ⟨l, rfl, hl⟩, -⟩ | ⟨_, w, n, rfl, ⟨l, rfl, hl⟩, rfl, -⟩ |
    ⟨_, w, p, rfl, hp, rfl, -⟩ | ⟨_, w, a, rfl, ha, rfl, -⟩ | h | ⟨v, w, q, rfl, hq, rfl, -⟩
  · exact .of_not_literal (Token.opensOperand_of_name hl) (Token.not_isLiteral_of_name hl)
  · exact .single (Token.opensOperand_of_name hl)
  · obtain ⟨l, rfl, hl⟩ := placeholder_iff.mp hp
    exact .single (by rw [hl]; rfl)
  · obtain ⟨l, rfl, hl⟩ := literal_iff.mp ha
    refine .single ?_
    simp [Token.opensOperand, Token.isLiteral_of_literal? hl]
  · obtain ⟨_, w, _, rfl, ⟨l, rfl, hl⟩, -⟩ := h
    obtain ⟨ho, hn⟩ := Token.opensOperand_of_is hl (by simp)
    exact .of_not_literal ho hn
  · obtain ⟨l, v', rfl, hl⟩ := bare v q hq
    obtain ⟨written, ht⟩ := Token.is_keyword_iff.mp hl
    exact .of_not_literal (by rw [ht]; rfl) (by rw [ht]; rfl)

theorem primary_opens {e : Expr} (h : primary G u e) : OpensWith Token.opensOperand u := by
  obtain ⟨v, w, e, rfl, hv, w', w'', ss, rfl, hw, rfl, -⟩ := h
  refine (atom_opens bare hv).append ?_
  rw [List.append_nil]
  exact Many.head (P := fun t => t.continuesExpression = true) hw fun _ _ => suffix_opens

omit bare in
/-- A primary begins like a list, or with no symbol. -/
theorem primary_begins {e : Expr} (bare : ∀ u q, ¬ G.bare u q)
    (h : primary G u e) :
    (∃ l m c w, u = l :: m :: c :: w ∧ l.token = .symbol .leftParen ∧
      m.token.isLiteral = true ∧ c.token.is (.symbol .comma) = true) ∨
    ∃ l w, u = l :: w ∧ ∀ s, l.token ≠ .symbol s := by
  obtain ⟨v, w, e, rfl, hv, -⟩ := h
  simp only [atom, oneOf_cons, oneOf_nil, or_false] at hv
  rcases hv with ⟨_, x, n, rfl, ⟨l, rfl, hl⟩, -⟩ | ⟨_, x, n, rfl, ⟨l, rfl, hl⟩, -⟩ |
    ⟨_, x, p, rfl, hp, -⟩ | ⟨_, x, a, rfl, ha, -⟩ |
    ⟨_, x, _, rfl, ⟨l, rfl, hl⟩, _, y, a, rfl, ha, _, z, _, rfl, ⟨c, rfl, hc⟩, -⟩ |
    ⟨v, x, q, rfl, hq, -⟩
  · exact .inr ⟨l, _, rfl, fun s hs => by simp [hs, Token.name?] at hl⟩
  · exact .inr ⟨l, _, rfl, fun s hs => by simp [hs, Token.name?] at hl⟩
  · obtain ⟨l, rfl, hl⟩ := placeholder_iff.mp hp
    exact .inr ⟨l, _, rfl, fun s hs => by simp [hs] at hl⟩
  · obtain ⟨l, rfl, hl⟩ := literal_iff.mp ha
    exact .inr ⟨l, _, rfl, fun s hs => by simp [hs, Token.literal?] at hl⟩
  · obtain ⟨m, rfl, hm⟩ := literal_iff.mp ha
    exact .inl ⟨l, m, c, _, rfl, Token.is_symbol_iff.mp hl, Token.isLiteral_of_literal? hm, hc⟩
  · exact absurd hq (bare v q)

theorem factor_opens {e : Expr} (h : factor G u e) : OpensWith Token.opensOperand u := by
  simp only [factor, oneOf_cons, oneOf_nil, or_false] at h
  rcases h with ⟨_, w, _, rfl, ⟨l, rfl, hl⟩, -⟩ | ⟨_, w, _, rfl, ⟨l, rfl, hl⟩, -⟩ |
    ⟨_, w, _, rfl, ⟨l, rfl, hl⟩, -⟩ | ⟨_, w, _, rfl, ⟨l, rfl, hl⟩, -⟩ | h
  case inr.inr.inr.inr => exact primary_opens bare h
  all_goals
    obtain ⟨ho, hn⟩ := Token.opensOperand_of_is hl (by simp)
    exact .of_not_literal ho hn

omit bare in
theorem leftGrouped_opens {family : Symbol → Option BinaryOp} {operand : Phrase Expr} {e : Expr}
    (hf : ∀ s, (family s).isSome = true → (Token.symbol s).continuesExpression = true)
    (ho : ∀ u e, operand u e → OpensWith Token.opensOperand u) (h : leftGrouped family operand u e) :
    OpensWith Token.opensOperand u := by
  obtain ⟨v, w, e, rfl, hv, w', w'', ss, rfl, hw, rfl, -⟩ := h
  refine (ho v e hv).append ?_
  rw [List.append_nil]
  refine Many.head (P := fun t => t.continuesExpression = true) hw fun x a hx => ?_
  obtain ⟨y, z, op, rfl, hy, -⟩ := hx
  obtain ⟨l, rfl, hl⟩ := operator_opens hf hy
  exact ⟨l, z, rfl, hl⟩

theorem sum_opens {e : Expr} (h : sum G u e) : OpensWith Token.opensOperand u := by
  refine leftGrouped_opens (fun s hs => ?_) (fun v e hv => ?_) h
  · simp [Token.continuesExpression, hs]
  · refine leftGrouped_opens (fun s hs => ?_) (fun v e => factor_opens bare) hv
    simp [Token.continuesExpression, hs]

omit bare in
theorem comparisonOperator_opens {op : BinaryOp} (h : comparisonOperator u op) :
    ∃ l v, u = l :: v ∧ l.token.continuesExpression = true := by
  simp only [comparisonOperator, oneOf_cons, oneOf_nil, or_false] at h
  rcases h with h | ⟨_, w, _, rfl, ⟨l, rfl, hl⟩, -⟩ | ⟨_, w, _, rfl, ⟨l, rfl, hl⟩, -⟩
  · obtain ⟨l, rfl, hl⟩ := operator_opens (fun s hs => by simp [Token.continuesExpression, hs]) h
    exact ⟨l, [], rfl, hl⟩
  · exact ⟨l, w, rfl, continuesExpression_of_keyword hl (by simp)⟩
  · exact ⟨l, w, rfl, continuesExpression_of_keyword hl (by simp)⟩

theorem comparison_opens {e : Expr} (h : comparison G u e) : OpensWith Token.opensOperand u := by
  simp only [comparison, oneOf_cons, oneOf_nil, or_false] at h
  rcases h with h | ⟨v, w, left, rfl, hv, x, y, op, rfl, hx, -⟩ |
    ⟨v, w, left, rfl, hv, x, y, _, rfl, ⟨l, rfl, hl⟩, -⟩ |
    ⟨v, w, left, rfl, hv, x, y, _, rfl, ⟨l, rfl, hl⟩, -⟩
  · exact sum_opens bare h
  · obtain ⟨l, x', rfl, hl⟩ := comparisonOperator_opens hx
    exact (sum_opens bare hv).append fun m hm => by simp at hm; rwa [← hm]
  all_goals
    refine (sum_opens bare hv).append fun m hm => ?_
    simp at hm
    rw [← hm]
    exact continuesExpression_of_keyword hl (by simp)

theorem inversion_opens {e : Expr} (h : inversion G u e) : OpensWith Token.opensExpr u := by
  simp only [inversion, oneOf_cons, oneOf_nil, or_false] at h
  rcases h with ⟨_, w, _, rfl, ⟨l, rfl, hl⟩, -⟩ | h
  · obtain ⟨written, ht⟩ := Token.is_keyword_iff.mp hl
    exact .of_not_literal (by rw [ht]; rfl) (by rw [ht]; rfl)
  · exact (comparison_opens bare h).mono fun t ht => by simp [Token.opensExpr, ht]

omit bare in
theorem connected_opens {op : BoolOp} {operand : Phrase Expr} {e : Expr}
    (ho : ∀ u e, operand u e → OpensWith Token.opensExpr u) (h : connected op operand u e) :
    OpensWith Token.opensExpr u := by
  obtain ⟨v, w, e, rfl, hv, w', w'', ss, rfl, hw, rfl, -⟩ := h
  refine (ho v e hv).append ?_
  rw [List.append_nil]
  refine Many.head (P := fun t => t.continuesExpression = true) hw fun x a hx => ?_
  obtain ⟨_, z, _, rfl, ⟨l, rfl, hl⟩, -⟩ := hx
  exact ⟨l, z, rfl, continuesExpression_of_keyword hl (by cases op <;> simp [BoolOp.key])⟩

theorem disjunction_opens {e : Expr} (h : disjunction G u e) : OpensWith Token.opensExpr u :=
  connected_opens (fun _ _ => connected_opens fun _ _ => inversion_opens bare) h

end

theorem select_opens {q : Select} (h : select G u q) :
    ∃ l v, u = l :: v ∧ l.token.is (.keyword .select) = true := by
  obtain ⟨_, w, _, rfl, ⟨l, rfl, hl⟩, -⟩ := h
  exact ⟨l, w, rfl, hl⟩

end Phrase

theorem phrases_bare_opens {mode : Subselects} {levels : Nat} {u : List Lexeme} {q : Select}
    (h : (phrases mode levels).bare u q) :
    ∃ l v, u = l :: v ∧ l.token.is (.keyword .select) = true := by
  cases levels with
  | zero => exact absurd h id
  | succ levels =>
    simp only [phrases] at h
    split at h
    · exact Phrase.select_opens h
    · exact absurd h id

/-- How an expression of the grammar begins. -/
theorem phrases_expr_opens {mode : Subselects} {levels : Nat} {u : List Lexeme} {e : Expr}
    (h : (phrases mode levels).expr u e) : OpensWith Token.opensExpr u := by
  cases levels with
  | zero => exact absurd h id
  | succ levels => exact Phrase.disjunction_opens (fun _ _ => phrases_bare_opens) h

end LedgerQuery
