import LedgerQuery.Proofs.Reading.Steps
import LedgerQuery.Proofs.Reading.Targets

/-!
# A target in parentheses

The expression of a target may stand in parentheses (`target_enclosed`).  It is read from the same lexemes,
since nothing that follows it before was read with it, and a right parenthesis ends it as well.  The
parentheses are a factor, and no operator, comparison or connective goes on with them.  For comparisons and
connectives this is so because the expression alone did not go on with them either (`nested_stops`).  For
arithmetic it is an assumption: an expression that ends with a test for null stops before an operator that
goes on with parentheses.
-/

namespace LedgerQuery

open Token LedgerQuery.Parser

/-- Whether a token is an arithmetic operator. -/
def Token.isArithmetic : Token → Bool
  | .symbol x => (BinaryOp.ofAdditive? x).isSome || (BinaryOp.ofMultiplicative? x).isSome
  | _ => false

variable {α : Type} {s t : Input} {e : Expr}

/-! ## Where expressions stop -/

/-- Whether no comparison and no connective is next. -/
def Complete (rest : List Lexeme) : Prop :=
  compares rest = false ∧ ∀ op : BoolOp, (nextOf rest).is (.keyword op.key) = false

/-- Whether what the readers one nesting level deeper find is complete. -/
structure Nested.Finishes (G : Nested) : Prop where
  /-- No comparison and no connective goes on with an expression. -/
  expr : ∀ {s e t}, G.expr s = .ok (e, t) → Complete t.rest
  /-- No comparison goes on with an operand of `NOT`. -/
  inversion : ∀ {s e t}, G.inversion s = .ok (e, t) → compares t.rest = false

/-- Rounds enough end with one that finds nothing. -/
theorem repeatUpTo_stops {p : Parser (Option α)} {P : List Lexeme → Prop} (hm : MovesOnSome p)
    (hp : ∀ s a t, p s = .ok (some a, t) → P t.rest) {as : List α} {rounds : Nat}
    (hr : s.rest.length < rounds) (hs : P s.rest) (h : Parser.repeatUpTo p rounds s = .ok (as, t)) :
    ∃ s', P s'.rest ∧ p s' = .ok (none, t) := by
  induction rounds generalizing s as with
  | zero => exact absurd hr (Nat.not_lt_zero _)
  | succ rounds ih =>
    unfold Parser.repeatUpTo at h
    obtain ⟨o, s₁, h₁, h₂⟩ := bind_eq_ok.mp h
    cases o with
    | none =>
      obtain ⟨-, rfl⟩ := pure_eq_ok.mp h₂
      exact ⟨s, hs, h₁⟩
    | some a =>
      obtain ⟨as', s₂, h₃, h₄⟩ := bind_eq_ok.mp h₂
      obtain ⟨-, rfl⟩ := pure_eq_ok.mp h₄
      have hlt := hm s a s₁ h₁
      exact ih (by omega) (hp s a s₁ h₁) h₃

/-- After connectives no such connective follows, and what holds after each operand. -/
theorem connected_stops {p q : Parser Expr} {P : List Lexeme → Prop} {op : BoolOp}
    (hsees : Sees True (Like True Expr.plain) p q) (hp : ∀ {s e t}, p s = .ok (e, t) → P t.rest)
    (h : Parser.connected op p s = .ok (e, t)) :
    P t.rest ∧ (nextOf t.rest).is (.keyword op.key) = false := by
  obtain ⟨first, s₁, h₁, h₂⟩ := bind_eq_ok.mp h
  obtain ⟨others, s₂, h₃, h₄⟩ := bind_eq_ok.mp h₂
  have ht : t = s₂ := by cases others <;> exact (pure_eq_ok.mp h₄).2.symm
  subst ht
  obtain ⟨s', hP, hnone⟩ := repeatUpTo_stops hsees.afterQuietly_moves (fun s a t h => by
    obtain ⟨b, s₃, -, h₆⟩ := bind_eq_ok.mp h
    cases b with
    | true =>
      obtain ⟨a', h₇, -⟩ := map_eq_ok.mp h₆
      exact hp h₇
    | false => cases (pure_eq_ok.mp h₆).1) (Nat.lt_succ_self _) (hp h₁) h₃
  obtain ⟨hkey, rfl⟩ := Sees.afterQuietly_none hnone
  exact ⟨hP, hkey⟩

theorem comparison_stops {G : Nested} (h : Parser.comparison G s = .ok (e, t)) : compares t.rest = false := by
  obtain ⟨left, s₁, -, h₂⟩ := bind_eq_ok.mp h
  obtain ⟨o, s₂, h₃, h₄⟩ := bind_eq_ok.mp h₂
  cases o with
  | none =>
    obtain ⟨-, rfl⟩ := pure_eq_ok.mp h₄
    obtain ⟨hc, rfl⟩ := Sees.comparison?_none h₃
    exact hc
  | some c =>
    obtain ⟨e', s₃, -, h₆⟩ := bind_eq_ok.mp h₄
    rw [Parser.unlessComparison_eq] at h₆
    split at h₆
    · cases h₆
    · next hc =>
      obtain ⟨-, rfl⟩ := Prod.mk.inj (Except.ok.inj h₆)
      simpa using hc

theorem inversion_stops {G : Nested} (hG : G.Finishes) (h : Parser.inversion G s = .ok (e, t)) :
    compares t.rest = false := by
  obtain ⟨b, s₁, -, h₂⟩ := bind_eq_ok.mp h
  cases b with
  | true =>
    obtain ⟨e', s₂, h₃, h₄⟩ := bind_eq_ok.mp h₂
    obtain ⟨-, rfl⟩ := pure_eq_ok.mp h₄
    exact hG.inversion h₃
  | false => exact comparison_stops h₂

theorem disjunction_stops {G H : Nested} (hG : G.Finishes) (hsees : G.Sees True H)
    (h : Parser.disjunction G s = .ok (e, t)) : Complete t.rest := by
  have hconjunction : ∀ {s e t}, Parser.conjunction G s = .ok (e, t) →
      compares t.rest = false ∧ (nextOf t.rest).is (.keyword .and) = false := fun h =>
    connected_stops (P := fun rest => compares rest = false) (Sees.inversion hsees) (inversion_stops hG) h
  obtain ⟨⟨hcompares, hand⟩, hor⟩ := connected_stops
    (P := fun rest => compares rest = false ∧ (nextOf rest).is (.keyword .and) = false)
    (Sees.connected .and (Sees.inversion hsees)) hconjunction h
  refine ⟨hcompares, fun op => ?_⟩
  cases op with
  | and => exact hand
  | or => exact hor

/-- An expression is complete: no comparison and no connective that could go on with it is next. -/
theorem nested_stops (limit : Nat) : ∀ n, (Parser.nested limit n).Finishes
  | 0 => ⟨fun h => absurd h fail_ne_ok, fun h => absurd h fail_ne_ok⟩
  | n + 1 =>
    have h := nested_stops limit n
    ⟨disjunction_stops h (nested_sees True limit limit (Nat.le_refl n)), inversion_stops h⟩

/-! ## Operands alone -/

/-- A loop that finds nothing at once. -/
theorem many_of_none {p : Parser (Option α)} (h : p s = .ok (none, t)) : Parser.many p s = .ok ([], t) :=
  bind_eq_ok.mpr ⟨none, t, h, rfl⟩

/-- An operand with no operator of the family after it. -/
theorem leftGrouped_alone {family : Symbol → Option BinaryOp} {p : Parser Expr} (h : p s = .ok (e, t))
    (ht : ∀ x, nextOf t.rest = .symbol x → family x = none) : Parser.leftGrouped family p s = .ok (e, t) := by
  have hmiss : Parser.operation? family p t = .ok (none, t) := Parser.operation?_miss p fun ⟨x, op, hx, hop⟩ => by
    rw [ht x hx] at hop
    cases hop
  exact bind_eq_ok.mpr ⟨e, t, h, bind_eq_ok.mpr ⟨[], t, many_of_none hmiss, rfl⟩⟩

/-- An operand with no such connective after it. -/
theorem connected_alone {op : BoolOp} {p : Parser Expr} (h : p s = .ok (e, t))
    (ht : (nextOf t.rest).is (.keyword op.key) = false) : Parser.connected op p s = .ok (e, t) := by
  have hmiss : Parser.afterQuietly (.keyword op.key) p t = .ok (none, t) :=
    bind_eq_ok.mpr ⟨false, t, Parser.acceptQuietly_miss ht, rfl⟩
  exact bind_eq_ok.mpr ⟨e, t, h, bind_eq_ok.mpr ⟨[], t, many_of_none hmiss, rfl⟩⟩

/-- A factor is a whole expression if nothing goes on with it. -/
theorem disjunction_alone {G : Nested} (h : Parser.factor G s = .ok (e, t))
    (hs : (nextOf s.rest).is (.keyword .not) = false) (harithmetic : (nextOf t.rest).isArithmetic = false)
    (ht : Complete t.rest) : Parser.disjunction G s = .ok (e, t) := by
  have hfamilies : ∀ x, nextOf t.rest = .symbol x →
      BinaryOp.ofAdditive? x = none ∧ BinaryOp.ofMultiplicative? x = none := fun x hx => by
    rw [hx] at harithmetic
    simpa [isArithmetic, Option.isSome_eq_false_iff] using harithmetic
  have hsum : Parser.sum G s = .ok (e, t) :=
    leftGrouped_alone (leftGrouped_alone h fun x hx => (hfamilies x hx).2) fun x hx => (hfamilies x hx).1
  have hcomparison : Parser.comparison G s = .ok (e, t) :=
    bind_eq_ok.mpr ⟨e, t, hsum, bind_eq_ok.mpr ⟨none, t, Parser.comparison?_miss ht.1, rfl⟩⟩
  have hinversion : Parser.inversion G s = .ok (e, t) :=
    bind_eq_ok.mpr ⟨false, s, Parser.acceptQuietly_miss hs, hcomparison⟩
  exact connected_alone (connected_alone hinversion (ht.2 .and)) (ht.2 .or)

/-! ## Parentheses -/

section
variable {limit limit' n : Nat} {u rest : List Lexeme} {left right : Lexeme}

/-- How the lexemes that an expression is read from begin. -/
theorem expr_opensWith (h : (Parser.nested limit n).expr s = .ok (e, t)) :
    ∃ u, s.rest = u ++ t.rest ∧ OpensWith Token.opensExpr u := by
  obtain ⟨u, m, -, hu⟩ :=
    (nested_sound limit invariant_true (Q := Never) (.inl ⟨rfl, rfl⟩) n).expr.exact trivial h
  exact ⟨u, m.rest, phrases_expr_opens hu⟩

/-- An expression in parentheses does not look like a list of literals. -/
theorem listNext_eq_false (hu : OpensWith Token.opensExpr u) (hright : right.token = .symbol .rightParen)
    (hs : s.rest = left :: (u ++ right :: rest)) : Parser.listNext s = false := by
  obtain ⟨m, v, rfl, -, hv⟩ := hu
  cases hm : m.token.isLiteral with
  | false => exact Parser.listNext_of_not_literal hs hm
  | true =>
    cases v with
    | nil =>
      have hcomma : right.token.is (.symbol .comma) = false := by
        rw [hright]
        rfl
      rw [Parser.listNext_of_cons hs, hcomma, Bool.and_false]
    | cons k v =>
      have hk : k.token.is (.symbol .comma) = false := by
        rw [← Bool.not_eq_true]
        intro hcomma
        have := hv hm k rfl
        rw [is_symbol_iff.mp hcomma] at this
        cases this
      rw [Parser.listNext_of_cons hs, hk, Bool.and_false]

/-- An expression in parentheses is the same expression, if nothing goes on with it and no operator with the
parentheses. -/
theorem expr_enclosed (h : (Parser.nested limit n).expr s = .ok (e, t)) (hs : s.rest = u ++ t.rest)
    (hends : ¬ Dangling t.rest) (harithmetic : (nextOf t.rest).isArithmetic = false)
    (hleft : left.token = .symbol .leftParen) (hright : right.token = .symbol .rightParen) {s' : Input}
    (hs' : s'.rest = left :: (u ++ right :: t.rest)) :
    ∃ e' t', (Parser.nested limit' (n + 1)).expr s' = .ok (e', t') ∧ t'.rest = t.rest ∧
      Like True Expr.plain e e' := by
  obtain ⟨v, hv, hopens⟩ := expr_opensWith h
  obtain rfl : v = u := List.append_cancel_right (hv.symm.trans hs)
  obtain ⟨e', s₁, h₁, hs₁, he⟩ := ((nested_sees True limit limit' (Nat.le_refl n)).expr s e t h).2
    ⟨v ++ right :: t.rest, [], left.span⟩ (right :: t.rest) ⟨v, v, hs, rfl, rfl⟩
    (.inr ⟨.inr ⟨trivial, hright⟩, fun _ => hends⟩)
  have hgroup : Parser.group (Parser.nested limit' n) ⟨v ++ right :: t.rest, [], left.span⟩ =
      .ok (e', ⟨t.rest, [], right.span⟩) :=
    bind_eq_ok.mpr ⟨e', s₁, h₁, bind_eq_ok.mpr ⟨(), _, Parser.expect_hit hs₁ (by rw [hright]; rfl), rfl⟩⟩
  have hfactor : Parser.factor (Parser.nested limit' n) s' = .ok (e', ⟨t.rest, [], right.span⟩) := by
    rw [Parser.factor_group _ (listNext_eq_false hopens hright hs') hs' hleft, hgroup]
  have hcomplete : Complete t.rest := (nested_stops limit n).expr h
  exact ⟨e', _, disjunction_alone hfactor (by rw [hs', nextOf, firstOf_cons, hleft]; rfl) harithmetic hcomplete,
    rfl, he⟩

/-- The expression of a target without a name may stand in parentheses. -/
theorem target_enclosed {x : Target} (h : Parser.target (Parser.nested limit n) s = .ok (x, t))
    (hname : x.name = none) (hs : s.rest = u ++ t.rest) (hends : ¬ Dangling t.rest)
    (harithmetic : (nextOf t.rest).isArithmetic = false) (hleft : left.token = .symbol .leftParen)
    (hright : right.token = .symbol .rightParen) {s' : Input} (hs' : s'.rest = left :: (u ++ right :: t.rest)) :
    ∃ x' t', Parser.target (Parser.nested limit' (n + 1)) s' = .ok (x', t') ∧ t'.rest = t.rest ∧
      Like True Target.plain x x' := by
  obtain ⟨start, s₀, h₀, h⟩ := bind_eq_ok.mp h
  obtain ⟨-, rfl⟩ := Prod.mk.inj (Except.ok.inj h₀)
  obtain ⟨e, s₁, h₁, h⟩ := bind_eq_ok.mp h
  obtain ⟨name, s₂, h₂, h⟩ := bind_eq_ok.mp h
  obtain ⟨stop, s₃, h₃, h⟩ := bind_eq_ok.mp h
  obtain ⟨-, rfl⟩ := Prod.mk.inj (Except.ok.inj h₃)
  obtain ⟨rfl, rfl⟩ := pure_eq_ok.mp h
  obtain rfl : name = none := hname
  -- no name was read, and none will be
  obtain ⟨b, s₄, h₄, h₅⟩ := bind_eq_ok.mp h₂
  rcases accept_eq_ok h₄ with ⟨rfl, -⟩ | ⟨rfl, has, hr, -⟩
  · obtain ⟨n, -, hn⟩ := map_eq_ok.mp h₅
    cases hn
  · obtain ⟨-, rfl⟩ := pure_eq_ok.mp h₅
    rw [hr] at hs hends harithmetic hs'
    obtain ⟨e', t', he', ht', he⟩ : ∃ e' t', (Parser.nested limit' (n + 1)).expr s' = .ok (e', t') ∧ _ :=
      expr_enclosed h₁ hs hends harithmetic hleft hright hs'
    rw [← ht'] at has
    refine ⟨_, _, bind_eq_ok.mpr ⟨_, s', rfl, bind_eq_ok.mpr ⟨e', t', he', bind_eq_ok.mpr ⟨none, _,
      bind_eq_ok.mpr ⟨false, _, Parser.accept_miss has, rfl⟩, bind_eq_ok.mpr ⟨_, _, rfl, rfl⟩⟩⟩⟩, ?_, he.target none _ _⟩
    rw [hr]
    exact ht'

end

end LedgerQuery
