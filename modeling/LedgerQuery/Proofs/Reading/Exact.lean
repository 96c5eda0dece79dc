import LedgerQuery.Proofs.Lexing.Legal
import LedgerQuery.Proofs.Reading.CompleteSelect
import LedgerQuery.Proofs.Reading.SoundSelect

/-!
# The parser accepts exactly its grammar

A text without scalar subselects is parsed exactly when its lexemes are a
statement of the grammar, and the tree is that of the grammar, which is the
only one (`parse_eq_ok_iff_isReadAs`).  One direction is
`statement_of_parseLexemes` and the other is `parseLexemes_of_statement`.

A text has no scalar subselects if `SELECT` is only its first token, or in a
`SELECT` follows `FROM` and a left parenthesis.  While such a text is read, every
`SELECT` to come stays behind `FROM` and a left parenthesis (`SelectsAfterFrom`).

The last section says which numbers and dates are in range.
-/

namespace LedgerQuery

open Token

/-- The token at a place in a list of lexemes. -/
def tokenAt (lexemes : List Lexeme) (n : Nat) : Token := nextOf (lexemes.drop n)

/-- Whether `SELECT` is only the first token, or in a `SELECT` follows `FROM` and a left
parenthesis. -/
def NoScalarSubselects (lexemes : List Lexeme) : Prop :=
  ∀ n < lexemes.length, (tokenAt lexemes n).is (.keyword .select) = true → n = 0 ∨
    ((tokenAt lexemes 0).is (.keyword .select) = true ∧ 2 ≤ n ∧
      (tokenAt lexemes (n - 2)).is (.keyword .from) = true ∧
      (tokenAt lexemes (n - 1)).is (.symbol .leftParen) = true)

instance (lexemes : List Lexeme) : Decidable (NoScalarSubselects lexemes) :=
  inferInstanceAs (Decidable (∀ n < lexemes.length, _ → _))

/-- Whether every `SELECT` follows `FROM` and a left parenthesis. -/
def SelectsAfterFrom (rest : List Lexeme) : Prop :=
  ∀ n, (tokenAt rest n).is (.keyword .select) = true → 2 ≤ n ∧
    (tokenAt rest (n - 2)).is (.keyword .from) = true ∧
    (tokenAt rest (n - 1)).is (.symbol .leftParen) = true

/-- Whether there is no `SELECT`. -/
def NoSelects (rest : List Lexeme) : Prop :=
  ∀ n, (tokenAt rest n).is (.keyword .select) = false

theorem noSelects_tail {l : Lexeme} {rest : List Lexeme} (h : NoSelects (l :: rest)) :
    NoSelects rest := fun n => h (n + 1)

theorem NoSelects.invariant : Invariant NoSelects where
  tail h _ := noSelects_tail h
  filter h _ _ := noSelects_tail h
  query h _ _ _ := noSelects_tail (noSelects_tail (noSelects_tail h))

theorem SelectsAfterFrom.next {rest : List Lexeme} (h : SelectsAfterFrom rest) :
    (nextOf rest).is (.keyword .select) = false := by
  rw [← Bool.not_eq_true]
  intro hs
  exact absurd (h 0 hs).1 (by omega)

theorem SelectsAfterFrom.invariant : Invariant SelectsAfterFrom where
  tail {l rest} h hl n hn := by
    obtain ⟨h2, hf, hp⟩ := h (n + 1) hn
    rcases n with _ | _ | n
    · omega
    · -- here the first lexeme would be `FROM`
      exact absurd (hf.symm.trans hl) (by simp)
    · exact ⟨by omega, hf, hp⟩
  filter {l rest} h hl hq n hn := by
    obtain ⟨h2, hf, hp⟩ := h (n + 1) hn
    rcases n with _ | _ | n
    · omega
    · -- here a query in parentheses would follow the first lexeme
      rcases rest with _ | ⟨m, _ | ⟨k, rest⟩⟩
      · cases hn
      · cases hn
      · exact absurd ⟨m, k, rest, rfl, hp, hn⟩ hq
    · exact ⟨by omega, hf, hp⟩
  query {l m k rest} h hl hm hk n hn := by
    obtain ⟨h2, hf, hp⟩ := h (n + 3) hn
    rcases n with _ | _ | n
    · exact absurd (hf.symm.trans (is_eq_false_of_is hm (by decide))) (by simp)
    · exact absurd (hf.symm.trans (is_eq_false_of_is hk (by decide))) (by simp)
    · exact ⟨by omega, hf, hp⟩

variable {source : String} {lexemes : List Lexeme} {limit : Nat} {t t' : Statement}

/-- A text is parsed as a statement when its lexemes are. -/
theorem parse_eq_ok_iff (hs : scan source = .ok lexemes) :
    parse source limit = .ok t ↔ ∃ span, parseLexemes lexemes limit = .ok (t, span) := by
  simp only [parse, parseSpanned, hs, bind, Except.bind]
  rcases parseLexemes lexemes limit with stop | ⟨t', span⟩
  · simp [Except.map, throw, throwThe, MonadExceptOf.throw]
  · simp [Except.map, pure, Except.pure]

theorem NoScalarSubselects.noSelects (h : NoScalarSubselects lexemes)
    (hf : (nextOf lexemes).is (.keyword .select) = false) : NoSelects lexemes := by
  intro n
  rw [← Bool.not_eq_true]
  intro hn
  by_cases hlt : n < lexemes.length
  · rcases h n hlt hn with rfl | ⟨h0, -⟩
    · exact absurd (hn.symm.trans hf) (by simp)
    · exact absurd (h0.symm.trans hf) (by simp)
  · rw [tokenAt, List.drop_eq_nil_of_le (by omega)] at hn
    cases hn

theorem NoScalarSubselects.selectsAfterFrom {l : Lexeme} {rest : List Lexeme}
    (h : NoScalarSubselects (l :: rest)) (hl : l.token.is (.keyword .select) = true) :
    SelectsAfterFrom rest := by
  intro n hn
  by_cases hlt : n < rest.length
  · rcases h (n + 1) (by simpa using hlt) hn with h0 | ⟨-, h2, hf, hp⟩
    · omega
    · rcases n with _ | _ | n
      · omega
      · exact absurd (hf.symm.trans (is_eq_false_of_is hl (by decide))) (by simp)
      · exact ⟨by omega, hf, hp⟩
  · rw [tokenAt, List.drop_eq_nil_of_le (by omega)] at hn
    cases hn

/-- What is parsed without scalar subselects is a statement of the grammar. -/
theorem isReadAs_of_parse (hs : scan source = .ok lexemes) (hsel : NoScalarSubselects lexemes)
    (h : parse source limit = .ok t) : t.IsReadAs lexemes := by
  obtain ⟨span, h⟩ := (parse_eq_ok_iff hs).mp h
  refine ⟨limit, statement_of_parseLexemes (Q := Halted) SelectsAfterFrom.invariant
    NoSelects.invariant (fun _ _ => noSelects_tail) (.inr ⟨rfl, ?_⟩) hsel.noSelects ?_
    (fun l hl => (scan_legal hs l hl).ne_eof) h⟩
  · rintro rest (hr | hr)
    · exact hr.next
    · exact hr 0
  · rintro l rest rfl hl
    exact hsel.selectsAfterFrom hl

/-- A statement of the grammar is parsed. -/
theorem parse_of_isReadAs (hs : scan source = .ok lexemes) (hlimit : 2 * lexemes.length ≤ limit)
    (h : t.IsReadAs lexemes) : parse source limit = .ok t := by
  obtain ⟨levels, h⟩ := h
  exact (parse_eq_ok_iff hs).mpr (parseLexemes_of_statement (by decide) h (.inr (by omega)))

/-- A text without scalar subselects is parsed exactly as the grammar says, and the grammar gives it
at most one tree. -/
theorem parse_eq_ok_iff_isReadAs (hs : scan source = .ok lexemes)
    (hsel : NoScalarSubselects lexemes) (hlimit : 2 * lexemes.length ≤ limit) :
    (∀ t, parse source limit = .ok t ↔ t.IsReadAs lexemes) ∧
      ∀ t t' : Statement, t.IsReadAs lexemes → t'.IsReadAs lexemes → t = t' := by
  refine ⟨fun t => ⟨isReadAs_of_parse hs hsel, parse_of_isReadAs hs hlimit⟩, fun t t' h h' => ?_⟩
  have hp := parse_of_isReadAs hs hlimit h
  have hp' := parse_of_isReadAs hs hlimit h'
  exact Except.ok.inj (hp.symm.trans hp')

/-- A query of the rows of another query, under the least limit. -/
theorem parse_eq_ok_iff_isReadAs_query : ∃ lexemes,
    scan "SELECT * FROM (SELECT a)" = .ok lexemes ∧ NoScalarSubselects lexemes ∧
      2 * lexemes.length ≤ 14 ∧
      (∀ t, parse "SELECT * FROM (SELECT a)" 14 = .ok t ↔ t.IsReadAs lexemes) ∧
        ∀ t t' : Statement, t.IsReadAs lexemes → t'.IsReadAs lexemes → t = t' := by
  have hs : scan "SELECT * FROM (SELECT a)" = .ok [
      ⟨.keyword .select "SELECT", ⟨0, 6⟩⟩, ⟨.symbol .star, ⟨7, 8⟩⟩, ⟨.keyword .from "FROM", ⟨9, 13⟩⟩,
      ⟨.symbol .leftParen, ⟨14, 15⟩⟩, ⟨.keyword .select "SELECT", ⟨15, 21⟩⟩,
      ⟨.ident "a", ⟨22, 23⟩⟩, ⟨.symbol .rightParen, ⟨23, 24⟩⟩] := rfl
  have hsel : NoScalarSubselects [
      ⟨.keyword .select "SELECT", ⟨0, 6⟩⟩, ⟨.symbol .star, ⟨7, 8⟩⟩, ⟨.keyword .from "FROM", ⟨9, 13⟩⟩,
      ⟨.symbol .leftParen, ⟨14, 15⟩⟩, ⟨.keyword .select "SELECT", ⟨15, 21⟩⟩,
      ⟨.ident "a", ⟨22, 23⟩⟩, ⟨.symbol .rightParen, ⟨23, 24⟩⟩] := by decide
  exact ⟨_, hs, hsel, by decide, parse_eq_ok_iff_isReadAs hs hsel (by decide)⟩

/-! ## Ranges -/

section
variable {digits written : String}

/-- A literal integer is in range if it fits sixty-three bits. -/
theorem integerOf_eq_ok_iff {n : Int64} : integerOf digits = .ok n ↔
    digitsValue digits.toList < 2 ^ 63 ∧ n = Int64.ofNat (digitsValue digits.toList) := by
  have hmax : Int64.maxValue.toInt = 2 ^ 63 - 1 := by decide
  rw [integerOf, hmax]
  by_cases h : digitsValue digits.toList < 2 ^ 63
  · simp only [h, true_and, eq_comm (a := n)]
    rw [if_pos (by omega)]
    simp
  · simp only [h, false_and, iff_false]
    rw [if_neg (by omega)]
    simp

/-- The number of a target or of rows is in range if it fits sixty-four bits. -/
theorem countOf_eq_ok_iff {n : UInt64} : countOf digits = .ok n ↔
    digitsValue digits.toList < 2 ^ 64 ∧ n = UInt64.ofNat (digitsValue digits.toList) := by
  have hsize : UInt64.size = 2 ^ 64 := by decide
  rw [countOf, hsize]
  by_cases h : digitsValue digits.toList < 2 ^ 64
  · simp only [h, true_and, if_true, eq_comm (a := n)]
    simp
  · simp only [h, false_and, iff_false, if_false]
    simp

end

end LedgerQuery
