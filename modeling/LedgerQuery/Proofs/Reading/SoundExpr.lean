import LedgerQuery.Proofs.Reading.Backward

/-!
# Expressions that are read are expressions of the grammar

There is one lemma for each reader of the grammar of expressions.  They suppose
the same of the readers one nesting level deeper (`Sound`).  A reader of expressions
halts only where a query without parentheses does, which its last operand may be.

A list of literals is read without looking for its first comma.  That the comma
is there was seen before, when the list was told apart from an expression in
parentheses.  So atoms are read under a condition on the third token.
-/

namespace LedgerQuery

open Token

/-- Where expressions and queries may halt. -/
structure Halting (E Q : List Lexeme → Prop) : Prop where
  /-- Expressions halt before a `NOT` that dangles. -/
  dangling : ∀ {rest}, E rest → Dangling rest
  /-- Queries may halt there too. -/
  query : ∀ {rest}, E rest → Q rest
  /-- Queries halt before a token that would continue an expression. -/
  halted : ∀ {rest}, Q rest → Halted rest

theorem Halting.expr_halted {E Q : List Lexeme → Prop} (h : Halting E Q) {rest : List Lexeme} (hE : E rest) :
    Halted rest := h.halted (h.query hE)

/-- The readers one nesting level deeper find what the grammar allows. -/
structure Sound (E Q I : List Lexeme → Prop) (inner : Nested) (G : Phrases) : Prop where
  /-- They halt before tokens that end nothing. -/
  halting : Halting E Q
  /-- Expressions are found. -/
  expr : Finds E I I inner.expr G.expr
  /-- Operands of `NOT` are found. -/
  inversion : Finds E I I inner.inversion G.inversion
  /-- Operands of signs are found. -/
  factor : Finds E I I inner.factor G.factor
  /-- Queries are found. -/
  select : Finds Q (fun rest => ∀ l rest', rest = l :: rest' →
    l.token.is (.keyword .select) = true → I rest') I inner.select G.select
  /-- A query where an atom is wanted is an atom by itself. -/
  bare : ∀ s q s', I s.rest → (nextOf s.rest).is (.keyword .select) = true →
    inner.select s = .ok (q, s') → (∃ u, s.Moved u s' ∧ I s'.rest ∧ G.bare u q) ∨ E s'.rest
  /-- An expression is not empty. -/
  ne_nil : ∀ {u e}, G.expr u e → u ≠ []
  /-- An expression is a key, but for a single integer after which queries may halt. -/
  key : ∀ {s s' u e}, inner.expr s = .ok (e, s') → s.Moved u s' → G.expr u e →
    (IsInteger u → Halted s'.rest) → G.key u e ∨ Q s'.rest

/-- What stands between the left operand of a comparison and the rest. -/
def Phrase.comparisonMark : Phrase Parser.Comparison
  | u, .binary op => comparisonOperator u op
  | u, .null op => (do
      keyword .is
      let negated ← flag (.keyword .not)
      keyword .null
      return if negated then .isNotNull else .isNull : Phrase UnaryOp) u op
  | u, .between => keyword .between u ()

/-- The rest of a comparison. -/
def Phrase.comparedWith (G : Phrases) (left : Expr) : Parser.Comparison → Phrase Expr
  | .binary op => do
    let right ← sum G
    return .binary left op right
  | .null op => return .unary op left
  | .between => do
    let lower ← sum G
    keyword .and
    let upper ← sum G
    return .between left lower upper

/-- Whether a left parenthesis that is next has a comma two tokens after it. -/
def ListAhead (rest : List Lexeme) : Prop :=
  (nextOf rest).is (.symbol .leftParen) = true →
    (nextOf (rest.drop 2)).is (.symbol .comma) = true

namespace Parser

variable {α : Type} {s s' : Input}

theorem peek_bind (f : Token → Parser α) (s : Input) :
    (peek >>= f) s = f (nextOf s.rest) s := by
  rw [← next_eq_nextOf]
  rfl

theorem take_ok_eq {a b : α} (h : take (.ok a) s = .ok (b, s')) : a = b := by
  obtain ⟨_, s₁, -, h₂⟩ := bind_eq_ok.mp h
  exact (pure_eq_ok.mp h₂).1

end Parser

namespace Finds

open LedgerQuery.Parser

variable {H I : List Lexeme → Prop}

section
variable (hinv : Invariant I)
include hinv

/-! ## Values -/

theorem name : Finds H I I Parser.name Phrase.name := by
  refine token hinv rfl (fun t n ht => ?_) fun s n s' hs => ?_
  · cases t with
    | keyword k written => cases k <;> simp_all [name?, Keyword.isReserved, Keyword.contextual, is, terminal?]
    | _ => simp_all [is, terminal?]
  · unfold Parser.name at hs
    rw [peek_bind] at hs
    cases hn : (nextOf s.rest).name? with
    | some n' =>
      rw [hn] at hs
      obtain rfl := take_ok_eq hs
      exact ⟨rfl, hs⟩
    | none =>
      rw [hn] at hs
      exact absurd hs missing_ne_ok

theorem literal? : Finds H I I Parser.literal? (Phrase.optional Phrase.literal) := by
  refine of_exact fun s a s' hI hs => ?_
  unfold Parser.literal? at hs
  rw [peek_bind] at hs
  cases hr : (nextOf s.rest).literal? with
  | some r =>
    rw [hr] at hs
    obtain ⟨a, ha, rfl⟩ := map_eq_ok.mp hs
    have hne : nextOf s.rest ≠ .eof := fun he => by simp [he, Token.literal?] at hr
    obtain ⟨rfl, l, rest, hl, rfl⟩ := take_eq_ok ha hne
    have ht : l.token.literal? = some (.ok a) := by simpa [hl] using hr
    refine ⟨[l], .single hl, hinv.tail (hl ▸ hI) ?_, Phrase.literal_iff.mpr ⟨l, rfl, ht⟩⟩
    generalize l.token = t at ht
    cases t with
    | keyword k written => cases k <;> simp_all [Token.literal?, is, terminal?]
    | _ => rfl
  | none =>
    rw [hr] at hs
    obtain ⟨rfl, rfl⟩ := pure_eq_ok.mp hs
    exact ⟨[], .refl _, hI, rfl⟩

theorem date : Finds H I I Parser.date Phrase.date := by
  refine token hinv rfl (fun t d ht => ?_) fun s d s' hs => ?_
  · cases t <;> simp_all [is, terminal?]
  · unfold Parser.date at hs
    rw [peek_bind] at hs
    cases ht : nextOf s.rest with
    | date written =>
      rw [ht] at hs
      replace hs : take (dateOf written) s = .ok (d, s') := hs
      obtain ⟨hd, -⟩ := take_eq_ok hs (by rw [ht]; simp)
      rw [hd] at hs
      exact ⟨by simp [hd, Except.toOption], hs⟩
    | _ =>
      rw [ht] at hs
      exact absurd hs missing_ne_ok

theorem stringValue : Finds H I I Parser.stringValue Phrase.stringValue := by
  refine token hinv rfl (fun t d ht => ?_) fun s d s' hs => ?_
  · cases t <;> simp_all [is, terminal?]
  · unfold Parser.stringValue at hs
    rw [peek_bind] at hs
    cases ht : nextOf s.rest with
    | string value =>
      rw [ht] at hs
      obtain rfl := take_ok_eq hs
      exact ⟨rfl, hs⟩
    | _ =>
      rw [ht] at hs
      exact absurd hs missing_ne_ok

theorem count : Finds H I I Parser.count Phrase.count := by
  refine token hinv rfl (fun t n ht => ?_) fun s n s' hs => ?_
  · cases t <;> simp_all [is, terminal?]
  · unfold Parser.count at hs
    rw [peek_bind] at hs
    cases ht : nextOf s.rest with
    | integer digits =>
      rw [ht] at hs
      replace hs : take (countOf digits) s = .ok (n, s') := hs
      obtain ⟨hn, -⟩ := take_eq_ok hs (by rw [ht]; simp)
      rw [hn] at hs
      exact ⟨by simp [hn, Except.toOption], hs⟩
    | _ =>
      rw [ht] at hs
      exact absurd hs missing_ne_ok

/-! ## Atoms -/

theorem listItem : Finds H I I Parser.listItem (Phrase.optional Phrase.literal) := by
  refine of_exact fun s a s' hI hs => ?_
  unfold Parser.listItem at hs
  obtain ⟨o, s₁, h₁, h₂⟩ := bind_eq_ok.mp hs
  obtain ⟨u, hu, hJ, hl⟩ := exact (literal? hinv) hI h₁
  cases o with
  | some a =>
    obtain ⟨rfl, rfl⟩ := pure_eq_ok.mp h₂
    exact ⟨u, hu, hJ, hl⟩
  | none =>
    obtain ⟨_, s₂, h₃, h₄⟩ := bind_eq_ok.mp h₂
    obtain ⟨rfl, rfl⟩ := pure_eq_ok.mp h₄
    obtain rfl : { s₁ with tried := .literal :: s₁.tried } = s₂ := by simpa [record] using h₃
    obtain rfl : u = [] := hl
    exact ⟨[], ⟨hu.rest, hu.last⟩, hJ, rfl⟩

theorem literalList {s s' : Input} {e : Expr} (hI : I s.rest) (hl : ListAhead s.rest)
    (hs : Parser.literalList s = .ok (e, s')) :
    ∃ u, s.Moved u s' ∧ I s'.rest ∧ Phrase.literalList u e := by
  unfold Parser.literalList at hs
  obtain ⟨_, s₁, h₁, hs₁⟩ := bind_eq_ok.mp hs
  obtain ⟨_, m₁, I₁, l, rfl, hparen⟩ := exact (expect hinv (by decide)) hI h₁
  obtain ⟨o, s₂, h₂, hs₂⟩ := bind_eq_ok.mp hs₁
  obtain ⟨x, m₂, I₂, hx⟩ := exact (literal? hinv) I₁ h₂
  cases o with
  | none => exact absurd hs₂ missing_ne_ok
  | some first =>
    obtain ⟨others, s₃, h₃, hs₃⟩ := bind_eq_ok.mp hs₂
    have hmany := many (H := Never) (after (x := .symbol .comma) hinv (by decide) (listItem hinv))
      fun _ _ _ _ hhalt => hhalt.elim
    obtain ⟨y, m₃, I₃, hy⟩ := exact hmany I₂ h₃
    obtain ⟨_, s₄, h₄, hs₄⟩ := bind_eq_ok.mp hs₃
    obtain ⟨_, m₄, I₄, r, rfl, hr⟩ := exact (expect hinv (by decide)) I₃ h₄
    obtain ⟨rfl, rfl⟩ := pure_eq_ok.mp hs₄
    refine ⟨_, m₁.trans (m₂.trans (m₃.trans m₄)), I₄, ?_⟩
    obtain ⟨m, rfl, hm⟩ := Phrase.literal_iff.mp hx
    have hcomma : (firstOf r.token y).is (.symbol .comma) = true := by
      have := hl (by simp [m₁.rest, hparen])
      rw [m₁.rest, m₂.rest, m₃.rest, m₄.rest] at this
      simpa [nextOf] using this
    cases hy with
    | nil =>
      rw [firstOf_nil, is_symbol_iff.mp hr] at hcomma
      exact absurd hcomma (by decide)
    | @cons v w second others hv hw =>
      obtain ⟨c, item, _, rfl, hc, hitem⟩ := hv
      rw [List.append_assoc, List.append_assoc]
      exact Phrase.seq (Phrase.single hparen) (Phrase.seq hx (Phrase.seq hc (Phrase.seq hitem
        (Phrase.seq hw (Phrase.seq_pure (Phrase.single hr))))))

section
variable {E Q : List Lexeme → Prop} {inner : Nested} {G : Phrases} (hG : Sound E Q I inner G)
include hG

theorem arguments : Finds Never I I (Parser.arguments inner) (Phrase.arguments G) := by
  refine of_exact fun s as s' hI hs => ?_
  unfold Parser.arguments at hs
  obtain ⟨_, s₁, h₁, hs₁⟩ := bind_eq_ok.mp hs
  obtain ⟨x, m₁, I₁, hx⟩ := exact (expect hinv (by decide)) hI h₁
  obtain ⟨star, s₂, h₂, hs₂⟩ := bind_eq_ok.mp hs₁
  obtain ⟨y, m₂, I₂, hy⟩ := exact (accept hinv (by decide)) I₁ h₂
  cases star with
  | true =>
    obtain ⟨_, s₃, h₃, hs₃⟩ := bind_eq_ok.mp hs₂
    obtain ⟨z, m₃, I₃, hz⟩ := exact (expect hinv (by decide)) I₂ h₃
    obtain ⟨rfl, rfl⟩ := pure_eq_ok.mp hs₃
    exact ⟨_, m₁.trans (m₂.trans m₃), I₃,
      Phrase.oneOf_head (Phrase.seq hx (Phrase.seq (Phrase.of_flag hy) (Phrase.seq_pure hz)))⟩
  | false =>
    obtain rfl : y = [] := hy
    obtain ⟨close, s₃, h₃, hs₃⟩ := bind_eq_ok.mp hs₂
    obtain ⟨y, m₃, I₃, hy⟩ := exact (accept hinv (by decide)) I₂ h₃
    cases close with
    | true =>
      obtain ⟨rfl, rfl⟩ := pure_eq_ok.mp hs₃
      exact ⟨_, m₁.trans (m₂.skip m₃), I₃,
        Phrase.oneOf_tail (Phrase.oneOf_head (Phrase.seq hx
          (Phrase.seq_pure (Phrase.of_flag hy))))⟩
    | false =>
      obtain rfl : y = [] := hy
      obtain ⟨args, s₄, h₄, hs₄⟩ := bind_eq_ok.mp hs₃
      obtain ⟨_, s₅, h₅, hs₅⟩ := bind_eq_ok.mp hs₄
      rcases commaList hinv hG.halting.expr_halted hG.expr _ _ _ I₃ h₄ with ⟨y, m₄, I₄, hy⟩ | hhalt
      · obtain ⟨z, m₅, I₅, hz⟩ := exact (expect hinv (by decide)) I₄ h₅
        obtain ⟨rfl, rfl⟩ := pure_eq_ok.mp hs₅
        exact ⟨_, m₁.trans (m₂.skip (m₃.skip (m₄.trans m₅))), I₅,
          Phrase.oneOf_tail (Phrase.oneOf_tail (Phrase.oneOf_head
            (Phrase.seq hx (Phrase.seq hy (Phrase.seq_pure hz)))))⟩
      · exact absurd h₅ (Idle.expect_ne_ok (by decide) (hG.halting.expr_halted hhalt))

/-- A name is a call or a column. -/
theorem nameOrCall {s s' : Input} {e : Expr} (hI : I s.rest)
    (hs : Parser.nameOrCall inner s = .ok (e, s')) :
    ∃ u, s.Moved u s' ∧ I s'.rest ∧ Phrase.atom G u e := by
  unfold Parser.nameOrCall at hs
  obtain ⟨_, s₀, h₀, hs₀⟩ := bind_eq_ok.mp hs
  obtain ⟨rfl, rfl⟩ : s.nth 1 = _ ∧ s = s₀ := by simpa [peekNth] using h₀
  obtain ⟨n, s₁, h₁, hs₁⟩ := bind_eq_ok.mp hs₀
  obtain ⟨x, m₁, I₁, hx⟩ := exact (name hinv) hI h₁
  cases hcall : (s.nth 1).is (.symbol .leftParen) with
  | true =>
    rw [if_pos hcall] at hs₁
    obtain ⟨as, s₂, h₂, hs₂⟩ := bind_eq_ok.mp hs₁
    obtain ⟨y, m₂, I₂, hy⟩ := exact (arguments hinv hG) I₁ h₂
    obtain ⟨rfl, rfl⟩ := pure_eq_ok.mp hs₂
    exact ⟨_, m₁.trans m₂, I₂, Phrase.oneOf_head (Phrase.seq hx (Phrase.seq_pure hy))⟩
  | false =>
    rw [if_neg (by simp [hcall])] at hs₁
    obtain ⟨rfl, rfl⟩ := pure_eq_ok.mp hs₁
    exact ⟨x, m₁, I₁, Phrase.oneOf_tail (Phrase.oneOf_head (Phrase.seq_pure hx))⟩

omit hG in
/-- Any other atom is a literal. -/
theorem value {s s' : Input} {e : Expr} (hI : I s.rest)
    (hs : (Parser.literal? >>= fun
      | some value => return Expr.literal value
      | none => missing .expression) s = .ok (e, s')) :
    ∃ u, s.Moved u s' ∧ I s'.rest ∧ Phrase.atom G u e := by
  obtain ⟨o, s₁, h₁, hs₁⟩ := bind_eq_ok.mp hs
  obtain ⟨x, m₁, I₁, hx⟩ := exact (literal? hinv) hI h₁
  cases o with
  | none => exact absurd hs₁ missing_ne_ok
  | some a =>
    obtain ⟨rfl, rfl⟩ := pure_eq_ok.mp hs₁
    exact ⟨x, m₁, I₁, Phrase.oneOf_tail (Phrase.oneOf_tail (Phrase.oneOf_tail
      (Phrase.oneOf_head (Phrase.seq_pure (L := Phrase.literal) hx))))⟩

theorem atom :
    Finds E (fun rest => I rest ∧ ListAhead rest) I (Parser.atom inner) (Phrase.atom G) := by
  intro s e s' hready hs
  obtain ⟨hI, hahead⟩ := hready
  unfold Parser.atom at hs
  rw [peek_bind] at hs
  cases hsel : (nextOf s.rest).is (.keyword .select) with
  | true =>
    rw [if_pos hsel] at hs
    obtain ⟨q, s₁, h₁, hs₁⟩ := bind_eq_ok.mp hs
    obtain ⟨rfl, rfl⟩ := pure_eq_ok.mp hs₁
    refine (hG.bare s q s₁ hI hsel h₁).imp_left fun ⟨u, m, J, hu⟩ => ?_
    exact ⟨u, m, J, Phrase.oneOf_tail (Phrase.oneOf_tail (Phrase.oneOf_tail (Phrase.oneOf_tail
      (Phrase.oneOf_tail (Phrase.oneOf_head (Phrase.seq_pure hu))))))⟩
  | false =>
    rw [if_neg (by simp [hsel])] at hs
    cases hname : (nextOf s.rest).isName with
    | true =>
      rw [if_pos hname] at hs
      exact .inl (nameOrCall hinv hG hI hs)
    | false =>
      rw [if_neg (by simp [hname])] at hs
      refine .inl ?_
      cases ht : nextOf s.rest with
      | placeholder p =>
        rw [ht] at hs
        obtain rfl := take_ok_eq hs
        obtain ⟨-, l, rest, hl, rfl⟩ := take_eq_ok hs (by simp [ht])
        have hp : l.token = .placeholder p := by simpa [hl] using ht
        refine ⟨[l], .single hl, hinv.tail (hl ▸ hI) (by rw [hp]; rfl), ?_⟩
        exact Phrase.oneOf_tail (Phrase.oneOf_tail (Phrase.oneOf_head
          (Phrase.seq_pure (Phrase.placeholder_iff.mpr ⟨l, rfl, hp⟩))))
      | symbol x =>
        rw [ht] at hs
        cases x with
        | leftParen =>
          obtain ⟨u, m, J, hu⟩ := literalList hinv hI hahead hs
          exact ⟨u, m, J, Phrase.oneOf_tail (Phrase.oneOf_tail (Phrase.oneOf_tail
            (Phrase.oneOf_tail (Phrase.oneOf_head hu))))⟩
        | _ => exact value hinv hI hs
      | _ =>
        rw [ht] at hs
        exact value hinv hI hs

/-! ## Suffixes -/

omit hG in
theorem suffix? : Finds H I I Parser.suffix? (Phrase.optional Phrase.suffix) := by
  refine of_exact fun s o s' hI hs => ?_
  unfold Parser.suffix? at hs
  obtain ⟨dot, s₁, h₁, hs₁⟩ := bind_eq_ok.mp hs
  rcases acceptQuietly_eq_ok h₁ with ⟨rfl, l, rest, hl, hd, rfl⟩ | ⟨rfl, -, rfl⟩
  · obtain ⟨n, s₂, h₂, hs₂⟩ := bind_eq_ok.mp hs₁
    have hJ : I rest := hinv.tail (hl ▸ hI) (is_eq_false_of_is hd (by decide))
    obtain ⟨x, m₂, I₂, hx⟩ := exact (name hinv) hJ h₂
    obtain ⟨rfl, rfl⟩ := pure_eq_ok.mp hs₂
    exact ⟨_, (Input.Moved.single hl).trans m₂, I₂,
      Phrase.oneOf_head (Phrase.seq (Phrase.single hd) (Phrase.seq_pure hx))⟩
  · obtain ⟨bracket, s₂, h₂, hs₂⟩ := bind_eq_ok.mp hs₁
    rcases acceptQuietly_eq_ok h₂ with ⟨rfl, l, rest, hl, hb, rfl⟩ | ⟨rfl, -, rfl⟩
    · obtain ⟨key, s₃, h₃, hs₃⟩ := bind_eq_ok.mp hs₂
      have hJ : I rest := hinv.tail (hl ▸ hI) (is_eq_false_of_is hb (by decide))
      obtain ⟨x, m₃, I₃, hx⟩ := exact (stringValue hinv) hJ h₃
      obtain ⟨_, s₄, h₄, hs₄⟩ := bind_eq_ok.mp hs₃
      obtain ⟨y, m₄, I₄, hy⟩ := exact (expect hinv (by decide)) I₃ h₄
      obtain ⟨rfl, rfl⟩ := pure_eq_ok.mp hs₄
      exact ⟨_, (Input.Moved.single hl).trans (m₃.trans m₄), I₄, Phrase.oneOf_tail
        (Phrase.oneOf_head (Phrase.seq (Phrase.single hb) (Phrase.seq hx (Phrase.seq_pure hy))))⟩
    · obtain ⟨rfl, rfl⟩ := pure_eq_ok.mp hs₂
      exact ⟨[], .refl _, hI, rfl⟩

omit hinv hG in
theorem suffix?_idle : Idle Dangling Parser.suffix? := by
  intro s o s' hhalt hs
  have miss : ∀ {x : Terminal} {l rest}, x ≠ .keyword .not → s.rest = l :: rest → l.token.is x = true → False := by
    intro x l rest hx hr hl
    have hmiss := hhalt.is_eq_false hx
    rw [hr] at hmiss
    exact absurd (hl.symm.trans hmiss) (by simp)
  unfold Parser.suffix? at hs
  obtain ⟨dot, s₁, h₁, hs₁⟩ := bind_eq_ok.mp hs
  rcases acceptQuietly_eq_ok h₁ with ⟨-, l, rest, hr, hl, -⟩ | ⟨rfl, -, rfl⟩
  · exact (miss (by decide) hr hl).elim
  · obtain ⟨bracket, s₂, h₂, hs₂⟩ := bind_eq_ok.mp hs₁
    rcases acceptQuietly_eq_ok h₂ with ⟨-, l, rest, hr, hl, -⟩ | ⟨rfl, -, rfl⟩
    · exact (miss (by decide) hr hl).elim
    · obtain ⟨-, rfl⟩ := pure_eq_ok.mp hs₂
      rfl

theorem primary :
    Finds E (fun rest => I rest ∧ ListAhead rest) I (Parser.primary inner) (Phrase.primary G) := by
  have hidle : Idle E (Parser.many Parser.suffix?) := (Idle.many suffix?_idle).mono hG.halting.dangling
  refine bind (atom hinv hG) (fun _ => ?_) id fun _ => Idle.bind hidle fun _ => Idle.pure _
  exact andThen (many (suffix? hinv) fun _ _ _ _ hhalt => hhalt.elim) fun _ => pure _

/-! ## Arithmetic -/

omit hinv hG in
/-- When a list of literals is next, its first comma is. -/
theorem listAhead_of_atList {s s' : Input} {b : Bool} (h : Parser.atList s = .ok (b, s')) :
    s' = s ∧ (b = true → ListAhead s.rest) := by
  obtain ⟨rest, tried, last⟩ := s
  have hb : (_ && _, _) = (b, s') := Except.ok.inj (show Except.ok
    ((Input.nth ⟨rest, tried, last⟩ 0).is (.symbol .leftParen) &&
      (Input.nth ⟨rest, tried, last⟩ 1).isLiteral &&
      (Input.nth ⟨rest, tried, last⟩ 2).is (.symbol .comma), Input.mk rest tried last) =
    .ok (b, s') from h)
  obtain ⟨rfl, rfl⟩ := Prod.mk.inj hb
  refine ⟨rfl, fun hb _ => ?_⟩
  rw [Bool.and_eq_true] at hb
  have h₂ := hb.2
  rcases rest with _ | ⟨l, _ | ⟨m, _ | ⟨k, rest⟩⟩⟩
  · exact h₂
  · exact h₂
  · exact h₂
  · exact h₂

omit hG in
theorem advance {s s' : Input} {a : Unit} {x : Terminal} (hI : I s.rest)
    (hx : (nextOf s.rest).is x = true) (hfrom : x ≠ .keyword .from)
    (hs : Parser.advance s = .ok (a, s')) :
    ∃ l, s.Moved [l] s' ∧ I s'.rest ∧ l.token.is x = true := by
  obtain ⟨rest, tried, last⟩ := s
  cases rest with
  | nil => simp [nextOf, is, terminal?] at hx
  | cons l rest =>
    obtain rfl : Input.mk rest [] l.span = s' := by simpa [Parser.advance] using hs
    exact ⟨l, .single rfl, hinv.tail hI (is_eq_false_of_is hx hfrom), hx⟩

omit hG in
/-- A reader that reads a terminal which is known to be next, and then goes on. -/
theorem advance_bind {α : Type} {s s' : Input} {f : Unit → Parser α} {a : α} {x : Terminal} (hI : I s.rest)
    (hx : (nextOf s.rest).is x = true) (hfrom : x ≠ .keyword .from)
    (hs : (Parser.advance >>= f) s = .ok (a, s')) :
    ∃ l s₁, s.Moved [l] s₁ ∧ I s₁.rest ∧ l.token.is x = true ∧ f () s₁ = .ok (a, s') := by
  obtain ⟨_, s₁, h₁, hs₁⟩ := bind_eq_ok.mp hs
  obtain ⟨l, m₁, I₁, hl⟩ := advance hinv hI hx hfrom h₁
  exact ⟨l, s₁, m₁, I₁, hl, hs₁⟩

theorem factor : Finds E I I (Parser.factor inner) (Phrase.factor G) := by
  intro s e s' hI hs
  unfold Parser.factor at hs
  rw [peek_bind] at hs
  have asPrimary : ListAhead s.rest → Parser.primary inner s = .ok (e, s') →
      (∃ u, s.Moved u s' ∧ I s'.rest ∧ Phrase.factor G u e) ∨ E s'.rest := by
    intro ha hs
    refine (primary hinv hG s e s' ⟨hI, ha⟩ hs).imp_left fun ⟨u, m, J, hu⟩ => ?_
    exact ⟨u, m, J, Phrase.oneOf_tail (Phrase.oneOf_tail (Phrase.oneOf_tail (Phrase.oneOf_tail
      (Phrase.oneOf_head hu))))⟩
  cases ht : nextOf s.rest with
  | symbol x =>
    rw [ht] at hs
    cases x with
    | leftParen =>
      obtain ⟨b, s₀, h₀, hs₀⟩ := bind_eq_ok.mp hs
      obtain ⟨rfl, hlist⟩ := listAhead_of_atList h₀
      cases b with
      | true => exact asPrimary (hlist rfl) hs₀
      | false =>
        obtain ⟨l, s₁, m₁, I₁, hl, hs₁⟩ := advance_bind hinv hI (is_symbol_iff.mpr ht) (by decide) hs₀
        obtain ⟨e', s₂, h₂, hs₂⟩ := bind_eq_ok.mp hs₁
        obtain ⟨_, s₃, h₃, hs₃⟩ := bind_eq_ok.mp hs₂
        rcases hG.expr _ _ _ I₁ h₂ with ⟨x, m₂, I₂, hx⟩ | hhalt
        · obtain ⟨y, m₃, I₃, hy⟩ := exact (expect hinv (by decide)) I₂ h₃
          obtain ⟨rfl, rfl⟩ := pure_eq_ok.mp hs₃
          exact .inl ⟨_, m₁.trans (m₂.trans m₃), I₃, Phrase.oneOf_head
            (Phrase.seq (Phrase.single hl) (Phrase.seq hx (Phrase.seq_pure hy)))⟩
        · exact absurd h₃ (Idle.expect_ne_ok (by decide) (hG.halting.expr_halted hhalt))
    | minus =>
      obtain ⟨l, s₁, m₁, I₁, hl, hs₁⟩ := advance_bind hinv hI (is_symbol_iff.mpr ht) (by decide) hs
      obtain ⟨e', s₂, h₂, hs₂⟩ := bind_eq_ok.mp hs₁
      obtain ⟨rfl, rfl⟩ := pure_eq_ok.mp hs₂
      refine (hG.factor _ _ _ I₁ h₂).imp_left fun ⟨x, m₂, I₂, hx⟩ => ?_
      exact ⟨_, m₁.trans m₂, I₂, Phrase.oneOf_tail (Phrase.oneOf_tail (Phrase.oneOf_head
        (Phrase.seq (Phrase.single hl) (Phrase.seq_pure hx))))⟩
    | plus =>
      obtain ⟨l, s₁, m₁, I₁, hl, hs₁⟩ := advance_bind hinv hI (is_symbol_iff.mpr ht) (by decide) hs
      refine (hG.factor _ _ _ I₁ hs₁).imp_left fun ⟨x, m₂, I₂, hx⟩ => ?_
      exact ⟨_, m₁.trans m₂, I₂, Phrase.oneOf_tail (Phrase.oneOf_tail (Phrase.oneOf_tail
        (Phrase.oneOf_head (Phrase.seq (Phrase.single hl) hx))))⟩
    | _ => exact asPrimary (fun hp => by rw [ht] at hp; exact absurd hp (by decide)) hs
  | _ =>
    rw [ht] at hs
    exact asPrimary (fun hp => by rw [ht] at hp; exact absurd hp (by simp [is, terminal?])) hs

omit hG in
theorem operation? {family : Symbol → Option BinaryOp} {p : Parser Expr} {L : Phrase Expr}
    (hp : Finds H I I p L) :
    Finds H I I (Parser.operation? family p) (Phrase.optional do
      let op ← Phrase.operator family
      let right ← L
      return (op, right)) := by
  intro s o s' hI hs
  unfold Parser.operation? at hs
  rw [peek_bind] at hs
  cases ht : nextOf s.rest with
  | symbol x =>
    rw [ht] at hs
    dsimp only at hs
    cases hx : family x with
    | some op =>
      rw [hx] at hs
      obtain ⟨l, s₁, m₁, I₁, hl, hs₁⟩ := advance_bind hinv hI (is_symbol_iff.mpr ht) (by simp) hs
      obtain ⟨e, s₂, h₂, hs₂⟩ := bind_eq_ok.mp hs₁
      obtain ⟨rfl, rfl⟩ := pure_eq_ok.mp hs₂
      refine (hp _ _ _ I₁ h₂).imp_left fun ⟨y, m₂, I₂, hy⟩ => ?_
      exact ⟨_, m₁.trans m₂, I₂, Phrase.seq
        (Phrase.operator_iff.mpr ⟨l, x, rfl, is_symbol_iff.mp hl, hx⟩) (Phrase.seq_pure hy)⟩
    | none =>
      rw [hx] at hs
      obtain ⟨rfl, rfl⟩ := pure_eq_ok.mp hs
      exact .inl ⟨[], .refl _, hI, rfl⟩
  | _ =>
    rw [ht] at hs
    obtain ⟨rfl, rfl⟩ := pure_eq_ok.mp hs
    exact .inl ⟨[], .refl _, hI, rfl⟩

omit hinv hG in
theorem operation?_idle {family : Symbol → Option BinaryOp} {p : Parser Expr} :
    Idle Dangling (Parser.operation? family p) := by
  intro s o s' hhalt hs
  obtain ⟨written, hn⟩ := is_keyword_iff.mp hhalt.1
  unfold Parser.operation? at hs
  rw [peek_bind, hn] at hs
  obtain ⟨-, rfl⟩ := pure_eq_ok.mp hs
  rfl

omit hG in
theorem leftGrouped (hH : ∀ {rest}, H rest → Dangling rest) {family : Symbol → Option BinaryOp} {p : Parser Expr}
    {L : Phrase Expr} (hp : Finds H I I p L) :
    Finds H I I (Parser.leftGrouped family p) (Phrase.leftGrouped family L) := by
  have hidle : Idle H (Parser.operation? family p) := operation?_idle.mono hH
  refine bind hp (fun _ => ?_) id fun _ => Idle.bind (Idle.many hidle) fun _ => Idle.pure _
  exact bind (many (operation? hinv hp) (Idle.repeatUpTo hidle)) (fun _ => pure _) id fun _ => Idle.pure _

theorem sum : Finds E I I (Parser.sum inner) (Phrase.sum G) :=
  leftGrouped hinv hG.halting.dangling (leftGrouped hinv hG.halting.dangling (factor hinv hG))

/-! ## Comparisons -/

omit hG in
theorem nullTest : Finds Never I I Parser.nullTest (Phrase.flag (.keyword .not) >>= fun negated =>
    Phrase.keyword .null >>= fun _ =>
      Pure.pure (Comparison.null (if negated then .isNotNull else .isNull))) :=
  andThen (accept hinv (by decide)) fun _ => andThen (expect hinv (by decide)) fun _ => pure _

omit hG in
theorem comparison? : Finds Never I I Parser.comparison? (Phrase.optional Phrase.comparisonMark) := by
  refine of_exact fun s o s' hI hs => ?_
  unfold Parser.comparison? at hs
  rw [peek_bind] at hs
  have nothing : (Pure.pure none : Parser (Option Comparison)) s = .ok (o, s') →
      ∃ u, s.Moved u s' ∧ I s'.rest ∧ Phrase.optional Phrase.comparisonMark u o := by
    intro hs
    obtain ⟨rfl, rfl⟩ := pure_eq_ok.mp hs
    exact ⟨[], .refl _, hI, rfl⟩
  cases ht : nextOf s.rest with
  | symbol x =>
    rw [ht] at hs
    dsimp only at hs
    cases hx : BinaryOp.ofComparison? x with
    | some op =>
      rw [hx] at hs
      obtain ⟨l, s₁, m₁, I₁, hl, hs₁⟩ := advance_bind hinv hI (is_symbol_iff.mpr ht) (by simp) hs
      obtain ⟨rfl, rfl⟩ := pure_eq_ok.mp hs₁
      exact ⟨[l], m₁, I₁, Phrase.oneOf_head
        (Phrase.operator_iff.mpr ⟨l, x, rfl, is_symbol_iff.mp hl, hx⟩)⟩
    | none =>
      rw [hx] at hs
      exact nothing hs
  | keyword k written =>
    rw [ht] at hs
    have hk : (nextOf s.rest).is (.keyword k) = true := is_keyword_iff.mpr ⟨written, ht⟩
    cases k with
    | «in» =>
      obtain ⟨l, s₁, m₁, I₁, hl, hs₁⟩ := advance_bind hinv hI hk (by simp) hs
      obtain ⟨rfl, rfl⟩ := pure_eq_ok.mp hs₁
      exact ⟨[l], m₁, I₁, Phrase.oneOf_tail (Phrase.oneOf_head (Phrase.seq_pure (Phrase.single hl)))⟩
    | not =>
      obtain ⟨t, s₀, h₀, hs₀⟩ := bind_eq_ok.mp hs
      obtain ⟨rfl, rfl⟩ : s.nth 1 = t ∧ s = s₀ := by simpa [peekNth] using h₀
      cases hin : (s.nth 1).is (.keyword .in) with
      | true =>
        rw [if_pos hin] at hs₀
        obtain ⟨l, s₁, m₁, I₁, hl, hs₁⟩ := advance_bind hinv hI hk (by simp) hs₀
        have hin' : (nextOf s₁.rest).is (.keyword .in) = true := by
          obtain ⟨rest, tried, last⟩ := s
          obtain rfl : rest = [l] ++ s₁.rest := m₁.rest
          rwa [Input.nth_append [l] s₁.rest tried last (n := 1) (by simp)] at hin
        obtain ⟨m, s₂, m₂, I₂, hm, hs₂⟩ := advance_bind hinv I₁ hin' (by simp) hs₁
        obtain ⟨rfl, rfl⟩ := pure_eq_ok.mp hs₂
        exact ⟨_, m₁.trans m₂, I₂, Phrase.oneOf_tail (Phrase.oneOf_tail (Phrase.oneOf_head
          (Phrase.seq (Phrase.single hl) (Phrase.seq_pure (Phrase.single hm)))))⟩
      | false =>
        rw [if_neg (by simp [hin])] at hs₀
        exact nothing hs₀
    | is =>
      obtain ⟨l, s₁, m₁, I₁, hl, hs₁⟩ := advance_bind hinv hI hk (by simp) hs
      obtain ⟨c, s₂, h₂, hs₂⟩ := bind_eq_ok.mp hs₁
      obtain ⟨_, m₂, I₂, x, _, negated, rfl, hx, y, _, _, rfl, hy, rfl, rfl⟩ :=
        exact (nullTest hinv) I₁ h₂
      obtain ⟨rfl, rfl⟩ := pure_eq_ok.mp hs₂
      rw [List.append_nil] at m₂
      exact ⟨_, m₁.trans m₂, I₂, Phrase.seq (Phrase.single hl) (Phrase.seq hx (Phrase.seq_pure hy))⟩
    | between =>
      obtain ⟨l, s₁, m₁, I₁, hl, hs₁⟩ := advance_bind hinv hI hk (by simp) hs
      obtain ⟨rfl, rfl⟩ := pure_eq_ok.mp hs₁
      exact ⟨[l], m₁, I₁, Phrase.single hl⟩
    | _ => exact nothing hs
  | _ =>
    rw [ht] at hs
    exact nothing hs

omit hinv hG in
/-- Before a `NOT` that dangles there is no comparison. -/
theorem comparison?_dangling {s s' : Input} {o : Option Comparison} (hhalt : Dangling s.rest)
    (hs : Parser.comparison? s = .ok (o, s')) : o = none ∧ s' = s := by
  obtain ⟨written, hn⟩ := is_keyword_iff.mp hhalt.1
  have hin : (s.nth 1).is (.keyword .in) = false := by
    have htail := hhalt.2
    obtain ⟨rest, tried, last⟩ := s
    rcases rest with _ | ⟨l, _ | ⟨m, rest⟩⟩
    · rfl
    · rfl
    · exact htail
  unfold Parser.comparison? at hs
  rw [peek_bind, hn] at hs
  obtain ⟨t, s₀, h₀, hs₀⟩ := bind_eq_ok.mp hs
  obtain ⟨rfl, rfl⟩ : s.nth 1 = t ∧ s = s₀ := by simpa [peekNth] using h₀
  rw [if_neg (by simp [hin])] at hs₀
  obtain ⟨rfl, rfl⟩ := pure_eq_ok.mp hs₀
  exact ⟨rfl, rfl⟩

omit hinv hG in
theorem atComparison_stays {s s' : Input} {b : Bool} (hs : Parser.atComparison s = .ok (b, s')) :
    s' = s := by
  unfold Parser.atComparison at hs
  rw [peek_bind] at hs
  have stays : ∀ b', (Pure.pure b' : Parser Bool) s = .ok (b, s') → s' = s :=
    fun b' h => (pure_eq_ok.mp h).2.symm
  cases ht : nextOf s.rest with
  | symbol x =>
    rw [ht] at hs
    exact stays _ hs
  | keyword k written =>
    rw [ht] at hs
    cases k with
    | not =>
      obtain ⟨t, s₀, h₀, hs₀⟩ := bind_eq_ok.mp hs
      obtain ⟨rfl, rfl⟩ : s.nth 1 = t ∧ s = s₀ := by simpa [peekNth] using h₀
      exact stays _ hs₀
    | _ => exact stays _ hs
  | _ =>
    rw [ht] at hs
    exact stays _ hs

theorem compared {left : Expr} {c : Comparison} :
    Finds E I I (Parser.compared inner left c) (Phrase.comparedWith G left c) := by
  cases c with
  | binary op => exact bind (sum hinv hG) (fun _ => pure _) id fun _ => Idle.pure _
  | null op => exact pure _
  | between =>
    refine bind (sum hinv hG) (fun _ => andThen (expect hinv (by decide)) fun _ =>
      bind (sum hinv hG) (fun _ => pure _) id fun _ => Idle.pure _) id fun _ => ?_
    intro s e s' hhalt hs
    obtain ⟨_, s₁, h₁, -⟩ := bind_eq_ok.mp hs
    obtain ⟨l, rest, hr, hl, -⟩ := expect_eq_ok h₁
    have hmiss := (hG.halting.dangling hhalt).is_eq_false (x := .keyword .and) (by decide)
    rw [hr] at hmiss
    exact absurd (hl.symm.trans hmiss) (by simp)

theorem comparison : Finds E I I (Parser.comparison inner) (Phrase.comparison G) := by
  intro s e s' hI hs
  unfold Parser.comparison at hs
  obtain ⟨left, s₁, h₁, hs₁⟩ := bind_eq_ok.mp hs
  obtain ⟨o, s₂, h₂, hs₂⟩ := bind_eq_ok.mp hs₁
  rcases sum hinv hG _ _ _ hI h₁ with ⟨x, m₁, I₁, hx⟩ | hhalt
  rotate_left
  · obtain ⟨rfl, rfl⟩ := comparison?_dangling (hG.halting.dangling hhalt) h₂
    obtain ⟨rfl, rfl⟩ := pure_eq_ok.mp hs₂
    exact .inr hhalt
  obtain ⟨y, m₂, I₂, hy⟩ := exact (comparison? hinv) I₁ h₂
  cases o with
  | none =>
    obtain ⟨rfl, rfl⟩ := pure_eq_ok.mp hs₂
    obtain rfl : y = [] := hy
    have m := m₁.trans m₂
    rw [List.append_nil] at m
    exact .inl ⟨x, m, I₂, Phrase.oneOf_head hx⟩
  | some c =>
    obtain ⟨e', s₃, h₃, hs₃⟩ := bind_eq_ok.mp hs₂
    obtain ⟨b, s₄, h₄, hs₄⟩ := bind_eq_ok.mp hs₃
    obtain rfl := atComparison_stays h₄
    cases b with
    | true => exact absurd hs₄ fail_ne_ok
    | false =>
      obtain ⟨rfl, rfl⟩ := pure_eq_ok.mp hs₄
      refine (compared hinv hG _ _ _ I₂ h₃).imp_left fun ⟨z, m₃, I₃, hz⟩ => ?_
      refine ⟨_, m₁.trans (m₂.trans m₃), I₃, ?_⟩
      cases c with
      | binary op =>
        exact Phrase.oneOf_tail (Phrase.oneOf_head (Phrase.seq hx (Phrase.seq hy hz)))
      | null op =>
        obtain ⟨_, _, _, rfl, his, _, _, negated, rfl, hnot, _, _, _, rfl, hnull, rfl, rfl⟩ := hy
        obtain ⟨rfl, rfl⟩ := hz
        rw [List.append_nil, List.append_nil]
        exact Phrase.oneOf_tail (Phrase.oneOf_tail (Phrase.oneOf_head
          (Phrase.seq hx (Phrase.seq his (Phrase.seq hnot (Phrase.seq_pure hnull))))))
      | between =>
        exact Phrase.oneOf_tail (Phrase.oneOf_tail (Phrase.oneOf_tail (Phrase.oneOf_head
          (Phrase.seq hx (Phrase.seq (show Phrase.keyword .between y () from hy) hz)))))

/-! ## Truth values -/

theorem inversion : Finds E I I (Parser.inversion inner) (Phrase.inversion G) := by
  intro s e s' hI hs
  unfold Parser.inversion at hs
  obtain ⟨b, s₁, h₁, hs₁⟩ := bind_eq_ok.mp hs
  rcases acceptQuietly_eq_ok h₁ with ⟨rfl, l, rest, hr, hl, rfl⟩ | ⟨rfl, -, rfl⟩
  · obtain ⟨e', s₂, h₂, hs₂⟩ := bind_eq_ok.mp hs₁
    have hJ : I rest := hinv.tail (hr ▸ hI) (is_eq_false_of_is hl (by decide))
    obtain ⟨rfl, rfl⟩ := pure_eq_ok.mp hs₂
    refine (hG.inversion _ _ _ hJ h₂).imp_left fun ⟨x, m₂, I₂, hx⟩ => ?_
    exact ⟨_, (Input.Moved.single hr).trans m₂, I₂,
      Phrase.oneOf_head (Phrase.seq (Phrase.single hl) (Phrase.seq_pure hx))⟩
  · refine (comparison hinv hG _ _ _ hI hs₁).imp_left fun ⟨x, m, J, hx⟩ => ?_
    exact ⟨x, m, J, Phrase.oneOf_tail (Phrase.oneOf_head hx)⟩

omit hG in
theorem connected (hH : ∀ {rest}, H rest → Dangling rest) {op : BoolOp} {p : Parser Expr} {L : Phrase Expr}
    (hp : Finds H I I p L) : Finds H I I (Parser.connected op p) (Phrase.connected op L) := by
  have hidle : Idle H (Parser.afterQuietly (.keyword op.key) p) :=
    (Idle.afterQuietly (by cases op <;> decide)).mono hH
  refine bind hp (fun first => bind (many (afterQuietly (x := .keyword op.key) hinv ?_ hp)
    (Idle.repeatUpTo hidle)) (fun others => ?_) id fun others => ?_) id fun first =>
      Idle.bind (Idle.many hidle) fun others => ?_
  · cases op <;> decide
  all_goals cases others
  · exact pure _
  · exact pure _
  all_goals exact Idle.pure _

theorem disjunction : Finds E I I (Parser.disjunction inner) (Phrase.disjunction G) :=
  connected hinv hG.halting.dangling (connected hinv hG.halting.dangling (inversion hinv hG))

end

end

end Finds

end LedgerQuery
