import LedgerQuery.Proofs.Phrase.Opening
import LedgerQuery.Proofs.Reading.Forward

/-!
# Expressions of the grammar are read

A run that the grammar allows as an expression is read as that expression, if
the token after it ends the expression.  There is one lemma for each reader of
the grammar of expressions.  They suppose the same of the readers one nesting
level deeper, for shorter runs (`Ready`).

Looking ahead is where this could fail.

* A left parenthesis starts a list only before a literal and a comma.  No
  expression begins with a literal and a comma (`OpensWith`).
* A name starts a call only before a left parenthesis, and none follows a column.
* `NOT` is an operator only before `IN`, and no other `NOT` follows a sum.
-/

namespace LedgerQuery

open Token

/-- The readers one nesting level deeper read what the grammar allows, up to some length.
The grammar has no subselects but those in parentheses. -/
structure Ready (inner : Nested) (G : Phrases) (length : Nat) : Prop where
  /-- Expressions are read. -/
  expr : ∀ {u e}, u.length < length → G.expr u e → Reads inner.expr u (Stops 7) e
  /-- Operands of `NOT` are read. -/
  inversion : ∀ {u e}, u.length < length → G.inversion u e → Reads inner.inversion u (Stops 5) e
  /-- Operands of signs are read. -/
  factor : ∀ {u e}, u.length < length → G.factor u e → Reads inner.factor u (Stops 2) e
  /-- Queries are read. -/
  select : ∀ {u q}, u.length < length → G.select u q → Reads inner.select u (Stops 20) q
  /-- Subselects are read as expressions, at the cost of one more level. -/
  grouped : ∀ {u q}, u.length + 1 < length → G.grouped u q →
    Reads inner.expr u (Stops 20) (.subselect q)
  /-- An expression that is a key is no single integer. -/
  key : ∀ {u e}, G.key u e → G.expr u e ∧ ¬ IsInteger u
  /-- No query is an atom by itself. -/
  bare : ∀ u q, ¬ G.bare u q
  /-- An expression begins with a token that can begin one. -/
  opens : ∀ {u e}, G.expr u e → OpensWith opensExpr u
  /-- A query begins with its keyword. -/
  selectOpens : ∀ {u q}, G.select u q → ∃ l v, u = l :: v ∧ l.token.is (.keyword .select) = true
  /-- A subselect begins with its keyword. -/
  groupedOpens : ∀ {u q}, G.grouped u q → ∃ l v, u = l :: v ∧ l.token.is (.keyword .select) = true

namespace Token

/-- A name is no reserved keyword and no symbol. -/
theorem is_eq_false_of_name {t : Token} {x : Terminal} {n : String} (h : t.name? = some n)
    (hx : ∀ k, x = .keyword k → k.isReserved = true) : t.is x = false := by
  cases t with
  | keyword k written =>
    rw [← Bool.not_eq_true]
    intro hi
    have hk : Terminal.keyword k = x := by simpa [is, terminal?] using hi
    have hr := hx k hk.symm
    simp [name?, hr] at h
  | ident _ => simp [is, terminal?]
  | _ => simp [name?] at h

/-- What can begin an expression is no other terminal. -/
theorem is_eq_false_of_opensExpr {t : Token} {x : Terminal} (h : t.opensExpr = true)
    (hx : x ∉ [Terminal.symbol .leftParen, .symbol .minus, .symbol .plus, .keyword .not,
      .keyword .null, .keyword .true, .keyword .false, .keyword .select])
    (hc : ∀ k, x = .keyword k → k.isReserved = true) : t.is x = false := by
  rw [← Bool.not_eq_true]
  intro hi
  cases x with
  | symbol s =>
    obtain rfl := is_symbol_iff.mp hi
    cases s <;> simp_all [opensExpr, opensOperand, isName, name?, isLiteral, is, terminal?]
  | keyword k =>
    obtain ⟨written, rfl⟩ := is_keyword_iff.mp hi
    have hr := hc k rfl
    cases k <;> simp_all [opensExpr, opensOperand, isName, name?, isLiteral, is, terminal?]

end Token

namespace Reads

open LedgerQuery.Parser

variable {u v : List Lexeme} {F : Token → Prop} {l : Lexeme}

/-! ## Values -/

theorem literal?_hit {a : Literal} (h : l.token.literal? = some (.ok a)) :
    Reads Parser.literal? [l] F (some a) := by
  refine peek fun t _ => ?_
  rw [firstOf_cons, h]
  exact map (take_ok a)

theorem literal?_miss (h : ∀ t, F t → t.literal? = none) : Reads Parser.literal? [] F none := by
  refine peek fun t ht => ?_
  rw [firstOf_nil, h t ht]
  exact pure none

theorem name {n : String} (h : Phrase.name u n) : Reads Parser.name u F n := by
  obtain ⟨l, rfl, hl⟩ := h
  refine peek fun t _ => ?_
  rw [firstOf_cons, hl]
  exact take_ok n

theorem date {d : Date} (h : Phrase.date u d) : Reads Parser.date u F d := by
  obtain ⟨l, written, rfl, hl, hd⟩ := Phrase.date_iff.mp h
  refine peek fun t _ => ?_
  rw [firstOf_cons, hl]
  show Reads (take (dateOf written)) _ _ _
  rw [hd]
  exact take_ok d

theorem stringValue {value : String} (h : Phrase.stringValue u value) :
    Reads Parser.stringValue u F value := by
  obtain ⟨l, s, rfl, hl, rfl⟩ := Phrase.stringValue_iff.mp h
  refine peek fun t _ => ?_
  rw [firstOf_cons, hl]
  exact take_ok s.value

theorem count {n : UInt64} (h : Phrase.count u n) : Reads Parser.count u F n := by
  obtain ⟨l, digits, rfl, hl, hn⟩ := Phrase.count_iff.mp h
  refine peek fun t _ => ?_
  rw [firstOf_cons, hl]
  show Reads (take (countOf digits)) _ _ _
  rw [hn]
  exact take_ok n

/-! ## Atoms -/

theorem listItem {a : Option Literal} (hF : ∀ t, F t → t.literal? = none)
    (h : Phrase.optional Phrase.literal u a) : Reads Parser.listItem u F a := by
  cases a with
  | none =>
    obtain rfl : u = [] := h
    exact (literal?_miss hF).bind ((record _).bind_pure) fun _ ht => ht
  | some a =>
    obtain ⟨l, rfl, hl⟩ := Phrase.literal_iff.mp h
    exact (literal?_hit (F := fun _ => True) hl).bind (pure (some a)) fun _ _ => trivial

theorem literalList {e : Expr} (h : Phrase.literalList u e) : Reads Parser.literalList u F e := by
  obtain ⟨_, w, _, rfl, ⟨l, rfl, hl⟩, h⟩ := h
  obtain ⟨_, w, first, rfl, hfirst, h⟩ := h
  obtain ⟨x, w, _, rfl, hx, h⟩ := h
  obtain ⟨y, w, second, rfl, hy, h⟩ := h
  obtain ⟨z, w, others, rfl, hz, h⟩ := h
  obtain ⟨_, w, _, rfl, ⟨r, rfl, hr⟩, rfl, rfl⟩ := h
  obtain ⟨m, rfl, hm⟩ := Phrase.literal_iff.mp hfirst
  have hitems : Phrase.Many (do Phrase.symbol .comma; Phrase.optional Phrase.literal)
      ((x ++ y) ++ z) (second :: others) := .cons ⟨x, y, (), rfl, hx, hy⟩ hz
  have hmany : Reads (Parser.many (after (.symbol .comma) Parser.listItem)) ((x ++ y) ++ z)
      (fun t => t.is (.symbol .rightParen) = true) (second :: others) := by
    refine many_after (E := fun t => t.literal? = none) (fun t ht => ?_) (fun v a _ ha => ?_)
      (fun t ht => ?_) (fun t ht => ?_) hitems
    · rw [is_symbol_iff.mp ht]
      rfl
    · exact listItem (fun t ht => ht) ha
    · rw [is_symbol_iff.mp ht]
      rfl
    · rw [is_symbol_iff.mp ht]
      rfl
  refine bind (E := fun _ => True) (expect hl) ?_ fun _ _ => trivial
  refine bind (E := fun _ => True) (literal?_hit hm) ?_ fun _ _ => trivial
  rw [show x ++ (y ++ (z ++ ([r] ++ []))) = (x ++ y ++ z) ++ [r] by simp]
  exact bind hmany (bind_pure (expect hr)) fun _ _ => hr

section
variable {inner : Nested} {G : Phrases} {n : Nat} (hG : Ready inner G n)
include hG

theorem arguments {as : List Expr} (hn : u.length ≤ n) (h : Phrase.arguments G u as) :
    Reads (Parser.arguments inner) u F as := by
  simp only [Phrase.arguments, Phrase.oneOf_cons, Phrase.oneOf_nil, or_false] at h
  rcases h with ⟨_, w, _, rfl, ⟨l, rfl, hl⟩, _, w, _, rfl, ⟨m, rfl, hm⟩, _, w, _, rfl,
      ⟨r, rfl, hr⟩, rfl, rfl⟩ |
    ⟨_, w, _, rfl, ⟨l, rfl, hl⟩, _, w, _, rfl, ⟨r, rfl, hr⟩, rfl, rfl⟩ |
    ⟨_, w, _, rfl, ⟨l, rfl, hl⟩, v, w, args, rfl, hv, _, w, _, rfl, ⟨r, rfl, hr⟩, rfl, rfl⟩
  · exact andThen (expect hl) (andThen (accept_hit hm) (bind_pure (expect hr)))
  · refine andThen (expect hl) (skip (accept_miss (F := (· = r.token)) ?_) ?_ fun _ _ => rfl)
    · rintro t rfl
      rw [is_symbol_iff.mp hr]
      rfl
    · exact andThen (accept_hit hr) (pure [])
  · have hopen : ∀ t, (firstOf t v).opensExpr = true := fun t => by
      refine Phrase.commaList_head (P := fun v => (firstOf t v).opensExpr = true) hv fun v w e he => ?_
      obtain ⟨l, v', rfl, ho, -⟩ := hG.opens he
      exact ho
    have hmiss : ∀ s, s ∉ [Symbol.leftParen, .minus, .plus] → ∀ t : Token, t.opensExpr = true →
        t.is (.symbol s) = false := fun s hs t ht =>
      is_eq_false_of_opensExpr ht (by simpa using hs) (by simp)
    refine andThen (expect hl) ?_
    refine skip (accept_miss (hmiss .star (by decide))) ?_ fun t _ => by simpa using hopen _
    refine skip (accept_miss (hmiss .rightParen (by decide))) ?_ fun t _ => by simpa using hopen _
    refine bind (E := Stops 9) ?_ (bind_pure (expect hr)) fun _ _ => stops_of_is hr (by decide)
    refine commaList (E := Stops 7) (fun t ht => ht.not_is (by decide)) (fun v e hv he => ?_)
      (fun t ht => stops_of_is ht (by decide)) (fun t ht => ht.mono (by decide)) hv
    exact hG.expr (by simp at hn; omega) he

omit hG in
/-- A name that no left parenthesis follows is a column. -/
theorem nameOrCall_column {name : String} (hl : l.token.name? = some name) :
    Reads (Parser.nameOrCall inner) [l] (Stops 1) (.column name) := by
  refine peekNth (n := 1) (by simp) fun t ht => ?_
  have hp : t.is (.symbol .leftParen) = false := ht.not_is (by decide)
  refine andThen (w := []) (Reads.name ⟨l, rfl, hl⟩) ?_
  show Reads (if t.is (.symbol .leftParen) = true then _ else _) _ _ _
  rw [hp]
  exact pure _

theorem nameOrCall_function {name : String} {as : List Expr} (hn : u.length ≤ n)
    (hl : l.token.name? = some name) (h : Phrase.arguments G u as) :
    Reads (Parser.nameOrCall inner) (l :: u) F (.function name as) := by
  have hp : ∀ t, (firstOf t u).is (.symbol .leftParen) = true := fun t => by
    simp only [Phrase.arguments, Phrase.oneOf_cons, Phrase.oneOf_nil, or_false] at h
    rcases h with ⟨_, w, _, rfl, ⟨l, rfl, hl⟩, -⟩ | ⟨_, w, _, rfl, ⟨l, rfl, hl⟩, -⟩ |
      ⟨_, w, _, rfl, ⟨l, rfl, hl⟩, -⟩ <;> exact hl
  refine peekNth (n := 1) (by simp) fun t ht => ?_
  refine andThen (v := [l]) (Reads.name ⟨l, rfl, hl⟩) ?_
  show Reads (if (firstOf t u).is (.symbol .leftParen) = true then _ else _) _ _ _
  rw [if_pos (hp t)]
  exact bind_pure (arguments hG hn h)

theorem atom {e : Expr} (hn : u.length ≤ n) (h : Phrase.atom G u e) :
    Reads (Parser.atom inner) u (Stops 1) e := by
  have atName : ∀ {l : Lexeme} {v : List Lexeme} {name : String} {e : Expr},
      l.token.name? = some name → Reads (Parser.nameOrCall inner) (l :: v) (Stops 1) e →
      Reads (Parser.atom inner) (l :: v) (Stops 1) e := by
    intro l v name e hl hr
    refine peek fun t ht => ?_
    have hs : l.token.is (.keyword .select) = false :=
      is_eq_false_of_name hl (by rintro _ ⟨⟩; rfl)
    rw [firstOf_cons, hs, isName, hl]
    exact hr.mono fun t' ht' => ht' ▸ ht
  simp only [Phrase.atom, Phrase.oneOf_cons, Phrase.oneOf_nil, or_false] at h
  rcases h with ⟨_, w, name, rfl, ⟨l, rfl, hl⟩, v, w, as, rfl, hv, rfl, rfl⟩ |
    ⟨_, w, name, rfl, ⟨l, rfl, hl⟩, rfl, rfl⟩ | ⟨_, w, p, rfl, hp, rfl, rfl⟩ |
    ⟨_, w, a, rfl, ha, rfl, rfl⟩ | h | ⟨v, w, q, rfl, hq, -⟩
  · rw [List.append_nil] at hn ⊢
    exact atName hl (nameOrCall_function hG (Nat.le_of_succ_le hn) hl hv)
  · exact atName hl (nameOrCall_column hl)
  · obtain ⟨⟨_, span⟩, rfl, rfl⟩ := Phrase.placeholder_iff.mp hp
    exact peek fun t ht => take_ok _
  · obtain ⟨⟨t, span⟩, rfl, hl⟩ := Phrase.literal_iff.mp ha
    refine peek fun t' _ => ?_
    cases t with
    | keyword k written =>
      cases k with
      | null | true | false => exact andThen (w := []) (literal?_hit hl) (pure _)
      | _ => simp [Token.literal?] at hl
    | integer _ | decimal _ | date _ | string _ =>
      exact andThen (w := []) (literal?_hit hl) (pure _)
    | _ => simp [Token.literal?] at hl
  · have hr := literalList (F := Stops 1) h
    obtain ⟨_, w, _, rfl, ⟨⟨_, span⟩, rfl, hl⟩, -⟩ := h
    obtain rfl := is_symbol_iff.mp hl
    exact peek fun t ht => hr.mono fun t' ht' => ht' ▸ ht
  · exact absurd hq (hG.bare v q)

/-! ## Suffixes -/

omit hG in
theorem suffix? {a : Suffix} (h : Phrase.suffix u a) : Reads Parser.suffix? u F (some a) := by
  simp only [Phrase.suffix, Phrase.oneOf_cons, Phrase.oneOf_nil, or_false] at h
  rcases h with ⟨_, w, _, rfl, ⟨l, rfl, hl⟩, v, w, name, rfl, hv, rfl, rfl⟩ |
    ⟨_, w, _, rfl, ⟨l, rfl, hl⟩, v, w, key, rfl, hv, _, w, _, rfl, ⟨r, rfl, hr⟩, rfl, rfl⟩
  · rw [List.append_nil]
    exact andThen (acceptQuietly_hit hl) (bind_pure (Reads.name hv))
  · have hd : ∀ t, t = l.token → t.is (.symbol .dot) = false := by
      rintro t rfl
      rw [is_symbol_iff.mp hl]
      rfl
    refine skip (acceptQuietly_miss hd) ?_ fun _ _ => rfl
    refine andThen (acceptQuietly_hit hl) ?_
    exact andThen (stringValue hv) (bind_pure (expect hr))

omit hG in
theorem suffix?_none : Reads Parser.suffix? [] (Stops 2) none := by
  refine skip (acceptQuietly_miss fun t ht => ht.not_is (by decide)) ?_ fun _ ht => ht
  exact skip (acceptQuietly_miss fun t ht => ht.not_is (by decide)) (pure none) fun _ ht => ht

theorem primary {e : Expr} (hn : u.length ≤ n) (h : Phrase.primary G u e) :
    Reads (Parser.primary inner) u (Stops 2) e := by
  obtain ⟨v, w, e, rfl, hv, w', _, ss, rfl, hw, rfl, rfl⟩ := h
  rw [List.append_nil] at hn ⊢
  have starts : ∀ v a, Phrase.suffix v a → ∃ l w, v = l :: w ∧ Stops 1 l.token := by
    intro v a ha
    simp only [Phrase.suffix, Phrase.oneOf_cons, Phrase.oneOf_nil, or_false] at ha
    rcases ha with ⟨_, w, _, rfl, ⟨l, rfl, hl⟩, -⟩ | ⟨_, w, _, rfl, ⟨l, rfl, hl⟩, -⟩ <;>
      exact ⟨l, w, rfl, stops_of_is hl (by decide)⟩
  have hmany : Reads (Parser.many Parser.suffix?) w' (Stops 2) ss :=
    many suffix?_none (fun _ _ _ ha => suffix? ha) starts (fun t ht => ht.mono (by decide)) hw
  refine bind (atom hG (by simp at hn; omega) hv) (bind_pure hmany) fun t ht => ?_
  exact firstOf_many hw starts (ht.mono (by decide))

/-! ## Arithmetic -/

omit hG in
/-- Looking for a list of literals sees the next three tokens. -/
theorem atList {f : Bool → Parser Expr} {e : Expr} {b : Bool} (hu : 2 ≤ u.length)
    (hb : ∀ t, F t → ((firstOf t u).is (.symbol .leftParen) &&
      (firstOf t (u.drop 1)).isLiteral && (firstOf t (u.drop 2)).is (.symbol .comma)) = b)
    (h : Reads (f b) u F e) : Reads (Parser.atList >>= f) u F e := by
  refine look h fun rest tried last hr => ?_
  have h₀ := Input.nth_append u rest tried last (n := 0) (by omega)
  have h₁ := Input.nth_append u rest tried last (n := 1) (by omega)
  have h₂ := Input.nth_append u rest tried last (n := 2) (by omega)
  show Except.ok ((Input.nth _ 0).is _ && (Input.nth _ 1).isLiteral && (Input.nth _ 2).is _, _) = _
  rw [h₀, h₁, h₂, ← hb _ hr]
  rfl

omit hG in
/-- An expression in parentheses is no list, since an expression that begins with a literal does
not go on with a comma. -/
theorem factor_group {l r : Lexeme} {e : Expr} {C : Token → Bool}
    (hl : l.token.is (.symbol .leftParen) = true) (hr : r.token.is (.symbol .rightParen) = true)
    (hv : OpensWith C v) (h : Reads inner.expr v (· = r.token) e) :
    Reads (Parser.factor inner) (l :: (v ++ [r])) F e := by
  obtain ⟨lt, span⟩ := l
  obtain rfl := is_symbol_iff.mp hl
  obtain ⟨m, v, rfl, -, hm⟩ := hv
  have third : ∀ t, m.token.isLiteral = true → (firstOf t (v ++ [r])).is (.symbol .comma) = false := by
    intro t hlit
    cases v with
    | nil =>
      show r.token.is _ = false
      rw [is_symbol_iff.mp hr]
      rfl
    | cons k v =>
      have hk := hm hlit k rfl
      rw [← Bool.not_eq_true]
      intro hi
      rw [is_symbol_iff.mp (show k.token.is _ = true from hi)] at hk
      exact absurd hk (by decide)
  refine peek fun _ _ => atList (b := false) (by simp) (fun t _ => ?_) ?_
  · show (_ && m.token.isLiteral && (firstOf t (v ++ [r])).is (.symbol .comma)) = false
    cases hlit : m.token.isLiteral with
    | false => rfl
    | true => rw [third t hlit, Bool.and_false]
  · refine andThen (v := [_]) advance ?_
    exact bind h (bind_pure (expect hr)) fun _ _ => rfl

theorem factor_primary {e : Expr} (hn : u.length ≤ n) (h : Phrase.primary G u e) :
    Reads (Parser.factor inner) u (Stops 2) e := by
  have hr := primary hG hn h
  rcases Phrase.primary_begins hG.bare h with ⟨⟨_, span⟩, m, c, w, rfl, rfl, hm, hc⟩ |
    ⟨⟨t, span⟩, w, rfl, ht⟩
  · refine peek fun t ht => atList (b := true) (by simp) (fun t _ => ?_) ?_
    · show (true && m.token.isLiteral && c.token.is (.symbol .comma)) = true
      rw [hm, hc]
      rfl
    · exact hr.mono fun t' ht' => ht' ▸ ht
  · refine peek fun t' ht' => ?_
    have hr' : Reads (Parser.primary inner) (⟨t, span⟩ :: w) (· = t') e :=
      hr.mono fun t'' h'' => h'' ▸ ht'
    cases t with
    | symbol s => exact absurd rfl (ht s)
    | _ => exact hr'

theorem factor {e : Expr} (hn : u.length ≤ n) (h : Phrase.factor G u e) :
    Reads (Parser.factor inner) u (Stops 2) e := by
  simp only [Phrase.factor, Phrase.oneOf_cons, Phrase.oneOf_nil, or_false] at h
  rcases h with ⟨_, w, _, rfl, ⟨l, rfl, hl⟩, v, w, e, rfl, hv, _, w, _, rfl, ⟨r, rfl, hr⟩, rfl, rfl⟩ |
    ⟨_, w, _, rfl, ⟨l, rfl, hl⟩, v, w, q, rfl, hv, _, w, _, rfl, ⟨r, rfl, hr⟩, rfl, rfl⟩ |
    ⟨_, w, _, rfl, ⟨⟨_, span⟩, rfl, hl⟩, v, w, e, rfl, hv, rfl, rfl⟩ |
    ⟨_, w, _, rfl, ⟨⟨_, span⟩, rfl, hl⟩, hv⟩ | h
  · refine factor_group hl hr (hG.opens hv) ((hG.expr ?_ hv).mono ?_)
    · simp at hn
      omega
    · rintro _ rfl
      exact stops_of_is hr (by decide)
  · obtain ⟨m, v', hv', hm⟩ := hG.groupedOpens hv
    have hopen : OpensWith Token.opensOperand v := by
      obtain ⟨written, hm⟩ := is_keyword_iff.mp hm
      rw [hv']
      exact .of_not_literal (by rw [hm]; rfl) (by rw [hm]; rfl)
    refine factor_group hl hr hopen ((hG.grouped ?_ hv).mono ?_)
    · simp at hn
      omega
    · rintro _ rfl
      exact stops_of_is hr (by decide)
  · obtain rfl := is_symbol_iff.mp hl
    rw [List.append_nil] at hn ⊢
    refine peek fun t ht => andThen (v := [_]) advance (bind_pure ?_)
    exact (hG.factor hn hv).mono fun t' ht' => ht' ▸ ht
  · obtain rfl := is_symbol_iff.mp hl
    refine peek fun t ht => andThen (v := [_]) advance ?_
    exact (hG.factor hn hv).mono fun t' ht' => ht' ▸ ht
  · exact factor_primary hG hn h

omit hG in
/-- Operators of a family are between the rank of their operands and that of the tokens that
end a whole group. -/
theorem leftGrouped {family : Symbol → Option BinaryOp} {p : Parser Expr} {L : Phrase Expr}
    {r : Nat} {e : Expr}
    (operand : ∀ v e, v.length ≤ u.length → L v e → Reads p v (Stops r) e)
    (above : ∀ s op, family s = some op → r < s.rank)
    (below : ∀ s, r + 1 < s.rank → family s = none)
    (h : Phrase.leftGrouped family L u e) :
    Reads (Parser.leftGrouped family p) u (Stops (r + 1)) e := by
  obtain ⟨v, w, e, rfl, hv, w', _, others, rfl, hw, rfl, rfl⟩ := h
  rw [List.append_nil] at operand ⊢
  have starts : ∀ v a, (do
      let op ← Phrase.operator family
      let right ← L
      return (op, right) : Phrase (BinaryOp × Expr)) v a →
      ∃ l w, v = l :: w ∧ Stops r l.token := by
    rintro _ _ ⟨_, w, op, rfl, hop, -⟩
    obtain ⟨l, s, rfl, hl, hs⟩ := Phrase.operator_iff.mp hop
    refine ⟨l, w, rfl, ?_⟩
    rw [hl]
    exact above s op hs
  refine bind (operand v e (by simp) hv) (bind_pure (many ?_ (fun x a hx ha => ?_) starts ?_ hw))
    fun t ht => firstOf_many hw starts (ht.mono (by omega))
  · refine peek fun t ht => ?_
    cases t with
    | symbol s =>
      dsimp only [firstOf]
      rw [below s ht]
      exact pure none
    | _ => exact pure none
  · obtain ⟨_, _, op, rfl, hop, y, _, right, rfl, hy, rfl, rfl⟩ := ha
    obtain ⟨⟨_, span⟩, s, rfl, rfl, hs⟩ := Phrase.operator_iff.mp hop
    rw [List.append_nil] at *
    refine peek fun t ht => ?_
    rw [firstOf_append]
    dsimp only [firstOf]
    rw [hs]
    refine andThen (v := [_]) advance (bind_pure ?_)
    refine (operand y right ?_ hy).mono fun t' ht' => ht' ▸ ht
    simp at hx ⊢
    omega
  · exact fun t ht => ht.mono (by omega)

theorem term {e : Expr} (hn : u.length ≤ n) (h : Phrase.term G u e) :
    Reads (Parser.term inner) u (Stops 3) e := by
  refine leftGrouped (r := 2) (fun v e hv he => factor hG (by omega) he) ?_ ?_ h
  · intro s op hs
    cases s <;> simp_all [BinaryOp.ofMultiplicative?, Symbol.rank]
  · intro s hs
    cases s <;> simp_all [BinaryOp.ofMultiplicative?, Symbol.rank]

theorem sum {e : Expr} (hn : u.length ≤ n) (h : Phrase.sum G u e) :
    Reads (Parser.sum inner) u (Stops 4) e := by
  refine leftGrouped (r := 3) (fun v e hv he => term hG (by omega) he) ?_ ?_ h
  · intro s op hs
    cases s <;> simp_all [BinaryOp.ofAdditive?, Symbol.rank]
  · intro s hs
    cases s <;> simp_all [BinaryOp.ofAdditive?, Symbol.rank]

/-! ## Comparisons -/

omit hG in
/-- No comparison begins at a token that ends one. -/
theorem comparison?_none : Reads Parser.comparison? [] (Stops 5) none := by
  refine peek fun t ht => ?_
  cases t with
  | symbol s =>
    have hs : BinaryOp.ofComparison? s = none := by
      cases s <;> first | rfl | exact absurd ht (by decide)
    dsimp only [firstOf]
    rw [hs]
    exact pure none
  | keyword k written =>
    cases k with
    | «in» | not | is | between => exact absurd ht (Nat.lt_irrefl 5)
    | _ => exact pure none
  | _ => exact pure none

omit hG in
theorem atComparison_false : Reads Parser.atComparison [] (Stops 5) false := by
  refine peek fun t ht => ?_
  cases t with
  | symbol s =>
    have hs : BinaryOp.ofComparison? s = none := by
      cases s <;> first | rfl | exact absurd ht (by decide)
    show Reads (Pure.pure (BinaryOp.ofComparison? s).isSome) _ _ _
    rw [hs]
    exact pure false
  | keyword k written =>
    cases k with
    | «in» | not | is | between => exact absurd ht (Nat.lt_irrefl 5)
    | _ => exact pure false
  | _ => exact pure false

omit hG in
theorem comparison?_binary {op : BinaryOp} (h : Phrase.comparisonOperator u op) :
    Reads Parser.comparison? u F (some (.binary op)) := by
  simp only [Phrase.comparisonOperator, Phrase.oneOf_cons, Phrase.oneOf_nil, or_false] at h
  rcases h with h | ⟨_, w, _, rfl, ⟨⟨_, span⟩, rfl, hl⟩, rfl, rfl⟩ |
    ⟨_, w, _, rfl, ⟨⟨_, span⟩, rfl, hl⟩, _, w, _, rfl, ⟨m, rfl, hm⟩, rfl, rfl⟩
  · obtain ⟨⟨_, span⟩, s, rfl, rfl, hs⟩ := Phrase.operator_iff.mp h
    refine peek fun t _ => ?_
    dsimp only [firstOf]
    rw [hs]
    exact andThen (v := [_]) advance (pure _)
  · obtain ⟨written, rfl⟩ := is_keyword_iff.mp hl
    exact peek fun t _ => andThen (v := [_]) advance (pure _)
  · obtain ⟨written, rfl⟩ := is_keyword_iff.mp hl
    refine peek fun t _ => peekNth (n := 1) (by simp) fun t _ => ?_
    show Reads (if m.token.is (.keyword .in) = true then _ else _) _ _ _
    rw [if_pos hm]
    exact andThen (v := [_]) advance (andThen (v := [_]) advance (pure _))

omit hG in
theorem nullTest {negated : Bool} {m : Lexeme} (hm : m.token.is (.keyword .null) = true)
    (h : Phrase.flag (.keyword .not) u negated) :
    Reads Parser.nullTest (u ++ [m]) F (.null (if negated then .isNotNull else .isNull)) := by
  cases negated with
  | true =>
    obtain ⟨l, rfl, hl⟩ := h
    exact andThen (accept_hit hl) (bind_pure (expect hm))
  | false =>
    obtain rfl : u = [] := h
    refine skip (accept_miss (F := (· = m.token)) ?_) (bind_pure (expect hm)) fun _ _ => rfl
    rintro t rfl
    obtain ⟨written, hm⟩ := is_keyword_iff.mp hm
    rw [hm]
    rfl

omit hG in
theorem comparisonOperator_stops {op : BinaryOp} (h : Phrase.comparisonOperator u op) (t : Token) :
    Stops 4 (firstOf t u) := by
  simp only [Phrase.comparisonOperator, Phrase.oneOf_cons, Phrase.oneOf_nil, or_false] at h
  rcases h with h | ⟨_, w, _, rfl, ⟨l, rfl, hl⟩, -⟩ | ⟨_, w, _, rfl, ⟨l, rfl, hl⟩, -⟩
  · obtain ⟨⟨_, span⟩, s, rfl, rfl, hs⟩ := Phrase.operator_iff.mp h
    cases s <;> first | exact (by decide : 4 < 5) | cases hs
  · exact stops_of_is (t := l.token) hl (by decide)
  · exact stops_of_is (t := l.token) hl (by decide)

/-- A comparison is its left operand, its operator and the rest, and no comparison after it. -/
theorem comparison_of {left e : Expr} {c : Comparison} {w : List Lexeme} (hn : u.length ≤ n)
    (hu : Phrase.sum G u left) (hv : Reads Parser.comparison? v (fun _ => True) (some c))
    (hw : Reads (Parser.compared inner left c) w (Stops 5) e)
    (hs : ∀ t, Stops 4 (firstOf t v)) :
    Reads (Parser.comparison inner) (u ++ (v ++ w)) (Stops 5) e := by
  refine bind (sum hG hn hu) (andThen hv ?_) fun t _ => by simpa using hs _
  exact andLast hw (skip atComparison_false (pure e) fun _ ht => ht)

theorem comparison {e : Expr} (hn : u.length ≤ n) (h : Phrase.comparison G u e) :
    Reads (Parser.comparison inner) u (Stops 5) e := by
  simp only [Phrase.comparison, Phrase.oneOf_cons, Phrase.oneOf_nil, or_false] at h
  rcases h with h | ⟨v, w, left, rfl, hv, x, y, op, rfl, hx, z, w, right, rfl, hz, rfl, rfl⟩ |
    ⟨v, w, left, rfl, hv, x, y, _, rfl, ⟨⟨_, span⟩, rfl, hl⟩, z, w, negated, rfl, hz, _, w, _, rfl,
      ⟨m, rfl, hm⟩, rfl, rfl⟩ |
    ⟨v, w, left, rfl, hv, x, y, _, rfl, ⟨⟨_, span⟩, rfl, hl⟩, z, w, lower, rfl, hz, _, w, _, rfl,
      ⟨m, rfl, hm⟩, x, w, upper, rfl, hx, rfl, rfl⟩
  · refine andLast ((sum hG hn h).mono fun t ht => ht.mono (by decide)) ?_
    exact skip comparison?_none (pure e) fun _ ht => ht
  all_goals rw [List.append_nil] at *
  · refine comparison_of hG (by simp at hn; omega) hv (comparison?_binary hx) ?_ fun t => ?_
    · exact bind_pure ((sum hG (by simp at hn; omega) hz).mono fun t ht => ht.mono (by decide))
    · exact comparisonOperator_stops hx t
  · obtain ⟨written, rfl⟩ := is_keyword_iff.mp hl
    have hw := comparison_of hG (w := []) (v := ⟨.keyword .is written, span⟩ :: (z ++ [m]))
      (by simp at hn; omega) hv (peek fun t _ => andThen (v := [_]) advance
        (bind_pure (nullTest hm hz))) (pure _) fun t => (by decide : 4 < 5)
    rwa [List.append_nil] at hw
  · obtain ⟨written, rfl⟩ := is_keyword_iff.mp hl
    refine comparison_of hG (v := [_]) (c := .between) (by simp at hn; omega) hv
      (peek fun t _ => andLast advance (pure _)) ?_ fun t => (by decide : 4 < 5)
    refine bind (sum hG (by simp at hn; omega) hz) (andThen (expect hm) ?_) fun t _ =>
      stops_of_is hm (by decide)
    exact bind_pure ((sum hG (by simp at hn; omega) hx).mono fun t ht => ht.mono (by decide))

/-! ## Truth values -/

theorem inversion {e : Expr} (hn : u.length ≤ n) (h : Phrase.inversion G u e) :
    Reads (Parser.inversion inner) u (Stops 5) e := by
  simp only [Phrase.inversion, Phrase.oneOf_cons, Phrase.oneOf_nil, or_false] at h
  rcases h with ⟨_, w, _, rfl, ⟨l, rfl, hl⟩, v, w, e, rfl, hv, rfl, rfl⟩ | h
  · rw [List.append_nil] at hn ⊢
    exact andThen (acceptQuietly_hit hl) (bind_pure (hG.inversion hn hv))
  · obtain ⟨l, w, rfl, hl, -⟩ := Phrase.comparison_opens (fun v q hq => absurd hq (hG.bare v q)) h
    refine skip (acceptQuietly_miss (F := (· = l.token)) ?_) (comparison hG hn h) fun _ _ => rfl
    rintro t rfl
    rw [← Bool.not_eq_true]
    intro hi
    obtain ⟨written, ht⟩ := is_keyword_iff.mp hi
    rw [ht] at hl
    exact absurd (show false = true from hl) Bool.false_ne_true

omit hG in
/-- Operands are joined by the connective of the rank above theirs. -/
theorem connected {op : BoolOp} {p : Parser Expr} {L : Phrase Expr} {r : Nat} {e : Expr}
    (operand : ∀ v e, v.length ≤ u.length → L v e → Reads p v (Stops r) e)
    (hrank : op.key.rank = r + 1) (h : Phrase.connected op L u e) :
    Reads (Parser.connected op p) u (Stops (r + 1)) e := by
  obtain ⟨v, w, first, rfl, hv, w', _, others, rfl, hw, rfl, rfl⟩ := h
  rw [List.append_nil] at operand ⊢
  have starts : ∀ v a, (do Phrase.keyword op.key; L : Phrase Expr) v a →
      ∃ l w, v = l :: w ∧ Stops r l.token := by
    rintro _ _ ⟨_, w, _, rfl, ⟨l, rfl, hl⟩, -⟩
    exact ⟨l, w, rfl, stops_of_is hl (by simp [Terminal.rank, hrank])⟩
  have hmany : Reads (Parser.many (afterQuietly (.keyword op.key) p)) w' (Stops (r + 1)) others := by
    refine many (afterQuietly_miss fun t ht => ?_) (fun x a hx ha => ?_) starts
      (fun t ht => ht.mono (by omega)) hw
    · exact ht.not_is (by simp [Terminal.rank, hrank])
    · obtain ⟨_, y, _, rfl, ⟨l, rfl, hl⟩, hy⟩ := ha
      refine afterQuietly_hit hl (operand y a ?_ hy)
      simp at hx ⊢
      omega
  refine bind (operand v first (by simp) hv) (andLast hmany ?_) fun t ht =>
    firstOf_many hw starts (ht.mono (by omega))
  cases others with
  | nil => exact pure first
  | cons second others => exact pure _

theorem conjunction {e : Expr} (hn : u.length ≤ n) (h : Phrase.conjunction G u e) :
    Reads (Parser.conjunction inner) u (Stops 6) e :=
  connected (r := 5) (fun _ _ hv he => inversion hG (by omega) he) rfl h

theorem disjunction {e : Expr} (hn : u.length ≤ n) (h : Phrase.disjunction G u e) :
    Reads (Parser.disjunction inner) u (Stops 7) e :=
  connected (r := 6) (fun _ _ hv he => conjunction hG (by omega) he) rfl h

end

end Reads

end LedgerQuery
