import LedgerQuery.Proofs.Reading.Exact
import LedgerQuery.Proofs.Reading.Steps

/-!
# Keys that are integers

A key that begins with an integer is told by one token more: by itself the integer is the number of a target,
and before a token that would continue an expression it is the first operand of one.  This agrees with the
reader of expressions (`KeyAgrees`), which stops after an integer only where no such token is next, but for a
`NOT` that dangles.

Before such a `NOT` a key is an expression that is one integer.  No reader takes the `NOT`, so the text is
refused in the end.  So what is parsed is derived by a grammar in which no expression that is a key is one
integer (`keyedPhrases`).
-/

namespace LedgerQuery

open Token LedgerQuery.Parser

/-! ## One key -/

/-- How the key at an input that begins with an integer agrees with the expression there.  `next` is the
input after the integer. -/
structure KeyAgrees (inner : Nested) (s next : Input) (n : Int64) : Prop where
  /-- Where the key is the number of a target, the expression is the integer. -/
  expr_of_index : ∀ {k t}, columnKey inner s = .ok (.index k, t) →
    t = next ∧ ∃ tried, inner.expr s = .ok (.literal (.integer n), { next with tried })
  /-- Where the expression is one token and no `NOT` follows, the key is the number of a target. -/
  index_of_expr : ∀ {e t}, inner.expr s = .ok (e, t) → t.rest = next.rest →
    (nextOf next.rest).is (.keyword .not) = false →
      ∃ k, columnKey inner s = .ok (.index k, next) ∧ (k.toNat : Int) = n.toInt
  /-- Where the key is not the number of a target, it is the expression. -/
  eq_expr : (∀ k t, columnKey inner s ≠ .ok (.index k, t)) →
    columnKey inner s = (ColumnKey.expr <$> inner.expr) s

section
variable {s : Input} {l : Lexeme} {rest : List Lexeme} {digits : String} {n : Int64}

/-- In range as a literal and as the number of a target, an integer has one value. -/
theorem toNat_of_countOf {k : UInt64} (hn : integerOf digits = .ok n) (hk : countOf digits = .ok k) :
    (k.toNat : Int) = n.toInt := by
  obtain ⟨hlt, rfl⟩ := integerOf_eq_ok_iff.mp hn
  obtain ⟨hlt', rfl⟩ := countOf_eq_ok_iff.mp hk
  rw [UInt64.toNat_ofNat_of_lt' hlt', Int64.toInt_ofNat_of_lt hlt]

/-- An expression that ends with its first token, an integer, is followed by no token that would continue it,
but for a `NOT` that dangles. -/
theorem dangling_of_expr {limit levels : Nat} {e : Expr} {t : Input}
    (h : (nested limit levels).expr s = .ok (e, t)) (hs : s.rest = l :: t.rest) (hl : l.token = .integer digits)
    (hc : Halted t.rest) : Dangling t.rest := by
  have hnext : nextOf s.rest = .integer digits := by
    rw [hs]
    exact hl
  have hlength : s.rest.length = t.rest.length + 1 := by rw [hs, List.length_cons]
  exact ((nested_sees False limit limit (Nat.le_refl levels)).integer h hnext hlength).2 hc

theorem keyAgrees (limit levels : Nat) (hs : s.rest = l :: rest) (hl : l.token = .integer digits)
    (hn : integerOf digits = .ok n) :
    KeyAgrees (nested limit (levels + 1)) s ⟨rest, [], l.span⟩ n := by
  obtain ⟨k, hk⟩ := countOf_of_integerOf hn
  cases hc : (nextOf rest).continuesExpression with
  | true =>
    have hkey := columnKey_expression (nested limit (levels + 1)) hs hl hc
    refine ⟨fun h => ?_, fun h hr hnot => ?_, fun _ => hkey⟩
    · rw [hkey] at h
      obtain ⟨e, s₁, -, h₂⟩ := bind_eq_ok.mp h
      cases (pure_eq_ok.mp h₂).1
    · have hd := dangling_of_expr h (by rw [hs, hr]) hl (by rw [hr]; exact hc)
      rw [hr] at hd
      exact absurd (hd.1.symm.trans hnot) (by simp)
  | false =>
    have hkey := columnKey_index (nested limit (levels + 1)) hs hl hk hc
    refine ⟨fun h => ?_, fun _ _ _ => ⟨k, hkey, toNat_of_countOf hn hk⟩, fun h => absurd hkey (h k _)⟩
    obtain ⟨-, rfl⟩ := Prod.mk.inj (Except.ok.inj (hkey.symm.trans h))
    obtain ⟨_, tried, last⟩ := s
    obtain rfl := hs
    exact ⟨rfl, Reads.integer_alone (nested limit levels) hl hn rest tried last hc⟩

end

/-! ## All keys of a text -/

/-- The grammar with subselects anywhere, in which no expression that is a key is one integer. -/
def keyedPhrases : (levels : Nat) → Phrases
  | 0 => ⟨.none, .none, .none, .none, .none, .none, .none⟩
  | levels + 1 =>
    let G := keyedPhrases levels
    { expr := .disjunction G
      inversion := .inversion G
      factor := .factor G
      select := .select G
      bare := .select G
      grouped := .none
      key := (Phrase.disjunction G).such (¬ IsInteger ·) }

theorem keyedPhrases_bare_opens {levels : Nat} {u : List Lexeme} {q : Select}
    (h : (keyedPhrases levels).bare u q) : ∃ l v, u = l :: v ∧ l.token.is (.keyword .select) = true := by
  cases levels with
  | zero => exact absurd h id
  | succ levels => exact Phrase.select_opens h

/-- In that grammar a key is the number of a target exactly if it is one integer. -/
theorem columnKey_isIndex_iff {levels : Nat} {u : List Lexeme} {k : ColumnKey}
    (h : Phrase.columnKey (keyedPhrases levels) u k) : (∃ n, k = .index n) ↔ IsInteger u := by
  simp only [Phrase.columnKey, Phrase.oneOf_cons, Phrase.oneOf_nil, or_false] at h
  rcases h with ⟨v, _, n, rfl, hv, rfl, rfl⟩ | ⟨v, _, e, rfl, hv, rfl, rfl⟩
  · obtain ⟨⟨t, span⟩, digits, rfl, rfl, -⟩ := Phrase.count_iff.mp hv
    exact iff_of_true ⟨n, rfl⟩ ⟨digits, span, rfl⟩
  · have hint : ¬ IsInteger v := by
      cases levels with
      | zero => exact absurd hv id
      | succ levels => exact hv.2
    rw [List.append_nil]
    refine iff_of_false ?_ hint
    rintro ⟨n, hn⟩
    cases hn

/-- The readers find what the grammar allows, level by level, and halt only before a `NOT` that dangles. -/
theorem nested_sound_keyed {I : List Lexeme → Prop} (limit : Nat) (hinv : Invariant I) :
    ∀ levels, Sound Dangling Dangling I (nested limit levels) (keyedPhrases levels)
  | 0 =>
    { halting := ⟨id, id, Dangling.halted⟩
      expr := fun _ _ _ _ hs => absurd hs fail_ne_ok
      inversion := fun _ _ _ _ hs => absurd hs fail_ne_ok
      factor := fun _ _ _ _ hs => absurd hs fail_ne_ok
      select := fun _ _ _ _ hs => absurd hs fail_ne_ok
      bare := fun _ _ _ _ _ hs => absurd hs fail_ne_ok
      ne_nil := fun hu => absurd hu id
      key := fun _ _ hu => absurd hu id }
  | levels + 1 => by
    have hG := nested_sound_keyed limit hinv levels
    refine
      { halting := hG.halting
        expr := Finds.disjunction hinv hG
        inversion := Finds.inversion hinv hG
        factor := Finds.factor hinv hG
        select := Finds.select hinv hG
        bare := fun s q s' hI _ hs => Finds.select hinv hG s q s'
          (fun l rest hr hl => hinv.tail (hr ▸ hI) (is_eq_false_of_is hl (by decide))) hs
        ne_nil := fun hu => (Phrase.disjunction_opens (fun _ _ => keyedPhrases_bare_opens) hu).ne_nil
        key := fun {s s' u e} hs m hu hkey => ?_ }
    by_cases hint : IsInteger u
    · obtain ⟨digits, span, rfl⟩ := hint
      exact .inr (dangling_of_expr hs m.rest rfl (hkey ⟨digits, span, rfl⟩))
    · exact .inl ⟨hu, hint⟩

/-- What is parsed is derived by that grammar. -/
theorem keyed_of_parse {source : String} {limit : Nat} {t : Statement} (h : parse source limit = .ok t) :
    ∃ lexemes, scan source = .ok lexemes ∧ Phrase.statement (keyedPhrases limit) lexemes t := by
  cases hs : scan source with
  | error e => simp [parse, parseSpanned, hs, bind, Except.bind, Except.map] at h
  | ok lexemes =>
    obtain ⟨span, h⟩ := (parse_eq_ok_iff hs).mp h
    have hG := nested_sound_keyed limit invariant_true limit
    exact ⟨lexemes, rfl, statement_of_sound hG invariant_true hG (fun _ _ _ => trivial) (fun _ => trivial)
      (fun _ _ _ _ => trivial) (fun l hl => (scan_legal hs l hl).ne_eof) h⟩

/-- A key that is an integer and the expression there agree, and in what is parsed a key is the number of a
target exactly if it is one integer. -/
theorem integer_keys_agree :
    (∀ (limit levels : Nat) (s : Input) (l : Lexeme) (rest : List Lexeme) (digits : String) (n : Int64),
      s.rest = l :: rest → l.token = .integer digits → integerOf digits = .ok n →
        KeyAgrees (nested limit (levels + 1)) s ⟨rest, [], l.span⟩ n) ∧
    (∀ (source : String) (limit : Nat) (t : Statement), parse source limit = .ok t →
      ∃ lexemes, scan source = .ok lexemes ∧ Phrase.statement (keyedPhrases limit) lexemes t) ∧
    ∀ (levels : Nat) (u : List Lexeme) (k : ColumnKey), Phrase.columnKey (keyedPhrases levels) u k →
      ((∃ n, k = .index n) ↔ IsInteger u) :=
  ⟨fun limit levels _ _ _ _ _ hs hl hn => keyAgrees limit levels hs hl hn, fun _ _ _ h => keyed_of_parse h,
    fun _ _ _ h => columnKey_isIndex_iff h⟩

/-- A column by its number, and a sum. -/
theorem integer_keys_agree_sum :
    (∃ t lexemes, parse "SELECT a GROUP BY 1 ORDER BY 1 + 2" 8 = .ok t ∧
      scan "SELECT a GROUP BY 1 ORDER BY 1 + 2" = .ok lexemes ∧ Phrase.statement (keyedPhrases 8) lexemes t) ∧
    KeyAgrees (nested 8 1) ⟨[⟨.integer "1", ⟨0, 1⟩⟩, ⟨.symbol .plus, ⟨2, 3⟩⟩, ⟨.integer "2", ⟨4, 5⟩⟩], [], ⟨0, 0⟩⟩
      ⟨[⟨.symbol .plus, ⟨2, 3⟩⟩, ⟨.integer "2", ⟨4, 5⟩⟩], [], ⟨0, 1⟩⟩ 1 ∧
    ((∃ n, ColumnKey.index 1 = .index n) ↔ IsInteger [⟨.integer "1", ⟨0, 1⟩⟩]) := by
  obtain ⟨hkey, hparse, hindex⟩ := integer_keys_agree
  have hread : (parse "SELECT a GROUP BY 1 ORDER BY 1 + 2" 8).toOption.isSome = true := by cbv
  obtain ⟨t, ht⟩ := Option.isSome_iff_exists.mp hread
  have hok := Phrase.toOption_eq_some_iff.mp ht
  obtain ⟨lexemes, hs, hderived⟩ := hparse _ 8 t hok
  have hinteger : integerOf "1" = .ok 1 := integerOf_eq_ok_iff.mpr ⟨by decide, rfl⟩
  have hcount : countOf "1" = .ok 1 := countOf_eq_ok_iff.mpr ⟨by decide, rfl⟩
  refine ⟨⟨t, lexemes, hok, hs, hderived⟩, hkey 8 0 _ ⟨.integer "1", ⟨0, 1⟩⟩ _ "1" 1 rfl rfl hinteger, hindex 1 _ _ ?_⟩
  exact Phrase.oneOf_head (Phrase.seq_pure (Phrase.count_iff.mpr ⟨_, "1", rfl, rfl, hcount⟩))

end LedgerQuery
