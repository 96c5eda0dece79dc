import LedgerQuery.Proofs.Reading.Completion

/-!
# What an error lists as expected

For every item that an error lists, there is a text with the same tokens before the error and then a token of the kind of
the item, and this text can be completed.  For the end of the input the tokens before the error are a statement.
There are two exceptions (`Refusal`).  An unparenthesized subselect may have ended before the error, and readers
around it tried the item.  The subselect refuses the item though, because it looks at the token after a pivot or after an
integer.

So `exists_query_of_expected` says that the text can be completed or is refused in one of these ways, and
`not_exists_query_of_expected` that the exceptions occur.
-/

namespace LedgerQuery

open Token LedgerQuery.Parser

variable {source : String} {limit limit' p : Nat} {tokens lexemes u v : List Lexeme} {l : Lexeme} {x : Expected}

/-- A sample of an item is of its kind. -/
theorem Expected.matches_sample (x : Expected) : x.matches x.sample = true := by
  cases x with
  | terminal x => exact ofTerminal_is x
  | _ => rfl

/-- Whether an error refuses a token after some others, because of what these are. -/
inductive Refusal (before : List Lexeme) (l : Lexeme) (e : ParseError) : Prop
  /-- A comma after the keys of a pivot.  The error is at the comma. -/
  | pivot (hl : l.token.is (.symbol .comma) = true) (hkeys : EndsWithPivotKey (before.map Lexeme.token))
    (hfault : e.fault = .pivotArity) (hspan : e.span = l.span)
  /-- After an integer that is too large for an expression, but not for a target's number, a token that makes it part
  of an expression.  The error is at the integer. -/
  | number {k : Lexeme} {digits : String} (hk : before.getLast? = some k) (hdigits : k.token = .integer digits)
    (hcount : ∃ n, countOf digits = .ok n) (hl : l.token.continuesExpression = true)
    (hfault : e.fault = .invalidNumber digits) (hspan : e.span = k.span)

/-! ## Samples after what was read -/

/-- What a statement has tried in vain are ordinary items. -/
theorem isOrdinary_of_missed (hx : x ∈ missed (statement (nested limit limit) (Input.start lexemes))) :
    x.isOrdinary = true := by
  obtain ⟨u, -, hmissed⟩ := Tidy.statement (nested_tidy limit limit) (Input.start lexemes)
  rcases hmissed x hx with h | ⟨-, h⟩
  · exact h
  · cases h

/-- A sample of an item that a statement tried in vain is read in this place, or refused for what stands before it. -/
theorem statement_of_missed (hu : lexemes = u ++ leftOf (statement (nested limit limit) (Input.start lexemes)))
    (hx : x ∈ missed (statement (nested limit limit) (Input.start lexemes))) (hl : l.token = x.sample) :
    leftOf (statement (nested (limit + 2) (limit + 2)) (Input.start (u ++ [l]))) = [] ∨
      ∃ stop, statement (nested (limit + 2) (limit + 2)) (Input.start (u ++ [l])) = .error stop ∧ stop.Refuses := by
  obtain ⟨v, hv, hrun⟩ :=
    (Heeds.statement (nested_heeds limit (limit + 2) (Nat.le_refl (limit + 2)))).heeds (Input.start lexemes)
  obtain rfl : u = v := List.append_cancel_right (hu.symm.trans hv)
  by_contra hnot
  rw [not_or] at hnot
  have hhalts : Halts (statement (nested (limit + 2) (limit + 2)) (Input.start (u ++ [l]))) :=
    ⟨hnot.1, fun stop hstop hrefuses => hnot.2 ⟨stop, hstop, hrefuses⟩⟩
  obtain ⟨-, hmem⟩ := (hrun (Input.start (u ++ [l])) u l rfl rfl ⟨x, isOrdinary_of_missed hx, hl⟩ hhalts).1 x hx hl
  cases hmem

/-- A statement that has ended is one as well if the text ends there. -/
theorem statement_alone {b : Statement} {t : Input}
    (h : statement (nested limit limit) (Input.start (u ++ v)) = .ok (b, t)) (ht : t.rest = v) :
    ∃ b' t', statement (nested (limit + 2) (limit + 2)) (Input.start u) = .ok (b', t') ∧ t'.rest = [] := by
  have hsees := (Heeds.statement (nested_heeds limit (limit + 2) (Nat.le_refl (limit + 2)))).sees (Input.start (u ++ v))
  obtain ⟨b', t', hq, ht', -⟩ := (hsees b t h).2 (Input.start u) []
    ⟨u, u, by rw [ht]; rfl, (List.append_nil u).symm, rfl⟩ (.inr ⟨.inl rfl, False.elim⟩)
  exact ⟨b', t', hq, ht'⟩

/-- What is refused is refused with an error that is at it, or at an integer before it. -/
theorem refusal_of_refuses {stop : Stop} (hs : scan source = .ok (u ++ [l]))
    (h : statement (nested limit limit) (Input.start (u ++ [l])) = .error stop) (hrefuses : stop.Refuses) :
    ∃ e, Refusal u l e ∧ ∀ limit' ≥ limit, parse source limit' = .error e := by
  have hstop := parseLexemes_of_statement_error h
  have hparse := (parse_eq_error_iff hs).mpr ⟨stop, hstop, rfl⟩
  refine ⟨stop.toError source, ?_, fun limit' hle => ?_⟩
  · obtain ⟨u', hu', hfits⟩ := parseLexemes_coherent hstop
    cases hrefuses with
    | @comma l' hcomma =>
      obtain ⟨rfl, hl'⟩ := List.append_inj' hu' rfl
      obtain rfl := List.singleton_inj.mp hl'
      cases hfits with
      | pivotArity hkeys => exact .pivot hcomma hkeys rfl rfl
    | @number k m digits hk hd hm =>
      obtain ⟨rfl, hm'⟩ : u = u' ++ [k] ∧ [l] = [m] := List.append_inj' (by simpa using hu') rfl
      obtain rfl := List.singleton_inj.mp hm'
      exact .number (by simp) hk hd hm rfl rfl
  · rw [parse_eq_of_le (fun e he => ?_) hle, hparse]
    obtain rfl := Except.error.inj (hparse.symm.trans he)
    rintro ⟨n, hn⟩
    cases hrefuses <;> cases hn

/-! ## Every item listed -/

/-- The tokens of a text that begins with as many lexemes as another one has before a place. -/
theorem tokenize_of_scan (h : scan source = .ok (u ++ lexemes)) (hlen : p = u.length) :
    ∃ tokens, tokenize source = .ok tokens ∧ tokens.take p = u ∧
      tokens[p]? = (lexemes ++ [(⟨.eof, endOfText source⟩ : Lexeme)]).head? := by
  refine ⟨u ++ lexemes ++ [⟨.eof, endOfText source⟩], ?_, ?_, ?_⟩
  · rw [tokenize, h]
    rfl
  · rw [hlen, List.append_assoc, List.take_left]
  · rw [hlen, List.append_assoc, List.getElem?_append_right (Nat.le_refl _), Nat.sub_self, List.head?_eq_getElem?]

/-- A token that is not the end of the input is one of the lexemes. -/
theorem exists_scan_of_getElem? (h : tokenize source = .ok tokens) (hp : tokens[p]? = some l) (hl : l.token ≠ .eof) :
    ∃ rest, scan source = .ok (tokens.take p ++ l :: rest) := by
  obtain ⟨lexemes, hscan, rfl⟩ := exists_scan_of_tokenize h
  rcases Nat.lt_or_ge p lexemes.length with hlt | hge
  · rw [List.getElem?_append_left hlt] at hp
    obtain ⟨_, rfl⟩ := List.getElem?_eq_some_iff.mp hp
    refine ⟨lexemes.drop (p + 1), ?_⟩
    rw [List.take_append_of_le_length (Nat.le_of_lt hlt), List.getElem_cons_drop, List.take_append_drop, hscan]
  · rw [List.getElem?_append_right hge] at hp
    obtain rfl := List.mem_singleton.mp (List.mem_of_getElem? hp)
    exact absurd rfl hl

/-- For every item that an error lists, there is a text with the same tokens before the error and then one of the item's
kind that is a statement, unless this token is refused for what stands before it. -/
theorem exists_query_of_expected {e : ParseError} {expected : List Expected} {found : String}
    (h : tokenize source = .ok tokens) (he : parse source limit = .error e) (hp : tokens[p]? = some l)
    (hspan : e.span = l.span) (hfault : e.fault = .unexpected expected found) (hx : x ∈ expected) :
    ∃ source' tokens' l', tokenize source' = .ok tokens' ∧ tokens'.take p = tokens.take p ∧
      tokens'[p]? = some l' ∧ x.matches l'.token = true ∧
      ((∃ b, ∀ limit' ≥ limit + 4, parse source' limit' = .ok b) ∨
        ∃ e', Refusal (tokens.take p) l' e' ∧ ∀ limit' ≥ limit + 4, parse source' limit' = .error e') := by
  obtain ⟨u, stop, hscan, hstop, hfault', hu, hlen⟩ := exists_stop_of_parse h he hp hspan
  obtain ⟨hleft, hitems⟩ := stops_of_parseLexemes hstop
  obtain ⟨_, _, -, -, hcut⟩ := exists_cut hscan
  have hx : x ∈ stop.fault.items := by
    rw [← hfault', hfault]
    exact hx
  rw [hu]
  rcases hitems x hx with hmissed | ⟨rfl, b, t, hb⟩
  · -- the tokens before the error and a sample
    have hplain : x.sample.Plain := IsSample.plain ⟨x, isOrdinary_of_missed hmissed, rfl⟩
    obtain ⟨z, lexemes, hscan', hlexemes⟩ := hcut [x.sample] (List.forall_mem_singleton.mpr hplain)
    obtain ⟨l', rfl, hl'⟩ := List.map_eq_singleton_iff.mp hlexemes
    have hmatches : x.matches l'.token = true := hl' ▸ x.matches_sample
    rcases statement_of_missed (congrArg _ hleft.symm) hmissed hl' with hread | ⟨stop', hstop', hrefuses⟩
    · obtain ⟨w, hplain', hw⟩ := exists_takes (u := u ++ [l']) (by rw [hread, List.append_nil])
      obtain ⟨z', lexemes', hscan', hlexemes'⟩ := hcut (x.sample :: w) (List.forall_mem_cons.mpr ⟨hplain, hplain'⟩)
      obtain ⟨m, lexemes', rfl, hm, rfl⟩ := List.map_eq_cons_iff.mp hlexemes'
      obtain ⟨tokens', htokens', htake, hget⟩ := tokenize_of_scan hscan' hlen
      obtain ⟨b, hb⟩ := parse_of_takes hscan' (by simpa [hl', hm] using hw)
      refine ⟨_, tokens', m, htokens', htake, hget, hm ▸ x.matches_sample, .inl ⟨b, fun limit' hle => ?_⟩⟩
      rw [parse_eq_of_le (fun e he => by cases hb.symm.trans he) hle, hb]
    · obtain ⟨tokens', htokens', htake, hget⟩ := tokenize_of_scan hscan' hlen
      obtain ⟨e', hrefusal, he'⟩ := refusal_of_refuses hscan' hstop' hrefuses
      exact ⟨_, tokens', l', htokens', htake, hget, hmatches,
        .inr ⟨e', hrefusal, fun limit' hle => he' limit' (by omega)⟩⟩
  · -- the tokens before the error and nothing else
    obtain ⟨z, lexemes, hscan', hlexemes⟩ := hcut [] (List.forall_mem_nil _)
    obtain rfl := List.map_eq_nil_iff.mp hlexemes
    obtain ⟨tokens', htokens', htake, hget⟩ := tokenize_of_scan hscan' hlen
    obtain ⟨b', t', hb', ht'⟩ := statement_alone hb (by rw [← hleft, hb]; rfl)
    have hparse := parse_of_statement hscan' (by rwa [List.append_nil]) ht'
    refine ⟨_, tokens', _, htokens', htake, hget, rfl, .inl ⟨b', fun limit' hle => ?_⟩⟩
    rw [parse_eq_of_le (fun e he => by cases hparse.symm.trans he) (by omega), hparse]

/-- After a column its alias is possible. -/
theorem exists_query_of_expected_alias :
    let tokens : List Lexeme := [⟨.keyword .select "SELECT", ⟨0, 6⟩⟩, ⟨.ident "a", ⟨7, 8⟩⟩, ⟨.ident "b", ⟨9, 10⟩⟩,
      ⟨.eof, ⟨10, 10⟩⟩]
    let expected : List Expected := ([.from, .where, .group, .order, .pivot, .limit, .as].map fun k =>
      .terminal (.keyword k)) ++ [.terminal (.symbol .comma), .endOfInput]
    tokenize "SELECT a b" = .ok tokens ∧
      parse "SELECT a b" 8 = .error ⟨.unexpected expected "`b`", ⟨9, 10⟩, ⟨1, 10, 9⟩⟩ ∧
      .terminal (.keyword .as) ∈ expected ∧
      ∃ source' tokens' l', tokenize source' = .ok tokens' ∧ tokens'.take 2 = tokens.take 2 ∧
        tokens'[2]? = some l' ∧ (Expected.terminal (.keyword .as)).matches l'.token = true ∧
        ((∃ b, ∀ limit' ≥ 12, parse source' limit' = .ok b) ∨
          ∃ e', Refusal (tokens.take 2) l' e' ∧ ∀ limit' ≥ 12, parse source' limit' = .error e') := by
  intro tokens expected
  have h : tokenize "SELECT a b" = .ok tokens := by cbv
  have he : parse "SELECT a b" 8 = .error ⟨.unexpected expected "`b`", ⟨9, 10⟩, ⟨1, 10, 9⟩⟩ := by cbv
  have hx : .terminal (.keyword .as) ∈ expected := by decide
  exact ⟨h, he, hx, exists_query_of_expected h he (p := 2) rfl rfl rfl hx⟩

/-! ## An item that is refused -/

/-- A third key of a pivot is refused in a subselect, whatever follows and however deep the nesting may be. -/
theorem statement_pivot (limit : Nat) (a b c d e f g h i : Span) (rest : List Lexeme) :
    statement (nested (limit + 4) (limit + 4)) (Input.start (⟨.keyword .select "SELECT", a⟩ ::
      ⟨.keyword .select "SELECT", b⟩ :: ⟨.ident "a", c⟩ :: ⟨.keyword .pivot "PIVOT", d⟩ :: ⟨.keyword .by "BY", e⟩ ::
      ⟨.ident "x", f⟩ :: ⟨.symbol .comma, g⟩ :: ⟨.ident "y", h⟩ :: ⟨.symbol .comma, i⟩ :: rest)) =
      .error ⟨.pivotArity, ⟨.symbol .comma, i⟩ :: rest⟩ := rfl

/-- The comma between targets is listed after a subselect with a pivot, but no query goes on with it. -/
theorem not_exists_query_of_expected : ¬ ∀ (source : String) (limit p : Nat) (tokens : List Lexeme) (l : Lexeme)
    (e : ParseError) (expected : List Expected) (found : String) (x : Expected),
    tokenize source = .ok tokens → parse source limit = .error e → tokens[p]? = some l → e.span = l.span →
    e.fault = .unexpected expected found → 2 * tokens.length ≤ limit → x ∈ expected →
    ∃ source' tokens' l' limit' b, tokenize source' = .ok tokens' ∧
      (tokens'.take p).map Lexeme.token = (tokens.take p).map Lexeme.token ∧ tokens'[p]? = some l' ∧
      x.matches l'.token = true ∧ parse source' limit' = .ok b := by
  intro hall
  let expected : List Expected := ([.from, .where, .group, .order, .pivot, .limit, .as].map fun k =>
    .terminal (.keyword k)) ++ [.terminal (.symbol .comma), .endOfInput]
  let tokens : List Lexeme := [⟨.keyword .select "SELECT", ⟨0, 6⟩⟩, ⟨.keyword .select "SELECT", ⟨7, 13⟩⟩,
    ⟨.ident "a", ⟨14, 15⟩⟩, ⟨.keyword .pivot "PIVOT", ⟨16, 21⟩⟩, ⟨.keyword .by "BY", ⟨22, 24⟩⟩, ⟨.ident "x", ⟨25, 26⟩⟩,
    ⟨.symbol .comma, ⟨26, 27⟩⟩, ⟨.ident "y", ⟨28, 29⟩⟩, ⟨.symbol .rightParen, ⟨30, 31⟩⟩, ⟨.eof, ⟨31, 31⟩⟩]
  have h : tokenize "SELECT SELECT a PIVOT BY x, y )" = .ok tokens := by cbv
  have he : parse "SELECT SELECT a PIVOT BY x, y )" 50 =
      .error ⟨.unexpected expected "`)`", ⟨30, 31⟩, ⟨1, 31, 30⟩⟩ := by cbv
  obtain ⟨source, tokens', l', limit, b, htokens', htake, hget, hmatches, hb⟩ :=
    hall _ 50 8 tokens _ _ expected _ (.terminal (.symbol .comma)) h he rfl rfl rfl (by decide) (by decide)
  have hcomma : l'.token = .symbol .comma := is_symbol_iff.mp hmatches
  obtain ⟨rest, hscan⟩ := exists_scan_of_getElem? htokens' hget (by simp [hcomma])
  -- the tokens are the same, so the pivot is refused
  generalize tokens'.take 8 = u at htake hscan
  obtain ⟨⟨_, a⟩, u, rfl, rfl, h₁⟩ := List.map_eq_cons_iff.mp htake
  obtain ⟨⟨_, b⟩, u, rfl, rfl, h₂⟩ := List.map_eq_cons_iff.mp h₁
  obtain ⟨⟨_, c⟩, u, rfl, rfl, h₃⟩ := List.map_eq_cons_iff.mp h₂
  obtain ⟨⟨_, d⟩, u, rfl, rfl, h₄⟩ := List.map_eq_cons_iff.mp h₃
  obtain ⟨⟨_, e⟩, u, rfl, rfl, h₅⟩ := List.map_eq_cons_iff.mp h₄
  obtain ⟨⟨_, f⟩, u, rfl, rfl, h₆⟩ := List.map_eq_cons_iff.mp h₅
  obtain ⟨⟨_, g⟩, u, rfl, rfl, h₇⟩ := List.map_eq_cons_iff.mp h₆
  obtain ⟨⟨_, h⟩, rfl, rfl⟩ := List.map_eq_singleton_iff.mp h₇
  obtain ⟨_, i⟩ := l'
  obtain rfl := hcomma
  have hstop := parseLexemes_of_statement_error (statement_pivot limit a b c d e f g h i rest)
  have hsame : parse source (limit + 4) = parse source limit :=
    parse_eq_of_le (fun e he => by cases hb.symm.trans he) (Nat.le_add_right limit 4)
  cases ((parse_eq_error_iff hscan).mpr ⟨_, hstop, rfl⟩).symm.trans (hsame.trans hb)

end LedgerQuery
