import LedgerQuery.Proofs.Reading.Beginnings
import LedgerQuery.Proofs.Reading.CompletesSelect
import LedgerQuery.Proofs.Reading.Exact

/-!
# What stands before an error can be completed

An error is at the first token that makes a text hopeless.  The text before this token can be completed and is a
statement then, if two more levels of nesting are allowed (`exists_completion`).

The text is cut after its last token before the error, and the tokens that complete it are written after a blank.
No token before the cut goes on across a blank (`exists_cut`).
-/

namespace LedgerQuery

open Token LedgerQuery.Parser Segment

variable {source : String} {limit limit' : Nat} {lexemes u v : List Lexeme} {w : List Token}

/-! ## Other tokens after a cut -/

/-- Some tokens with blanks around them. -/
def withBlanks (w : List Token) : List Segment := trivia [' '] :: w.flatMap fun t => [token t, trivia [' ']]

theorem tokens_withBlanks (w : List Token) : tokens (withBlanks w) = w := by
  show tokens (w.flatMap fun t => [token t, trivia [' ']]) = w
  induction w with
  | nil => rfl
  | cons t w ih => rw [List.flatMap_cons, tokens_append, ih]; rfl

theorem separated_space (ds : List Char) : Separated (' ' :: ds) := by
  intro d hd
  obtain rfl : ' ' = d := by simpa using hd
  decide

/-- Tokens that can be written are read with blanks around them. -/
theorem segmented_withBlanks (hw : ∀ t ∈ w, t.Plain) (operand : Bool) : Segmented operand (withBlanks w) [] := by
  refine ⟨fits_trivia_iff.mpr (.blank (by decide)), ?_⟩
  show Segmented operand (w.flatMap fun t => [token t, trivia [' ']]) []
  induction w generalizing operand with
  | nil => trivial
  | cons t w ih =>
    obtain ⟨ht, hw⟩ := List.forall_mem_cons.mp hw
    refine ⟨fits_token_iff.mpr ⟨ht.legal, fun hp => ?_, (separated_space _).apart⟩,
      fits_trivia_iff.mpr (.blank (by decide)), ih hw _⟩
    exact absurd (hp.symm.trans ht.notPlaceholder) (by simp)

/-- Some tokens of a text are the segments of a beginning of it, which does not end in a comment. -/
theorem exists_beginning (h : scan source = .ok (u ++ v)) : ∃ qs y, source.toList = join qs ++ y ∧
    byteLength (join qs) = stopOf u ∧ Segment.lexemes 0 qs = u ∧ Segmented false qs y ∧ ¬ EndInComment qs := by
  obtain ⟨ss, hjoin, hss, hlexemes⟩ := scanFrom_eq_ok_iff.mp (scan_ok_iff.mp h)
  rcases List.eq_nil_or_concat u with rfl | ⟨u, l, rfl⟩
  · exact ⟨[], _, rfl, rfl, rfl, trivial, by rintro ⟨_, hnil⟩; cases hnil⟩
  · rw [List.concat_eq_append, List.append_assoc] at hlexemes
    obtain ⟨qs, t, rs, rfl, rfl, rfl, -⟩ := exists_eq_of_lexemes hlexemes
    rw [List.append_cons] at hjoin hss
    refine ⟨qs ++ [token t], join rs, by rw [← hjoin, join_append], ?_, ?_, ?_, ?_⟩
    · simp [stopOf]
    · simp [lexemes_append, Segment.lexemes]
    · simpa using (segmented_append.mp hss).1
    · rintro ⟨body, hlast⟩
      simp at hlast

/-- A text can be cut after some of its tokens, and go on with other tokens instead. -/
theorem exists_cut (h : scan source = .ok (u ++ v)) : ∃ x y, source.toList = x ++ y ∧ byteLength x = stopOf u ∧
    ∀ w, (∀ t ∈ w, t.Plain) → ∃ z lexemes, scan (String.ofList (x ++ ' ' :: z)) = .ok (u ++ lexemes) ∧
      lexemes.map Lexeme.token = w := by
  obtain ⟨qs, y, hjoin, hlen, hu, hqs, hline⟩ := exists_beginning h
  refine ⟨join qs, y, hjoin, hlen, fun w hw => ?_⟩
  refine ⟨join (w.flatMap fun t => [token t, trivia [' ']]), Segment.lexemes (byteLength (join qs)) (withBlanks w), ?_,
    by rw [map_token_lexemes, tokens_withBlanks]⟩
  refine scan_ok_iff.mpr (scanFrom_eq_ok_iff.mpr ⟨qs ++ withBlanks w, ?_,
    segmented_append.mpr ⟨?_, segmented_withBlanks hw _⟩, ?_⟩)
  · simp [withBlanks]
  · exact hqs.replace (by simpa [withBlanks] using separated_space _) fun hc => absurd hc hline
  · rw [lexemes_append, hu, Nat.zero_add]

/-! ## Statements and whole texts -/

theorem endOfInput_miss {s : Input} (h : nextOf s.rest ≠ .eof) :
    endOfInput s = .error ⟨.unexpected (Expected.collect (.endOfInput :: s.tried)) s.next.display, s.rest⟩ := by
  unfold endOfInput
  rw [Parser.peek_bind]
  generalize nextOf s.rest = next at h
  cases next <;> first | rfl | exact absurd rfl h

/-- A statement that takes all lexemes is what they are parsed as. -/
theorem parse_of_statement {b : Statement} {t : Input} (hs : scan source = .ok lexemes)
    (hb : statement (nested limit limit) (Input.start lexemes) = .ok (b, t)) (ht : t.rest = []) :
    parse source limit = .ok b := by
  exact (parse_eq_ok_iff hs).mpr (parseLexemes_of_statement_ok hb (by rw [ht]; rfl))

/-- Tokens that are read as a statement whatever follows are what a text is parsed as. -/
theorem parse_of_takes (hs : scan source = .ok lexemes)
    (h : Takes (Stops 20) (lexemes.map Lexeme.token) (statement (nested limit limit))) :
    ∃ b, parse source limit = .ok b := by
  obtain ⟨b, t, hb, ht⟩ := h (Input.start lexemes) lexemes [] (by simp [Input.start]) rfl (by decide) rfl
  exact ⟨b, parse_of_statement hs hb ht⟩

/-- Under a higher limit a text is parsed the same, unless its nesting was too deep. -/
theorem parse_eq_of_le (h : ∀ e, parse source limit = .error e → ¬ e.fault.IsTooDeep) (hle : limit ≤ limit') :
    parse source limit' = parse source limit := by
  cases hs : scan source with
  | error e =>
    unfold parse parseSpanned
    rw [hs]
    rfl
  | ok lexemes =>
    rcases parseLexemes_curtailed lexemes hle with ⟨hsame, -⟩ | ⟨⟨rest, hcut⟩, -⟩
    · rw [parse, parse, parseSpanned_eq hs, parseSpanned_eq hs, hsame]
    · exact absurd ⟨limit, rfl⟩ (h _ ((parse_eq_error_iff hs).mpr ⟨_, hcut, rfl⟩))

/-- Parsing stops where a statement stops or ends.  It lists what was tried there, and the end of the text if the
statement has ended. -/
theorem stops_of_parseLexemes {stop : Stop} (h : parseLexemes lexemes limit = .error stop) :
    leftOf (statement (nested limit limit) (Input.start lexemes)) = stop.rest ∧
      ∀ e ∈ stop.fault.items, e ∈ missed (statement (nested limit limit) (Input.start lexemes)) ∨
        e = .endOfInput ∧ ∃ b t, statement (nested limit limit) (Input.start lexemes) = .ok (b, t) := by
  have hrun : wholeText (nested limit limit) (Input.start lexemes) = .error stop := by
    cases hw : wholeText (nested limit limit) (Input.start lexemes) with
    | error stop' => simpa [parseLexemes, hw, Except.map] using h
    | ok r => simp [parseLexemes, hw, Except.map] at h
  have hstart : nextSpan (Input.start lexemes) = .ok (_, Input.start lexemes) := rfl
  unfold wholeText at hrun
  rw [bind_of_ok hstart] at hrun
  cases hst : statement (nested limit limit) (Input.start lexemes) with
  | error stop' =>
    rw [bind_of_error hst] at hrun
    obtain rfl := Except.error.inj hrun
    exact ⟨rfl, fun e he => .inl he⟩
  | ok x =>
    obtain ⟨b, t⟩ := x
    have hlast : lastSpan t = .ok (_, t) := rfl
    rw [bind_of_ok hst, bind_of_ok hlast] at hrun
    by_cases hn : nextOf t.rest = .eof
    · rw [bind_of_ok (Parser.endOfInput_hit hn)] at hrun
      cases hrun
    · rw [bind_of_error (endOfInput_miss hn)] at hrun
      obtain rfl := Except.error.inj hrun
      refine ⟨rfl, fun e he => ?_⟩
      rcases List.mem_cons.mp (Expected.mem_collect.mp he) with rfl | he
      · exact .inr ⟨rfl, b, t, rfl⟩
      · exact .inl he

/-- Where a statement stops, parsing stops. -/
theorem parseLexemes_of_statement_error {stop : Stop}
    (h : statement (nested limit limit) (Input.start lexemes) = .error stop) :
    parseLexemes lexemes limit = .error stop := by
  have hwhole : wholeText (nested limit limit) (Input.start lexemes) = .error stop := by
    have hstart : nextSpan (Input.start lexemes) = .ok (_, Input.start lexemes) := rfl
    unfold wholeText
    rw [bind_of_ok hstart, bind_of_error h]
  exact congrArg (Except.map Prod.fst) hwhole

/-! ## Completing what was read -/

/-- The tokens before an error are those that were read. -/
theorem exists_stop_of_parse {tokens : List Lexeme} {p : Nat} {l : Lexeme} {e : ParseError}
    (h : tokenize source = .ok tokens) (he : parse source limit = .error e) (hp : tokens[p]? = some l)
    (hspan : e.span = l.span) :
    ∃ u stop, scan source = .ok (u ++ stop.rest) ∧ parseLexemes (u ++ stop.rest) limit = .error stop ∧
      e.fault = stop.fault ∧ tokens.take p = u ∧ p = u.length := by
  obtain ⟨lexemes, hscan, rfl⟩ := exists_scan_of_tokenize h
  obtain ⟨stop, hstop, rfl⟩ := (parse_eq_error_iff hscan).mp he
  obtain ⟨u, rfl, -⟩ := parseLexemes_coherent hstop
  obtain ⟨m, after, hm, hmspan⟩ := Stop.exists_eq_cons stop source
  obtain rfl : p = u.length := span_injective h hp (by rw [List.append_assoc, hm]; simp) (hspan.symm.trans hmspan)
  exact ⟨u, stop, hscan, hstop, rfl, by rw [List.append_assoc, List.take_left], rfl⟩

/-- What was read of a statement is completed by some tokens, if two more levels are allowed. -/
theorem exists_takes (hu : lexemes = u ++ leftOf (statement (nested limit limit) (Input.start lexemes))) :
    ∃ w, (∀ t ∈ w, t.Plain) ∧
      Takes (Stops 20) (u.map Lexeme.token ++ w) (statement (nested (limit + 2) (limit + 2))) := by
  have hcompletes := nested_completes limit (limit + 2) (Nat.le_refl (limit + 2))
  obtain ⟨u', hu', hrun⟩ := Completes.statement hcompletes (Input.start lexemes)
  obtain rfl : u = u' := List.append_cancel_right (hu.symm.trans hu')
  by_cases hnil : u = []
  · subst hnil
    exact ⟨_, Completes.plain_selectOne, Completes.takes_statement hcompletes⟩
  · obtain ⟨w, hplain, hw⟩ := hrun hnil
    exact ⟨w, hplain, hw ()⟩

/-- What stands before an error can be completed. -/
theorem exists_completion {tokens : List Lexeme} {p : Nat} {l : Lexeme} {e : ParseError}
    (h : tokenize source = .ok tokens) (he : parse source limit = .error e) (hp : tokens[p]? = some l)
    (hspan : e.span = l.span) :
    ∃ x y z, source.toList = x ++ y ∧ byteLength x = stopOf (tokens.take p) ∧
      ∃ b, ∀ limit' ≥ limit + 2, parse (String.ofList (x ++ ' ' :: z)) limit' = .ok b := by
  obtain ⟨u, stop, hscan, hstop, -, rfl, -⟩ := exists_stop_of_parse h he hp hspan
  obtain ⟨w, hplain, hw⟩ := exists_takes (congrArg _ (stops_of_parseLexemes hstop).1.symm)
  obtain ⟨x, y, hxy, hx, hcut⟩ := exists_cut hscan
  obtain ⟨z, lexemes, hscan', hlexemes⟩ := hcut w hplain
  obtain ⟨b, hb⟩ := parse_of_takes hscan' (by rwa [List.map_append, hlexemes])
  refine ⟨x, y, z, hxy, hx, b, fun limit' hle => ?_⟩
  rw [parse_eq_of_le (fun e he => by cases hb.symm.trans he) hle, hb]

/-- Before a second comparison the first one is complete. -/
theorem exists_completion_chained :
    let tokens : List Lexeme := [⟨.keyword .select "SELECT", ⟨0, 6⟩⟩, ⟨.ident "a", ⟨7, 8⟩⟩, ⟨.symbol .equal, ⟨9, 10⟩⟩,
      ⟨.ident "b", ⟨11, 12⟩⟩, ⟨.symbol .less, ⟨13, 14⟩⟩, ⟨.ident "c", ⟨15, 16⟩⟩, ⟨.eof, ⟨16, 16⟩⟩]
    tokenize "SELECT a = b < c" = .ok tokens ∧
      parse "SELECT a = b < c" 8 = .error ⟨.chainedComparison, ⟨13, 14⟩, ⟨1, 14, 13⟩⟩ ∧
      ∃ x y z, "SELECT a = b < c".toList = x ++ y ∧ byteLength x = stopOf (tokens.take 4) ∧
        ∃ b, ∀ limit' ≥ 10, parse (String.ofList (x ++ ' ' :: z)) limit' = .ok b := by
  intro tokens
  have h : tokenize "SELECT a = b < c" = .ok tokens := by cbv
  have he : parse "SELECT a = b < c" 8 = .error ⟨.chainedComparison, ⟨13, 14⟩, ⟨1, 14, 13⟩⟩ := by cbv
  exact ⟨h, he, exists_completion h he (p := 4) rfl rfl⟩

end LedgerQuery
