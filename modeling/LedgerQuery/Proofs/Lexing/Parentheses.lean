import LedgerQuery.Proofs.Lexing.Longest

/-!
# Parentheses between segments

A pair of parentheses can be put around some segments of a text, and the tokens stay the same
(`Segmented.enclose`).  A parenthesis is a token of its own.  But with the text around it, it can be part of a
placeholder with a name, and after a right one a percent sign is an operator.  So there must be no percent sign
directly before the left parenthesis, and no percent sign and no placeholder after the right one.
-/

namespace LedgerQuery

open Segment

section
variable {operand : Bool} {x ds es : List Char} {qs us rs ss : List Segment} {t : Token}

/-! ## Before a parenthesis -/

/-- No placeholder goes on with a left parenthesis, unless it begins there. -/
theorem placeholder?_before_leftParen (h : placeholder? (x ++ ds) = none) (hx : WordEnds x ds) (hne : x ≠ []) :
    placeholder? (x ++ '(' :: es) = none := by
  by_contra hsome
  obtain ⟨⟨p, n⟩, hp⟩ := Option.ne_none_iff_exists'.mp hsome
  obtain ⟨y, rest, hy, he, htext⟩ := placeholder?_reaches h hx hp
  obtain ⟨d, y, rfl⟩ := List.exists_cons_of_ne_nil hy
  obtain ⟨rfl, -⟩ := List.cons.inj he
  obtain ⟨c, x, rfl⟩ := List.exists_cons_of_ne_nil hne
  have hl := placeholder?_legal hp
  -- the parenthesis would stand after the first character that follows the percent sign
  cases p with
  | positional =>
    have htext : ['%', 's'] = '%' :: (c :: x ++ '(' :: y) := htext
    simp at htext
  | named name =>
    have hname : name.toList ++ [')', 's'] = x ++ '(' :: y := by
      simpa [Placeholder.text] using congrArg (List.drop 2) htext
    have hmem : '(' ∈ name.toList ++ [')', 's'] := by simp [hname]
    have hparen : '(' ∈ name.toList := by simpa using hmem
    exact absurd (isWord_all hl '(' hparen) (by decide)

/-- No placeholder goes on with a right parenthesis before the same text. -/
theorem placeholder?_before_rightParen (h : placeholder? (x ++ ds) = none) (hx : WordEnds x ds) :
    placeholder? (x ++ ')' :: ds) = none := by
  by_contra hsome
  obtain ⟨⟨p, n⟩, hp⟩ := Option.ne_none_iff_exists'.mp hsome
  obtain ⟨y, rest, hy, he, htext⟩ := placeholder?_reaches h hx hp
  obtain ⟨d, y, rfl⟩ := List.exists_cons_of_ne_nil hy
  obtain ⟨rfl, rfl⟩ := List.cons.inj he
  have hl := placeholder?_legal hp
  cases p with
  | positional =>
    have htext : ['%', 's'] = '%' :: (x ++ ')' :: y) := htext
    have hmem : ')' ∈ ['s'] := by simp [(List.cons.inj htext).2]
    exact absurd hmem (by decide)
  | named name =>
    have htext : '(' :: (name.toList ++ [')', 's']) = x ++ ')' :: y := by
      simpa [Placeholder.text] using congrArg (List.drop 1) htext
    cases x with
    | nil => cases htext
    | cons c x =>
      obtain ⟨rfl, hname⟩ := List.cons.inj htext
      have hnot : ')' ∉ name.toList := fun hparen => absurd (isWord_all hl ')' hparen) (by decide)
      -- so the parenthesis ends the name, and an `s` follows it
      obtain ⟨mid, rfl, hmid⟩ := exists_eq_append_of_not_mem hname.symm (by simpa using hnot)
      cases mid with
      | cons d mid =>
        have hmem : ')' ∈ ['s'] := by simp [(List.cons.inj hmid).2]
        exact absurd hmem (by decide)
      | nil =>
        obtain ⟨-, rfl⟩ := List.cons.inj hmid
        have := hx name.toList hl (.inr (by simp)) 's' rfl
        cases this

/-- Every token but a percent sign ends before a left parenthesis. -/
theorem Token.apart_leftParen (h : t ≠ .symbol .percent) : t.Apart operand ('(' :: es) :=
  Token.apart_of_head (by simp; decide) fun ht => absurd ht h

/-- Every token ends before a right parenthesis. -/
theorem Token.apart_rightParen : t.Apart operand (')' :: es) := Token.apart_of_head (by simp; decide) fun _ => rfl

/-! ## After a parenthesis -/

/-- Whether a token is read in one way only, after an operand or not. -/
def Token.Steady (t : Token) : Prop := t ≠ .symbol .percent ∧ t.isPlaceholder = false

/-- What the last token was makes no difference before a token that is read in one way. -/
theorem Segmented.steady {operand' : Bool} (h : Segmented operand ss ds) (ht : ∀ t ∈ (tokens ss).head?, t.Steady) :
    Segmented operand' ss ds := by
  induction ss with
  | nil => trivial
  | cons s ss ih =>
    obtain ⟨hfit, hss⟩ := h
    cases s with
    | trivia w => exact ⟨fits_trivia_iff.mpr (fits_trivia_iff.mp hfit), ih hss ht⟩
    | token t =>
      obtain ⟨hpercent, hplaceholder⟩ := ht t rfl
      obtain ⟨hl, -, ha⟩ := fits_token_iff.mp hfit
      refine ⟨fits_token_iff.mpr ⟨hl, fun hp => ?_, ?_⟩, hss⟩
      · rw [hplaceholder] at hp
        cases hp
      · cases t
        case symbol s =>
          cases s
          case percent => exact absurd rfl hpercent
          all_goals exact ha
        all_goals exact ha

/-! ## Around segments -/

/-- A pair of parentheses around some segments. -/
theorem Segmented.enclose (h : Segmented operand (qs ++ us ++ rs) []) (hoperand : qs.foldl operandAfter operand = false)
    (hpercent : qs.getLast? ≠ some (token (.symbol .percent))) (hqs : ¬ EndInComment qs) (hus : ¬ EndInComment us)
    (hrs : ∀ t ∈ (tokens rs).head?, t.Steady) :
    Segmented operand (qs ++ token (.symbol .leftParen) :: (us ++ token (.symbol .rightParen) :: rs)) [] := by
  obtain ⟨hboth, hrs'⟩ := segmented_append.mp h
  obtain ⟨hqs', hus'⟩ := segmented_append.mp hboth
  rw [hoperand] at hus'
  refine segmented_append.mpr ⟨?_, ?_, segmented_append.mpr ⟨?_, ?_, hrs'.steady hrs⟩⟩
  · refine hqs'.replaced ⟨by simp [Token.text, Symbol.spelling], fun o t ht => ?_, fun x hne hx hnone => ?_,
      fun hend => absurd hend hqs⟩
    · refine Token.apart_leftParen fun he => ?_
      rw [he] at ht
      exact hpercent ht
    · exact placeholder?_before_leftParen hnone hx hne
  · exact fits_token_iff.mpr ⟨trivial, fun hp => absurd hp (by decide), fun d hd => rfl⟩
  · exact hus'.replaced ⟨by simp [Token.text, Symbol.spelling], fun _ _ _ => Token.apart_rightParen,
      fun _ _ hx hnone => placeholder?_before_rightParen hnone hx, fun hend => absurd hend hus⟩
  · exact fits_token_iff.mpr ⟨trivial, fun hp => absurd hp (by decide), fun d hd => rfl⟩

end

/-! ## Around the text of a span -/

/-- A text with a pair of parentheses around what a span covers. -/
def Span.enclose (s : Span) (source : String) : String :=
  Span.text ⟨0, s.start⟩ source ++ "(" ++ s.text source ++ ")" ++
    Span.text ⟨s.stop, byteLength source.toList⟩ source

theorem Span.enclose_append {source : String} (x w y : List Char) (h : source.toList = x ++ w ++ y) :
    Span.enclose ⟨byteLength x, byteLength (x ++ w)⟩ source = String.ofList (x ++ '(' :: (w ++ ')' :: y)) := by
  have hx := Span.slice?_append [] x (w ++ y)
  have hw := Span.slice?_append x w y
  have hy := Span.slice?_append (x ++ w) y []
  simp only [byteLength_nil, Nat.zero_add, List.nil_append, List.append_nil, ← List.append_assoc] at hx hy
  have hlen : byteLength source.toList = byteLength (x ++ w) + byteLength y := by rw [h, byteLength_append]
  rw [Span.enclose, Span.text, Span.text, Span.text, hlen, h, hx, byteLength_append, hw, ← byteLength_append, hy]
  refine String.toList_injective ?_
  simp

example : Span.enclose ⟨7, 8⟩ "SELECT a, b" = "SELECT (a), b" := by decide

/-- Parentheses around a run of tokens are two more tokens, if the run follows no operand and no percent sign, and what
follows it is read in one way. -/
theorem scan_enclose {source : String} {before u after : List Lexeme} (h : scan source = .ok (before ++ u ++ after))
    (hu : u ≠ []) (hoperand : endsOperand before = false)
    (hpercent : ∀ l ∈ before.getLast?, l.token ≠ .symbol .percent) (hafter : ∀ t ∈ (after.map Lexeme.token).head?, t.Steady) :
    ∃ first ∈ u.head?, ∃ last ∈ u.getLast?, ∃ lexemes,
      scan (Span.enclose ⟨first.span.start, last.span.stop⟩ source) = .ok lexemes ∧
      lexemes.map Lexeme.token = before.map Lexeme.token ++ .symbol .leftParen ::
        (u.map Lexeme.token ++ .symbol .rightParen :: after.map Lexeme.token) := by
  obtain ⟨ss, hjoin, hss, hlexemes⟩ := scanFrom_eq_ok_iff.mp (scan_ok_iff.mp h)
  obtain ⟨qs, t, us, rs, rfl, rfl, rfl, rfl, hline, first, hfirst, last, hlast, hstart, hstop⟩ :=
    exists_eq_of_run hlexemes hu
  have hnext : Segmented false (qs ++ token t :: (us ++ rs)) [] := by simpa using hss
  rw [map_token_lexemes] at hafter
  have henclosed := hss.enclose (by rw [foldl_operandAfter_false, hoperand]) (fun hlast => ?_)
    hnext.not_endInComment hline hafter
  · refine ⟨first, hfirst, last, hlast, Segment.lexemes 0 (qs ++ token (.symbol .leftParen) ::
      (token t :: us ++ token (.symbol .rightParen) :: rs)), ?_, ?_⟩
    · rw [hstart, hstop, join_append, Span.enclose_append (join qs) (join (token t :: us)) (join rs) (by simp [← hjoin])]
      exact scan_join henclosed (by simp [Token.text, Symbol.spelling])
    · simp only [map_token_lexemes, tokens_append, tokens_token]
  · obtain ⟨ps, rfl⟩ := List.getLast?_eq_some_iff.mp hlast
    simp [lexemes_append, Segment.lexemes] at hpercent

end LedgerQuery
