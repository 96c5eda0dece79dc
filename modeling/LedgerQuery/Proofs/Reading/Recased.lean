import LedgerQuery.Proofs.Lexing.Recased
import LedgerQuery.Proofs.Limit.Threshold
import LedgerQuery.Proofs.Reading.WindowGrammar

/-!
# Parsing does not see the case of reserved keywords

If reserved keywords are written in letters of other case, a text has the same tokens in the same places, and
the same statement or the same error (`outcome_recased`).  Nothing of this needs the text to be a query, or even
to have tokens up to its end.

It needs that no placeholder is read with a `SELECT`.  In `%(a)SELECT` there are five tokens, but in
`%(a)sELECT` the first one is the placeholder `%(a)s`, and a name follows it (`not_outcome_recased`).
-/

namespace LedgerQuery

open Segment LedgerQuery.Parser

/-! ## Places -/

section
variable {cs ds : List Char}

theorem splitAtByte?_alike (h : TextAlike cs ds) (n : Nat) :
    Option.Rel (fun x y => TextAlike x.1 y.1 ∧ TextAlike x.2 y.2) (splitAtByte? cs n) (splitAtByte? ds n) := by
  induction h generalizing n with
  | nil => cases n <;> first | exact .some ⟨.nil, .nil⟩ | exact .none
  | @cons c d cs ds hc h ih =>
    cases n with
    | zero => exact .some ⟨.nil, .cons hc h⟩
    | succ n =>
      rw [splitAtByte?, splitAtByte?, hc.utf8Size]
      split
      · have hrel := ih (n + 1 - d.utf8Size)
        generalize splitAtByte? cs (n + 1 - d.utf8Size) = x at hrel ⊢
        generalize splitAtByte? ds (n + 1 - d.utf8Size) = y at hrel ⊢
        cases hrel with
        | none => exact .none
        | some h => exact .some ⟨.cons hc h.1, h.2⟩
      · exact .none

theorem Location.next_alike (l : Location) {c d : Char} (h : LetterAlike c d) : l.next c = l.next d := by
  have hline : c = '\n' ↔ d = '\n' := h.eq_iff (by decide)
  rw [next, next, h.utf8Size]
  simp only [hline]

theorem Location.after_alike (h : TextAlike cs ds) : Location.after cs = Location.after ds := by
  unfold Location.after
  generalize Location.origin = l
  induction h generalizing l with
  | nil => rfl
  | cons hc _ ih => rw [List.foldl_cons, List.foldl_cons, l.next_alike hc, ih]

/-- The place of an offset is the same in texts that are alike. -/
theorem Location.ofOffset_alike (h : TextAlike cs ds) (n : Nat) : ofOffset cs n = ofOffset ds n := by
  have hrel := splitAtByte?_alike h n
  rw [ofOffset, ofOffset, after_alike h, h.byteLength]
  generalize splitAtByte? cs n = x at hrel ⊢
  generalize splitAtByte? ds n = y at hrel ⊢
  cases hrel with
  | none => rfl
  | some h => exact after_alike h.1

end

/-! ## Tokens -/

section
variable {source source' : String} {operand : Bool} {ss ss' : List Segment} {ds : List Char} {limit : Nat}

/-- Segments in letters of other case have the same lexemes up to the spelling of reserved keywords. -/
theorem map_folded_lexemes (h : Segmented operand ss ds) (hr : List.Forall₂ Segment.Recased ss ss') (offset : Nat) :
    (lexemes offset ss).map Lexeme.folded = (lexemes offset ss').map Lexeme.folded := by
  induction hr generalizing operand offset with
  | nil => rfl
  | @cons s s' ss ss' hs hr ih =>
    have hlen := (hs.alike h.1).byteLength
    cases hs with
    | same =>
      cases s with
      | token t => simp only [lexemes, List.map_cons, ih h.2]
      | trivia w => simp only [lexemes, ih h.2]
    | @keyword k w w' hk hw =>
      have hlen : byteLength w.toList = byteLength w'.toList := hlen
      simp only [lexemes, List.map_cons, ih h.2, Token.text, hlen, Lexeme.folded, Token.folded, if_pos hk]

/-- Whether a source is another one with reserved keywords in letters of other case.  Up to some place they are
among the segments that the source is read as, and from there on the sources are the same. -/
structure RecasedAs (source source' : String) (ss ss' : List Segment) (ds : List Char) : Prop where
  /-- The source is read as segments, up to a place. -/
  read : source.toList = join ss ++ ds ∧ Segmented false ss ds
  /-- The segments differ in letters of reserved keywords. -/
  recased : List.Forall₂ Segment.Recased ss ss'
  /-- The other source is made up of the other segments. -/
  text : source'.toList = join ss' ++ ds

namespace RecasedAs

theorem alike (h : RecasedAs source source' ss ss' ds) : TextAlike source.toList source'.toList := by
  rw [h.read.1, h.text]
  exact (join_alike h.read.2 h.recased).append (.refl ds)

/-- An error at a span is the same in both sources. -/
theorem locate (h : RecasedAs source source' ss ss' ds) (fault : Fault) (span : Span) :
    ParseError.locate source' fault span = ParseError.locate source fault span := by
  rw [ParseError.locate, ParseError.locate, Location.ofOffset_alike h.alike]

theorem endOfText (h : RecasedAs source source' ss ss' ds) : endOfText source' = endOfText source := by
  rw [LedgerQuery.endOfText, LedgerQuery.endOfText, h.alike.byteLength]

/-- Both sources have the same lexemes up to the spelling of reserved keywords, or the same error. -/
theorem scan (h : RecasedAs source source' ss ss' ds) (hs : ¬ SpellsPlaceholder false ss') :
    (∃ e, scan source = .error e ∧ scan source' = .error e) ∨
      ∃ lexemes lexemes', scan source = .ok lexemes ∧ scan source' = .ok lexemes' ∧
        lexemes.map Lexeme.folded = lexemes'.map Lexeme.folded := by
  have hread := @scanFrom_join _ _ _ 0 h.read.2
  have hread' := @scanFrom_join _ _ _ 0 (h.read.2.recase h.recased hs)
  rw [← foldl_operandAfter_recased h.recased, ← (join_alike h.read.2 h.recased).byteLength, ← h.text] at hread'
  rw [← h.read.1] at hread
  unfold LedgerQuery.scan
  rw [hread, hread']
  rcases scanFrom (ss.foldl Segment.operandAfter false) (0 + byteLength (join ss)) 0 ds with ⟨fault, span⟩ | rest
  · exact .inl ⟨_, rfl, congrArg Except.error (h.locate fault span)⟩
  · exact .inr ⟨_, _, rfl, rfl, by
      rw [List.map_append, List.map_append, map_folded_lexemes h.read.2 h.recased]⟩

end RecasedAs

/-! ## Statements and errors -/

/-- Lexemes that are the same up to the spelling of reserved keywords are read the same. -/
theorem parseLexemes_folded {lexemes lexemes' : List Lexeme}
    (h : lexemes.map Lexeme.folded = lexemes'.map Lexeme.folded) :
    (∃ r, parseLexemes lexemes limit = .ok r ∧ parseLexemes lexemes' limit = .ok r) ∨
      ∃ fault rest rest', parseLexemes lexemes limit = .error ⟨fault, rest⟩ ∧
        parseLexemes lexemes' limit = .error ⟨fault, rest'⟩ ∧ Meets rest rest' := by
  have hv : Meets [] [] := ⟨rfl, rfl⟩
  have hagree : AgreeUpTo [] [] lexemes lexemes' := ⟨lexemes, lexemes', by simp, by simp, h⟩
  have hrun := (@wholeText_tracks _ _ _ _ limit hv hagree).resolve_left (Nat.not_lt_zero _)
  unfold parseLexemes
  generalize wholeText (nested limit limit) (Input.start lexemes) = x at hrun ⊢
  generalize wholeText (nested limit limit) (Input.start lexemes') = y at hrun ⊢
  cases hrun with
  | ok hs => exact .inl ⟨_, rfl, rfl⟩
  | error hrest => exact .inr ⟨_, _, _, rfl, rfl, hrest.meets hv⟩

/-- Reserved keywords in letters of other case change no token but in its spelling, no statement and no error,
unless a placeholder is read with a `SELECT`. -/
theorem outcome_recased (h : RecasedAs source source' ss ss' ds) (hs : ¬ SpellsPlaceholder false ss') (limit : Nat) :
    (tokenize source').map (List.map Lexeme.folded) = (tokenize source).map (List.map Lexeme.folded) ∧
      parseSpanned source' limit = parseSpanned source limit ∧ parse source' limit = parse source limit := by
  suffices hboth : (tokenize source').map (List.map Lexeme.folded) = (tokenize source).map (List.map Lexeme.folded) ∧
      parseSpanned source' limit = parseSpanned source limit by
    exact ⟨hboth.1, hboth.2, congrArg (Except.map Prod.fst) hboth.2⟩
  rcases h.scan hs with ⟨e, hscan, hscan'⟩ | ⟨lexemes, lexemes', hscan, hscan', hfolded⟩
  · simp only [tokenize, parseSpanned, hscan, hscan', bind, Except.bind, and_self]
  · constructor
    · simp only [tokenize, hscan, hscan', bind, Except.bind, pure, Except.pure, Except.map, List.map_append, hfolded,
        h.endOfText]
    · rw [parseSpanned_eq hscan, parseSpanned_eq hscan']
      rcases @parseLexemes_folded limit _ _ hfolded with ⟨r, hr, hr'⟩ | ⟨fault, rest, rest', hstop, hstop', hmeets⟩
      · rw [hr, hr']
        rfl
      · have hspan : (rest'.head?.map Lexeme.span).getD (LedgerQuery.endOfText source') =
            (rest.head?.map Lexeme.span).getD (LedgerQuery.endOfText source) := by rw [hmeets.span, h.endOfText]
        rw [hstop, hstop']
        show Except.error (ParseError.locate source' fault _) = Except.error (ParseError.locate source fault _)
        rw [hspan, h.locate]

/-- Letters of other case in a `SELECT` and a `FROM`, but not in a name. -/
theorem outcome_recased_query :
    let source := "SELECT %s FROM Close"
    let source' := "select %s frOM Close"
    (tokenize source').map (List.map Lexeme.folded) = (tokenize source).map (List.map Lexeme.folded) ∧
      parseSpanned source' 8 = parseSpanned source 8 ∧ parse source' 8 = parse source 8 := by
  intro source source'
  let segments (select «from» : String) : List Segment := [token (.keyword .select select), trivia [' '],
    token (.placeholder .positional), trivia [' '], token (.keyword .from «from»), trivia [' '],
    token (.keyword .close "Close")]
  have h : RecasedAs source source' (segments "SELECT" "FROM") (segments "select" "frOM") [] := by
    refine ⟨⟨by decide, ?_⟩, ?_, by decide⟩
    · exact ⟨⟨_, _, rfl, rfl⟩, ⟨_, _, rfl, rfl⟩, ⟨_, _, rfl, rfl⟩, ⟨_, _, rfl, rfl⟩, ⟨_, _, rfl, rfl⟩, ⟨_, _, rfl, rfl⟩,
        ⟨_, _, rfl, rfl⟩, trivial⟩
    · exact .cons (.keyword rfl (by decide)) (.cons (.same _) (.cons (.same _) (.cons (.same _)
        (.cons (.keyword rfl (by decide)) (.cons (.same _) (.cons (.same _) .nil))))))
  refine outcome_recased h ?_ 8
  rintro ⟨before, after, he, -⟩
  have hmem : token (.symbol .percent) ∈ segments "select" "frOM" := by
    rw [he]
    simp
  simp [segments] at hmem

/-- A `SELECT` after a percent sign and a name in parentheses cannot be written with a small `s`. -/
theorem not_outcome_recased : ¬ ∀ source source' ss ss' ds, RecasedAs source source' ss ss' ds → ∀ limit,
    (tokenize source').map (List.map Lexeme.folded) = (tokenize source).map (List.map Lexeme.folded) ∧
      parseSpanned source' limit = parseSpanned source limit ∧ parse source' limit = parse source limit := by
  intro h
  let segments (select : String) : List Segment := [token (.symbol .percent), token (.symbol .leftParen),
    token (.ident "a"), token (.symbol .rightParen), token (.keyword .select select)]
  have hr : RecasedAs "%(a)SELECT" "%(a)sELECT" (segments "SELECT") (segments "sELECT") [] := by
    refine ⟨⟨by decide, ?_⟩, ?_, by decide⟩
    · exact ⟨⟨_, _, rfl, rfl⟩, ⟨_, _, rfl, rfl⟩, ⟨_, _, rfl, rfl⟩, ⟨_, _, rfl, rfl⟩, ⟨_, _, rfl, rfl⟩, trivial⟩
    · exact .cons (.same _) (.cons (.same _) (.cons (.same _) (.cons (.same _)
        (.cons (.keyword rfl (by decide)) .nil))))
  obtain ⟨htokens, -⟩ := h _ _ _ _ _ hr 64
  have hread : tokenize "%(a)SELECT" = .ok [⟨.symbol .percent, ⟨0, 1⟩⟩, ⟨.symbol .leftParen, ⟨1, 2⟩⟩,
      ⟨.ident "a", ⟨2, 3⟩⟩, ⟨.symbol .rightParen, ⟨3, 4⟩⟩, ⟨.keyword .select "SELECT", ⟨4, 10⟩⟩,
      ⟨.eof, ⟨10, 10⟩⟩] := by cbv
  have hread' : tokenize "%(a)sELECT" = .ok [⟨.placeholder (.named "a"), ⟨0, 5⟩⟩, ⟨.ident "ELECT", ⟨5, 10⟩⟩,
      ⟨.eof, ⟨10, 10⟩⟩] := by cbv
  rw [hread, hread'] at htokens
  have hlen := congrArg (fun r => r.toOption.map List.length) htokens
  simp [Except.map, Except.toOption] at hlen

end

end LedgerQuery
