import LedgerQuery.Proofs.Lexing.Longest
import LedgerQuery.Proofs.Limit.Threshold
import LedgerQuery.Proofs.Reading.Uniform

/-!
# Blanks and comments between tokens

Blanks and comments can be inserted before any token, and at the end, without a change of meaning
(`tokenize_insert`).  The tokens stay the same, and those after the place are shifted.  So the text is
parsed as the same statement, or with the same fault.

There is one exception (`not_tokenize_insert`).  A line comment at the end of a text may have no line
feed.  A block comment that is inserted after it becomes part of the line comment, up to the first line
feed in it, and its rest is read as tokens.
-/

namespace LedgerQuery

open Segment

/-- A text to be inserted: blanks, a closed block comment, or a line comment with its line feed. -/
inductive Trivia : List Char → Prop where
  /-- Blanks. -/
  | blanks {w : List Char} (hne : w ≠ []) (h : ∀ c ∈ w, isBlank c = true) : Trivia w
  /-- A block comment. -/
  | block {body : List Char} (h : ¬ ['*', '/'] <:+: body) : Trivia ('/' :: '*' :: (body ++ ['*', '/']))
  /-- A line comment. -/
  | line {body : List Char} (h : '\n' ∉ body) : Trivia (';' :: (body ++ ['\n']))

/-- Whether a text is a block comment of more than one line. -/
def BlockOverLines (w : List Char) : Prop := ∃ body, w = '/' :: '*' :: body ∧ '\n' ∈ body

/-- Whether a text ends in a line comment without a line feed. -/
def OpenComment (source : String) : Prop :=
  ∃ before body, source.toList = before ++ ';' :: body ∧ '\n' ∉ body ∧
    scan (String.ofList before) = scan source

/-- A lexeme some bytes further on. -/
def Lexeme.shift (n : Nat) (l : Lexeme) : Lexeme := ⟨l.token, ⟨l.span.start + n, l.span.stop + n⟩⟩

/-- The same outcome of parsing: the same statement, or the same fault. -/
inductive SameOutcome : Except ParseError Statement → Except ParseError Statement → Prop where
  /-- The same statement. -/
  | ok {a b : Statement} (h : a.Same b) : SameOutcome (.ok a) (.ok b)
  /-- The same fault. -/
  | error {e e' : ParseError} (h : e.fault = e'.fault) : SameOutcome (.error e) (.error e')

section
variable {operand : Bool} {offset n : Nat} {w ds : List Char} {t : Token} {ss qs rs : List Segment}

/-! ## Segments without tokens -/

theorem segmented_blanks (h : ∀ c ∈ w, isBlank c = true) :
    Segmented operand (w.map fun c => trivia [c]) ds := by
  induction w with
  | nil => trivial
  | cons c w ih =>
    obtain ⟨hc, hw⟩ := List.forall_mem_cons.mp h
    exact ⟨fits_trivia_iff.mpr (.blank hc), ih hw⟩

theorem join_blanks (w : List Char) : join (w.map fun c => trivia [c]) = w := by
  induction w with
  | nil => rfl
  | cons c w ih => simp [ih]

theorem lexemes_blanks (offset : Nat) (w : List Char) :
    lexemes offset (w.map fun c => trivia [c]) = [] := by
  induction w generalizing offset with
  | nil => rfl
  | cons c w ih => exact ih _

/-- What is inserted is read before any text, and has no tokens. -/
theorem Trivia.segmented (h : Trivia w) : ∃ ws, join ws = w ∧ (∀ offset, lexemes offset ws = []) ∧
    ∀ operand ds, Segmented operand ws ds := by
  cases h with
  | blanks hne h => exact ⟨_, join_blanks w, fun o => lexemes_blanks o w, fun _ _ => segmented_blanks h⟩
  | block h => exact ⟨[trivia _], by simp, fun _ => rfl, fun _ _ => ⟨fits_trivia_iff.mpr (.block h), trivial⟩⟩
  | @line body h =>
    refine ⟨[trivia (';' :: body), trivia ['\n']], by simp, fun _ => rfl, fun _ _ => ⟨?_, ?_, trivial⟩⟩
    · exact fits_trivia_iff.mpr (.line h (by simp))
    · exact fits_trivia_iff.mpr (.blank (by decide))

theorem Trivia.separated (h : Trivia w) : Separated (w ++ ds) := by
  cases h with
  | @blanks w hne h =>
    cases w with
    | nil => exact absurd rfl hne
    | cons c w => exact Separator.separated (show Separator [c] [] from .blank (h c (by simp))) (w ++ ds)
  | block h => exact Separator.separated (show Separator _ [] from .block h) ds
  | line h =>
    intro d hd
    obtain rfl : ';' = d := by simpa using hd
    decide

/-- What is inserted on one line, or begins with blanks or as a line comment, is some text on one line
and blanks. -/
theorem Trivia.eq_append (h : Trivia w) (hblock : ¬ BlockOverLines w) : ∃ u v, w = u ++ v ∧ '\n' ∉ u ∧
    (∀ d ∈ v.head?, d = '\n') ∧ ∀ c ∈ v, isBlank c = true := by
  cases h with
  | blanks hne h =>
    refine ⟨w.takeWhile (· ≠ '\n'), w.dropWhile (· ≠ '\n'), (List.takeWhile_append_dropWhile ..).symm,
      fun hm => by simpa using List.mem_takeWhile_imp hm, fun d hd => ?_,
      fun c hc => h c ((List.dropWhile_sublist _).subset hc)⟩
    simpa using head?_dropWhile _ _ d hd
  | @block body h =>
    refine ⟨_, [], (List.append_nil _).symm, fun hm => hblock ⟨_, rfl, ?_⟩, by simp, by simp⟩
    simpa using hm
  | @line body h => exact ⟨';' :: body, ['\n'], rfl, by simpa using h, by simp, by simp [isBlank]⟩

/-! ## Inserting before a segment -/

/-- Blanks and comments can be inserted before a token or at the end. -/
theorem Segmented.insert (h : Segmented operand (qs ++ rs) []) (hw : Trivia w)
    (hopen : EndInComment qs → rs = [] ∧ ¬ BlockOverLines w) :
    ∃ us, join us = join qs ++ w ∧ (∀ offset, lexemes offset us = lexemes offset qs) ∧
      Segmented operand (us ++ rs) [] := by
  obtain ⟨hqs, hrs⟩ := segmented_append.mp h
  have hrs : ∀ us, (∀ offset, lexemes offset us = lexemes offset qs) →
      Segmented operand us (join rs ++ []) → Segmented operand (us ++ rs) [] := fun us hus hseg =>
    segmented_append.mpr ⟨hseg, by rwa [foldl_operandAfter _ 0, hus 0, ← foldl_operandAfter]⟩
  by_cases hq : EndInComment qs
  · obtain ⟨rfl, hblock⟩ := hopen hq
    obtain ⟨body, hlast⟩ := hq
    obtain ⟨ps, rfl⟩ : ∃ ps, qs = ps ++ [trivia (';' :: body)] := List.getLast?_eq_some_iff.mp hlast
    obtain ⟨u, v, rfl, hu, hhead, hv⟩ := hw.eq_append hblock
    obtain ⟨hps, hfit, -⟩ := segmented_append.mp hqs
    have hbody : '\n' ∉ body := by
      cases fits_trivia_iff.mp hfit with
      | blank hc => exact absurd hc (by decide)
      | line hbody _ => exact hbody
    -- the line comment takes in what stands on the same line
    have hus : ∀ offset, lexemes offset (ps ++ trivia (';' :: (body ++ u)) :: v.map fun c => trivia [c]) =
        lexemes offset (ps ++ [trivia (';' :: body)]) := by
      intro offset
      simp [lexemes_append, lexemes, lexemes_blanks]
    refine ⟨_, by simp [join_blanks], hus, hrs _ hus (segmented_append.mpr ⟨?_, ?_, segmented_blanks hv⟩)⟩
    · refine hps.replace (fun d hd => ?_) fun hc => ?_
      · obtain rfl : ';' = d := by simpa using hd
        decide
      · exact absurd (hps.head?_of_endInComment hc ';' (by simp)) (by decide)
    · exact fits_trivia_iff.mpr (.line (by simp [hbody, hu]) (by simpa [join_blanks] using hhead))
  · obtain ⟨ws, rfl, hnone, hws⟩ := hw.segmented
    have hus : ∀ offset, lexemes offset (qs ++ ws) = lexemes offset qs := by simp [lexemes_append, hnone]
    refine ⟨qs ++ ws, by simp, hus, hrs _ hus (segmented_append.mpr ⟨?_, hws _ _⟩)⟩
    exact hqs.replace hw.separated fun hc => absurd hc hq

theorem lexemes_shift (offset n : Nat) (ss : List Segment) :
    lexemes (offset + n) ss = (lexemes offset ss).map (Lexeme.shift n) := by
  induction ss generalizing offset with
  | nil => rfl
  | cons s ss ih =>
    cases s <;> simp only [lexemes, List.map_cons, ← ih, Lexeme.shift, Nat.add_right_comm]

/-- A text that ends in a line comment is a text with an open comment. -/
theorem openComment_of_segmented {source : String} (h : Segmented false ss [])
    (hjoin : join ss = source.toList) (hs : EndInComment ss) : OpenComment source := by
  obtain ⟨body, hlast⟩ := hs
  obtain ⟨ps, rfl⟩ : ∃ ps, ss = ps ++ [trivia (';' :: body)] := List.getLast?_eq_some_iff.mp hlast
  obtain ⟨hps, hfit, -⟩ := segmented_append.mp h
  have hbody : '\n' ∉ body := by
    cases fits_trivia_iff.mp hfit with
    | blank hc => exact absurd hc (by decide)
    | line hbody _ => exact hbody
  have hend : Segmented false ps [] := hps.replace separated_nil fun _ => by simp
  have hscan : scan source = .ok (lexemes 0 ps) := by
    refine scan_ok_iff.mpr (scanFrom_eq_ok_iff.mpr ⟨_, hjoin, h, ?_⟩)
    simp [lexemes_append, lexemes]
  refine ⟨join ps, body, by simpa using hjoin.symm, hbody, ?_⟩
  rw [hscan]
  exact scan_ok_iff.mpr (scanFrom_eq_ok_iff.mpr ⟨ps, by simp, hend, rfl⟩)

end

/-! ## Inserting into a text -/

/-- Texts with the same tokens are parsed alike. -/
theorem parse_sameOutcome {source source' : String} {lexemes lexemes' : List Lexeme}
    (h : scan source = .ok lexemes) (h' : scan source' = .ok lexemes')
    (htokens : lexemes.map Lexeme.token = lexemes'.map Lexeme.token) (limit : Nat) :
    SameOutcome (parse source limit) (parse source' limit) := by
  unfold parse
  rw [parseSpanned_eq h, parseSpanned_eq h']
  have halike := parseLexemes_alike limit htokens
  generalize parseLexemes lexemes limit = x at halike ⊢
  generalize parseLexemes lexemes' limit = y at halike ⊢
  cases halike with
  | ok hab => exact .ok hab
  | error h => exact .error rfl

/-- Blanks and comments inserted before a token or at the end change no token and no meaning. -/
theorem tokenize_insert {source : String} {before after : List Lexeme} {l : Lexeme} {w : List Char}
    (h : tokenize source = .ok (before ++ l :: after)) (hw : Trivia w)
    (hopen : ¬ (after = [] ∧ OpenComment source ∧ BlockOverLines w)) :
    ∃ x y, source.toList = x ++ y ∧ byteLength x = l.span.start ∧
      tokenize (String.ofList (x ++ w ++ y)) =
        .ok (before ++ (l :: after).map (Lexeme.shift (byteLength w))) ∧
      ∀ limit, SameOutcome (parse source limit) (parse (String.ofList (x ++ w ++ y)) limit) := by
  obtain ⟨lexemes, hscan, htokens⟩ := exists_scan_of_tokenize h
  obtain ⟨ss, hjoin, hss, rfl⟩ := scanFrom_eq_ok_iff.mp (scan_ok_iff.mp hscan)
  obtain ⟨rest, hrest, hl⟩ := append_eq_append_concat htokens.symm
  have hstop : endOfText source = ⟨byteLength (join ss), byteLength (join ss)⟩ := by rw [endOfText, hjoin]
  -- the segments before the place, and those after it
  obtain ⟨qs, rs, rfl, rfl, hstart, rfl, hcut⟩ : ∃ qs rs, ss = qs ++ rs ∧ Segment.lexemes 0 qs = before ∧
      byteLength (join qs) = l.span.start ∧ Segment.lexemes (byteLength (join qs)) rs = rest ∧
      (EndInComment qs → rs = []) := by
    cases rest with
    | nil =>
      obtain ⟨rfl, -⟩ := List.cons.inj hl
      refine ⟨ss, [], by simp, by simpa using hrest, by rw [hstop], rfl, fun _ => rfl⟩
    | cons l' rest =>
      obtain ⟨rfl, -⟩ := List.cons.inj hl
      obtain ⟨qs, t, rs, rfl, rfl, rfl, rfl⟩ := exists_eq_of_lexemes hrest
      refine ⟨qs, token t :: rs, rfl, rfl, by simp, by simp [Segment.lexemes], fun hq => ?_⟩
      exact absurd hq hss.not_endInComment
  obtain ⟨us, hus, hlexemes, hseg⟩ := hss.insert hw fun hq => by
    obtain rfl := hcut hq
    refine ⟨rfl, fun hblock => hopen ⟨?_, openComment_of_segmented hss hjoin (by simpa using hq), hblock⟩⟩
    exact (List.cons.inj hl).2.symm
  have hscan' : scan (String.ofList (join qs ++ w ++ join rs)) =
      .ok (Segment.lexemes 0 qs ++ (Segment.lexemes (byteLength (join qs)) rs).map (Lexeme.shift (byteLength w))) := by
    refine scan_ok_iff.mpr (scanFrom_eq_ok_iff.mpr ⟨us ++ rs, by simp [hus], hseg, ?_⟩)
    rw [lexemes_append, hlexemes, hus, byteLength_append, Nat.zero_add, lexemes_shift]
  refine ⟨join qs, join rs, by rw [← hjoin, join_append], hstart, ?_, fun limit => ?_⟩
  · have hend : endOfText (String.ofList (join qs ++ w ++ join rs)) =
        (Lexeme.shift (byteLength w) ⟨.eof, endOfText source⟩).span := by
      simp [endOfText, Lexeme.shift, ← hjoin]
      omega
    rw [← hl, List.map_append, ← List.append_assoc, tokenize, hscan']
    simp only [bind, Except.bind, pure, Except.pure, hend, List.map_cons, List.map_nil]
    rfl
  · refine parse_sameOutcome hscan hscan' ?_ limit
    simp [lexemes_append, Lexeme.shift]

/-- A block comment between a division sign and its operand. -/
theorem tokenize_insert_slash :
    let before : List Lexeme := [⟨.keyword .select "SELECT", ⟨0, 6⟩⟩, ⟨.ident "a", ⟨7, 8⟩⟩,
      ⟨.symbol .slash, ⟨8, 9⟩⟩]
    let l : Lexeme := ⟨.ident "b", ⟨9, 10⟩⟩
    let after : List Lexeme := [⟨.eof, ⟨10, 10⟩⟩]
    let w := ['/', '*', '*', '/']
    tokenize "SELECT a/b" = .ok (before ++ l :: after) ∧ Trivia w ∧
      ¬ (after = [] ∧ OpenComment "SELECT a/b" ∧ BlockOverLines w) ∧
      ∃ x y, "SELECT a/b".toList = x ++ y ∧ byteLength x = l.span.start ∧
        tokenize (String.ofList (x ++ w ++ y)) =
          .ok (before ++ (l :: after).map (Lexeme.shift (byteLength w))) ∧
        ∀ limit, SameOutcome (parse "SELECT a/b" limit) (parse (String.ofList (x ++ w ++ y)) limit) := by
  intro before l after w
  have h : tokenize "SELECT a/b" = .ok (before ++ l :: after) := by cbv
  have hw : Trivia w := @Trivia.block [] (by decide)
  have hopen : ¬ (after = [] ∧ OpenComment "SELECT a/b" ∧ BlockOverLines w) := by
    rintro ⟨hnil, -⟩
    exact absurd hnil (List.cons_ne_nil _ _)
  exact ⟨h, hw, hopen, tokenize_insert h hw hopen⟩

/-- A block comment of two lines after an open line comment leaves a star and a slash behind. -/
theorem not_tokenize_insert : ¬ ∀ (source : String) (before after : List Lexeme) (l : Lexeme)
    (w : List Char), tokenize source = .ok (before ++ l :: after) → Trivia w →
    ∃ x y, source.toList = x ++ y ∧ byteLength x = l.span.start ∧
      tokenize (String.ofList (x ++ w ++ y)) =
        .ok (before ++ (l :: after).map (Lexeme.shift (byteLength w))) := by
  intro hall
  obtain ⟨x, y, hxy, hx, htokens⟩ := hall "a;c" [⟨.ident "a", ⟨0, 1⟩⟩] [] ⟨.eof, ⟨3, 3⟩⟩
    ['/', '*', '\n', '*', '/'] (by cbv) (@Trivia.block ['\n'] (by decide))
  have hsplit : x ++ y = ['a', ';', 'c'] ++ [] := by rw [← hxy]; rfl
  obtain ⟨rfl, rfl⟩ := append_inj_of_byteLength hsplit (by rw [hx]; rfl)
  have hfound : tokenize (String.ofList (['a', ';', 'c'] ++ ['/', '*', '\n', '*', '/'] ++ [])) =
      .ok [⟨.ident "a", ⟨0, 1⟩⟩, ⟨.symbol .star, ⟨6, 7⟩⟩, ⟨.symbol .slash, ⟨7, 8⟩⟩, ⟨.eof, ⟨8, 8⟩⟩] := by cbv
  rw [hfound] at htokens
  exact absurd (congrArg List.length (Except.ok.inj htokens)) (by decide)

end LedgerQuery
