import LedgerQuery.Proofs.Reading.Insertion

/-!
# Where scanning gets stuck

Scanning fails exactly where it has read some text and gets stuck on the rest (`tokenize_eq_error_iff`).  It gets
stuck on a quote that has no partner, on a block comment without an end, and on a character that begins neither a
token nor a separator.

What was read before is scanned alone, because the character where scanning gets stuck divides.  Conversely any text
that is scanned alone is read before such a character, unless it ends in a line comment, which would go on.
-/

namespace LedgerQuery

open Segment

/-! ## Stuck texts -/

/-- The characters that begin a token or a separator and are no letters, digits, blanks or quotes. -/
def signs : List Char :=
  ['#', '%', ';', '(', ')', '[', ']', ',', '.', '*', '/', '+', '-', '=', '<', '>', '~']

/-- Whether a character begins neither a token nor a separator before some text. -/
structure StartsNothing (c : Char) (cs : List Char) : Prop where
  /-- It is no letter, digit or underscore. -/
  notWord : isWordChar c = false
  /-- It is no blank. -/
  notBlank : isBlank c = false
  /-- It is no quote. -/
  notQuote : ∀ quote : QuoteStyle, c ≠ quote.char
  /-- It is no sign. -/
  notSign : c ∉ signs
  /-- It begins no sign of two characters. -/
  notPair : c = '!' → ∀ d ∈ cs.head?, d ≠ '=' ∧ d ≠ '~'

/-- Whether scanning is stuck at the front of a text, for which fault, and which characters this concerns. -/
inductive Stuck : List Char → Fault → List Char → Prop where
  /-- A quote that does not occur again. -/
  | string {quote : QuoteStyle} {cs : List Char} (h : quote.char ∉ cs) :
    Stuck (quote.char :: cs) .unterminatedString (quote.char :: cs)
  /-- A block comment without an end. -/
  | comment {body : List Char} (h : ¬ ['*', '/'] <:+: body) :
    Stuck ('/' :: '*' :: body) .unterminatedComment ('/' :: '*' :: body)
  /-- A character that begins nothing. -/
  | char {c : Char} {cs : List Char} (h : StartsNothing c cs) : Stuck (c :: cs) (.unexpectedChar c) [c]

section
variable {operand : Bool} {c : Char} {cs ds w : List Char} {f : Fault} {n : Nat} {ss us : List Segment}

/-- Every text where scanning is stuck begins with a character that divides. -/
theorem Stuck.separated (h : Stuck cs f w) : Separated cs := by
  intro d hd
  cases h with
  | @string quote cs hquote =>
    obtain rfl : quote.char = d := by simpa using hd
    cases quote <;> decide
  | comment hbody =>
    obtain rfl : '/' = d := by simpa using hd
    decide
  | @char c cs hstarts =>
    obtain rfl : c = d := by simpa using hd
    refine ⟨hstarts.notWord, fun hmem => hstarts.notSign ?_⟩
    simp only [List.mem_cons, List.not_mem_nil, or_false] at hmem
    rcases hmem with rfl | rfl | rfl | rfl | rfl | rfl <;> decide

theorem Stuck.ne_lineFeed (h : Stuck cs f w) : ∀ d ∈ cs.head?, d ≠ '\n' := by
  rintro d hd rfl
  cases h with
  | @string quote cs _ => cases quote <;> exact absurd hd (by simp [QuoteStyle.char])
  | comment _ => exact absurd hd (by simp)
  | @char c cs hstarts =>
    obtain rfl : c = '\n' := by simpa using hd
    exact absurd hstarts.notBlank (by decide)

/-! ## Faults at the front of a text -/

theorem frontNumber_ne_fault : frontNumber c cs ≠ (.fault f, n) := by
  unfold frontNumber
  simp only
  split
  · simp
  · split <;> simp

/-- A string has no end exactly if its quote does not occur again. -/
theorem frontString_eq_fault_iff {quote : QuoteStyle} : frontString quote cs = (.fault f, n) ↔
    quote.char ∉ cs ∧ f = .unterminatedString ∧ n = cs.length := by
  have hle : ¬ (cs.takeWhile (· ≠ quote.char)).length < cs.length ↔ quote.char ∉ cs := by
    rw [Nat.not_lt]
    constructor
    · intro hle hmem
      have hall := List.takeWhile_eq_self_iff.mp ((List.takeWhile_prefix _).eq_of_length_le hle)
      simpa using hall _ hmem
    · intro hmem
      rw [List.takeWhile_eq_self_iff.mpr fun d hd => by simpa using fun he : d = quote.char => hmem (he ▸ hd)]
  rw [← hle]
  unfold frontString
  simp only
  split
  · next hlt => exact ⟨nofun, fun h => absurd hlt h.1⟩
  · next hnot =>
    constructor
    · rintro ⟨⟩
      exact ⟨hnot, rfl, rfl⟩
    · rintro ⟨-, rfl, rfl⟩
      rfl

/-- A block comment has no end exactly if no end mark occurs. -/
theorem commentLength?_eq_none_iff : commentLength? cs = none ↔ ¬ ['*', '/'] <:+: cs := by
  fun_induction commentLength? cs with
  | case1 cs => simpa using List.infix_append [] ['*', '/'] cs
  | case2 d cs hstop ih =>
    rw [Option.map_eq_none_iff, ih, List.infix_cons_iff, not_or]
    refine ⟨fun h => ⟨?_, h⟩, And.right⟩
    rintro ⟨rest, he⟩
    obtain ⟨rfl, rfl⟩ := List.cons.inj he
    exact hstop rest rfl rfl
  | case3 => simp

/-- A text begins with no symbol exactly if none is its prefix. -/
theorem leading?_eq_none_iff {cs : List Char} :
    Symbol.leading? cs = none ↔ ∀ s : Symbol, ¬ s.spelling.toList <+: cs := by
  rw [Symbol.leading?, Symbol.longestFirst_eq, List.find?_eq_none]
  simp only [List.isPrefixOf_iff_prefix]
  exact ⟨fun h s => h s (by cases s <;> decide), fun h s _ => h s⟩

theorem frontSymbol_eq_fault_iff : frontSymbol c cs = (.fault f, n) ↔
    (∀ s : Symbol, ¬ s.spelling.toList <+: c :: cs) ∧ f = .unexpectedChar c ∧ n = 0 := by
  rw [← leading?_eq_none_iff]
  unfold frontSymbol
  split
  · next s hs => simp [hs]
  · next hs => simp [hs, eq_comm]

theorem startsNothing_of_symbols (hblank : isBlank c = false) (hword : isWordStart c = false)
    (hdigit : c.isDigit = false) (hquote : ∀ quote : QuoteStyle, c ≠ quote.char) (htable : c ≠ '#') (hline : c ≠ ';')
    (hsymbol : ∀ s : Symbol, ¬ s.spelling.toList <+: c :: cs) : StartsNothing c cs where
  notWord := by
    simp only [isWordStart, Bool.or_eq_false_iff] at hword
    simp [isWordChar, Char.isAlphanum, hword, hdigit]
  notBlank := hblank
  notQuote := hquote
  notSign hmem := by
    simp only [signs, List.mem_cons, List.not_mem_nil, or_false] at hmem
    rcases hmem with rfl | rfl | rfl | rfl | rfl | rfl | rfl | rfl | rfl | rfl | rfl | rfl | rfl | rfl | rfl | rfl | rfl
    · exact htable rfl
    · exact hsymbol .percent ⟨cs, rfl⟩
    · exact hline rfl
    · exact hsymbol .leftParen ⟨cs, rfl⟩
    · exact hsymbol .rightParen ⟨cs, rfl⟩
    · exact hsymbol .leftBracket ⟨cs, rfl⟩
    · exact hsymbol .rightBracket ⟨cs, rfl⟩
    · exact hsymbol .comma ⟨cs, rfl⟩
    · exact hsymbol .dot ⟨cs, rfl⟩
    · exact hsymbol .star ⟨cs, rfl⟩
    · exact hsymbol .slash ⟨cs, rfl⟩
    · exact hsymbol .plus ⟨cs, rfl⟩
    · exact hsymbol .minus ⟨cs, rfl⟩
    · exact hsymbol .equal ⟨cs, rfl⟩
    · exact hsymbol .less ⟨cs, rfl⟩
    · exact hsymbol .greater ⟨cs, rfl⟩
    · exact hsymbol .tilde ⟨cs, rfl⟩
  notPair := by
    rintro rfl d hd
    obtain ⟨rest, rfl⟩ := List.head?_eq_some_iff.mp (Option.mem_def.mp hd)
    refine ⟨?_, ?_⟩
    · rintro rfl
      exact hsymbol .notEqual ⟨rest, rfl⟩
    · rintro rfl
      exact hsymbol .notTilde ⟨rest, rfl⟩

/-- No symbol begins with a character that begins nothing. -/
theorem StartsNothing.not_prefix (h : StartsNothing c cs) (s : Symbol) : ¬ s.spelling.toList <+: c :: cs := by
  rintro ⟨rest, he⟩
  cases s
  case notEqual =>
    obtain ⟨rfl, rfl⟩ : '!' = c ∧ '=' :: rest = cs := List.cons.inj he
    exact (h.notPair rfl '=' rfl).1 rfl
  case notTilde =>
    obtain ⟨rfl, rfl⟩ : '!' = c ∧ '~' :: rest = cs := List.cons.inj he
    exact (h.notPair rfl '~' rfl).2 rfl
  all_goals
    obtain ⟨rfl, -⟩ := List.cons.inj he
    exact h.notSign (by decide)

/-- Where a fault is found at the front of a text, scanning is stuck. -/
theorem stuck_of_front (h : front operand c cs = (.fault f, n)) : Stuck (c :: cs) f (c :: cs.take n) := by
  unfold front at h
  split at h
  · simp at h
  next hblank =>
  split at h
  · simp at h
  next hword =>
  split at h
  · exact absurd h frontNumber_ne_fault
  next hdigit =>
  simp only [Bool.not_eq_true] at hblank hword hdigit
  -- a character that begins nothing, if it is none of those that are looked for
  have begins : (∀ quote : QuoteStyle, c ≠ quote.char) → c ≠ '#' → c ≠ ';' → frontSymbol c cs = (.fault f, n) →
      Stuck (c :: cs) f (c :: cs.take n) := fun hquote htable hline h => by
    obtain ⟨hsymbol, rfl, rfl⟩ := frontSymbol_eq_fault_iff.mp h
    exact .char (startsNothing_of_symbols hblank hword hdigit hquote htable hline hsymbol)
  split at h
  · obtain ⟨hquote, rfl, rfl⟩ := frontString_eq_fault_iff.mp h
    rw [List.take_length]
    exact @Stuck.string .single cs hquote
  · obtain ⟨hquote, rfl, rfl⟩ := frontString_eq_fault_iff.mp h
    rw [List.take_length]
    exact @Stuck.string .double cs hquote
  · simp at h
  · simp at h
  · next body =>
    unfold frontComment at h
    split at h
    · simp at h
    · next hnone =>
      obtain ⟨⟨⟩, rfl⟩ := Prod.mk.inj h
      rw [List.take_succ_cons, List.take_length]
      exact .comment (commentLength?_eq_none_iff.mp hnone)
  · split at h
    · simp at h
    · exact absurd (frontSymbol_eq_fault_iff.mp h).1 fun hall => hall .dot ⟨_, rfl⟩
  · split at h
    · simp at h
    · exact absurd (frontSymbol_eq_fault_iff.mp h).1 fun hall => hall .percent ⟨_, rfl⟩
  · next hsingle hdouble htable hline hslash hdot hpercent =>
    exact begins (fun quote => by cases quote; exacts [hsingle, hdouble]) htable hline h

/-- Where scanning is stuck, a fault is found. -/
theorem Stuck.front_eq (h : Stuck (c :: cs) f w) : ∃ n, front operand c cs = (.fault f, n) ∧ w = c :: cs.take n := by
  cases h with
  | @string quote _ hquote =>
    refine ⟨cs.length, ?_, by rw [List.take_length]⟩
    have hstring : frontString quote cs = (.fault .unterminatedString, cs.length) :=
      frontString_eq_fault_iff.mpr ⟨hquote, rfl, rfl⟩
    cases quote <;> exact hstring
  | @comment body hbody =>
    refine ⟨body.length + 1, ?_, by rw [List.take_succ_cons, List.take_length]⟩
    rw [front_block, frontComment, commentLength?_eq_none_iff.mpr hbody]
  | char hstarts =>
    refine ⟨0, ?_, rfl⟩
    have hsymbol : frontSymbol c cs = (.fault (.unexpectedChar c), 0) :=
      frontSymbol_eq_fault_iff.mpr ⟨hstarts.not_prefix, rfl, rfl⟩
    have hword : isWordStart c = false := by
      rw [← Bool.not_eq_true]
      exact fun hw => absurd (isWordStart_imp hw) (by simp [hstarts.notWord])
    have hdigit : c.isDigit = false := by
      have hnot := hstarts.notWord
      simp only [isWordChar, Char.isAlphanum, Bool.or_eq_false_iff] at hnot
      exact hnot.1.2
    unfold front
    rw [if_neg (by simp [hstarts.notBlank]), if_neg (by simp [hword]), if_neg (by simp [hdigit])]
    split
    · exact absurd rfl (hstarts.notQuote .single)
    · exact absurd rfl (hstarts.notQuote .double)
    · exact absurd (by decide) hstarts.notSign
    · exact absurd (by decide) hstarts.notSign
    · exact absurd (by decide) hstarts.notSign
    · exact absurd (by decide) hstarts.notSign
    · exact absurd (by decide) hstarts.notSign
    · exact hsymbol

/-! ## Stuck after some segments -/

/-- Scanning fails exactly where some segments have been read and it is stuck on the rest. -/
theorem scanFrom_eq_error_iff {offset : Nat} {span : Span} : scanFrom operand offset 0 cs = .error (f, span) ↔
    ∃ ss rest w, join ss ++ rest = cs ∧ Segmented operand ss rest ∧ Stuck rest f w ∧
      span = ⟨offset + byteLength (join ss), offset + byteLength (join ss) + byteLength w⟩ := by
  constructor
  · induction hn : cs.length using Nat.strong_induction_on generalizing operand cs offset with
    | _ n ih =>
      intro h
      cases cs with
      | nil => cases h
      | cons c cs =>
        rw [scanFrom] at h
        rcases hf : front operand c cs with ⟨t | _ | f', m⟩
        · obtain ⟨before, after, rfl, rfl, ht, -⟩ := front_cuts hf
          rw [hf] at h
          simp only [scanFrom_skip, bind, Except.bind] at h
          split at h
          · next e hrest =>
            obtain rfl := Except.error.inj h
            obtain ⟨ss, rest, w, rfl, hss, hstuck, rfl⟩ := ih _ (by simp [← hn]) rfl hrest
            refine ⟨token t :: ss, rest, w, by simp [ht], ⟨⟨c, before, ht, ?_⟩, hss⟩, hstuck, ?_⟩
            · exact hf
            · simp [ht, Nat.add_assoc]
          · cases h
        · obtain ⟨before, after, rfl, rfl, -⟩ := front_separator hf
          rw [hf] at h
          simp only [scanFrom_skip] at h
          obtain ⟨ss, rest, w, rfl, hss, hstuck, rfl⟩ := ih _ (by simp [← hn]) rfl h
          refine ⟨trivia (c :: before) :: ss, rest, w, by simp, ⟨⟨c, before, rfl, ?_⟩, hss⟩, hstuck, ?_⟩
          · exact hf
          · simp [Nat.add_assoc]
        · rw [hf] at h
          obtain ⟨rfl, rfl⟩ := Prod.mk.inj (Except.error.inj h)
          exact ⟨[], c :: cs, c :: cs.take m, rfl, trivial, stuck_of_front hf, by simp⟩
  · rintro ⟨ss, rest, w, rfl, hss, hstuck, rfl⟩
    cases rest with
    | nil => cases hstuck
    | cons c cs =>
      obtain ⟨n, hf, rfl⟩ : ∃ n, front (ss.foldl operandAfter operand) c cs = (.fault f, n) ∧ w = c :: cs.take n :=
        hstuck.front_eq
      rw [scanFrom_join hss, scanFrom, hf]
      rfl

/-- A text falls into segments in one way. -/
theorem Segmented.unique (h : Segmented operand ss ds) (h' : Segmented operand us ds) (hjoin : join ss = join us) :
    ss = us := by
  induction ss generalizing operand us with
  | nil =>
    cases us with
    | nil => rfl
    | cons u us => exact absurd hjoin.symm (h'.join_ne_nil (by simp))
  | cons s ss ih =>
    cases us with
    | nil => exact absurd hjoin (h.join_ne_nil (by simp))
    | cons u us =>
      obtain ⟨⟨c, cs, hw, hf⟩, hss⟩ := h
      obtain ⟨⟨c', cs', hw', hf'⟩, hus⟩ := h'
      rw [join_cons, join_cons, hw, hw', List.cons_append, List.cons_append] at hjoin
      obtain ⟨rfl, hrest⟩ := List.cons.inj hjoin
      rw [← List.append_assoc, hrest, List.append_assoc, hf'] at hf
      obtain ⟨hcontent, hlen⟩ := Prod.mk.inj hf
      obtain ⟨rfl, htail⟩ := List.append_inj hrest hlen.symm
      obtain rfl : s = u := by
        cases s <;> cases u <;> simp_all
      rw [ih hss hus htail]

/-- A line comment after a text that is scanned ends the whole text. -/
theorem Segmented.endInComment_append {body : List Char} (h : Segmented operand ss []) (hbody : '\n' ∉ body) :
    ∃ us, join us = join ss ++ ';' :: body ∧ Segmented operand us [] ∧ EndInComment us := by
  have hdivides : Separated (';' :: body) := by
    intro d hd
    obtain rfl : ';' = d := by simpa using hd
    decide
  by_cases hss : EndInComment ss
  · -- the comment at the end goes on
    obtain ⟨start, hlast⟩ := hss
    obtain ⟨ps, rfl⟩ : ∃ ps, ss = ps ++ [trivia (';' :: start)] := List.getLast?_eq_some_iff.mp hlast
    obtain ⟨hps, hfit, -⟩ := segmented_append.mp h
    have hstart : '\n' ∉ start := by
      cases fits_trivia_iff.mp hfit with
      | blank hc => exact absurd hc (by decide)
      | line hstart _ => exact hstart
    refine ⟨ps ++ [trivia (';' :: (start ++ ';' :: body))], by simp, segmented_append.mpr ⟨?_, ?_, trivial⟩,
      ⟨start ++ ';' :: body, by simp⟩⟩
    · refine hps.replace (fun d hd => ?_) fun hc => absurd (hps.head?_of_endInComment hc ';' (by simp)) (by decide)
      obtain rfl : ';' = d := by simpa using hd
      decide
    · exact fits_trivia_iff.mpr (.line (by simp [hstart, hbody]) (by simp))
  · refine ⟨ss ++ [trivia (';' :: body)], by simp, segmented_append.mpr ⟨?_, ?_, trivial⟩, ⟨body, by simp⟩⟩
    · simpa using h.replace hdivides fun hc => absurd hc hss
    · exact fits_trivia_iff.mpr (.line hbody (by simp))

end

/-- A text has an open comment exactly if its last segment is a line comment. -/
theorem openComment_iff {source : String} {ss : List Segment} (h : Segmented false ss [])
    (hjoin : join ss = source.toList) : OpenComment source ↔ EndInComment ss := by
  refine ⟨?_, openComment_of_segmented h hjoin⟩
  rintro ⟨before, body, htext, hbody, hscan⟩
  rw [scan_ok_iff.mpr (scanFrom_eq_ok_iff.mpr ⟨ss, hjoin, h, rfl⟩)] at hscan
  obtain ⟨qs, hqs, hseg, -⟩ := scanFrom_eq_ok_iff.mp (scan_ok_iff.mp hscan)
  obtain ⟨us, hus, hsegments, hend⟩ := hseg.endInComment_append hbody
  obtain rfl : ss = us := h.unique hsegments (by rw [hjoin, htext, hus, hqs, String.toList_ofList])
  exact hend

theorem tokenize_eq_ok_iff {source : String} :
    (∃ tokens, tokenize source = .ok tokens) ↔ ∃ ss, join ss = source.toList ∧ Segmented false ss [] := by
  constructor
  · rintro ⟨tokens, h⟩
    obtain ⟨lexemes, hscan, -⟩ := exists_scan_of_tokenize h
    obtain ⟨ss, hjoin, hss, -⟩ := scanFrom_eq_ok_iff.mp (scan_ok_iff.mp hscan)
    exact ⟨ss, hjoin, hss⟩
  · rintro ⟨ss, hjoin, hss⟩
    have hscan := scan_ok_iff.mpr (scanFrom_eq_ok_iff.mpr ⟨ss, hjoin, hss, rfl⟩)
    exact ⟨_, by rw [tokenize, hscan]; rfl⟩

theorem tokenize_eq_error_of_scanFrom {source : String} {e : ParseError} : tokenize source = .error e ↔
    ∃ f span, scanFrom false 0 0 source.toList = .error (f, span) ∧ e = .locate source f span := by
  unfold tokenize scan
  rcases scanFrom false 0 0 source.toList with ⟨f, span⟩ | lexemes
  · constructor
    · rintro ⟨⟩
      exact ⟨f, span, rfl, rfl⟩
    · rintro ⟨_, _, ⟨⟩, rfl⟩
      rfl
  · exact ⟨nofun, fun ⟨_, _, h, _⟩ => nomatch h⟩

/-- A text has no tokens exactly if some beginning of it has, and does not end in a line comment, and scanning is
stuck on the rest.  The error is the fault found there, at its place. -/
theorem tokenize_eq_error_iff {source : String} {e : ParseError} : tokenize source = .error e ↔
    ∃ before rest f w, source.toList = before ++ rest ∧ (∃ tokens, tokenize (String.ofList before) = .ok tokens) ∧
      ¬ OpenComment (String.ofList before) ∧ Stuck rest f w ∧
      e = ⟨f, ⟨byteLength before, byteLength before + byteLength w⟩,
        Location.ofOffset source.toList (byteLength before)⟩ := by
  rw [tokenize_eq_error_of_scanFrom]
  constructor
  · rintro ⟨f, span, hscan, rfl⟩
    obtain ⟨ss, rest, w, htext, hss, hstuck, rfl⟩ := scanFrom_eq_error_iff.mp hscan
    have hcut : Segmented false ss [] := hss.replace separated_nil fun _ => by simp
    have hjoin : join ss = (String.ofList (join ss)).toList := by simp
    refine ⟨join ss, rest, f, w, htext.symm, tokenize_eq_ok_iff.mpr ⟨ss, hjoin, hcut⟩, ?_, hstuck, ?_⟩
    · rw [openComment_iff hcut hjoin]
      intro hend
      cases rest with
      | nil => cases hstuck
      | cons c cs => exact hstuck.ne_lineFeed c rfl (hss.head?_of_endInComment hend c rfl)
    · simp [ParseError.locate]
  · rintro ⟨before, rest, f, w, htext, htokens, hopen, hstuck, rfl⟩
    obtain ⟨ss, hjoin, hss⟩ := tokenize_eq_ok_iff.mp htokens
    have hbefore : join ss = before := by rw [hjoin, String.toList_ofList]
    have hread : Segmented false ss rest := hss.replace hstuck.separated fun hend =>
      absurd ((openComment_iff hss hjoin).mpr hend) hopen
    refine ⟨f, _, scanFrom_eq_error_iff.mpr ⟨ss, rest, w, by rw [hbefore, htext], hread, hstuck, rfl⟩, ?_⟩
    simp [ParseError.locate, hbefore]

example : tokenize "SELECT 'a" = .error ⟨.unterminatedString, ⟨7, 9⟩, ⟨1, 8, 7⟩⟩ := by cbv

end LedgerQuery
