import LedgerQuery.Proofs.Lexing.Segments

/-!
# Tokens tile their text

The tokens of a text and what separates them make up the text, and each token is the
longest that could be read where it stands (`tokenize_tiles`).

* `Form` lists the forms of tokens, with block comments among them.  It does not speak of
  how a text is read.
* `Separators` is a run of blanks and comments.
* `Lexeme.Tiled` says of one token that its span is its text and that no longer form
  begins where it begins.
-/

namespace LedgerQuery

/-! ## Forms -/

/-- Whether some characters have the form of a token or a block comment, after a token that ends
an operand or not and before some text. -/
inductive Form (operand : Bool) : List Char → List Char → Prop
  /-- A word. -/
  | word {w ds : List Char} (h : isWord w) : Form operand w ds
  /-- Some digits. -/
  | digits {w ds : List Char} (hne : w ≠ []) (h : w.all Char.isDigit) : Form operand w ds
  /-- Some digits, a point, and digits that may be missing. -/
  | decimal {whole fraction ds : List Char} (hne : whole ≠ []) (hw : whole.all Char.isDigit)
    (hf : fraction.all Char.isDigit) : Form operand (whole ++ '.' :: fraction) ds
  /-- A point and some digits. -/
  | fraction {fraction ds : List Char} (hne : fraction ≠ []) (hf : fraction.all Char.isDigit) :
    Form operand ('.' :: fraction) ds
  /-- A year, a month and a day. -/
  | date {year month day ds : List Char} (hy : year.length = 4) (hm : month.length = 2)
    (hd : day.length = 2) (h : (year ++ month ++ day).all Char.isDigit) :
    Form operand (year ++ '-' :: month ++ '-' :: day) ds
  /-- Some characters between two quotes. -/
  | string {quote : QuoteStyle} {value ds : List Char} (h : quote.char ∉ value) :
    Form operand (quote.char :: (value ++ [quote.char])) ds
  /-- A number sign and a word that may be missing. -/
  | table {name ds : List Char} (h : name = [] ∨ isWord name) : Form operand ('#' :: name) ds
  /-- A symbol. -/
  | symbol {s : Symbol} {ds : List Char} : Form operand s.spelling.toList ds
  /-- A closed block comment. -/
  | comment {body ds : List Char} (h : ¬ ['*', '/'] <:+: body) :
    Form operand ('/' :: '*' :: (body ++ ['*', '/'])) ds
  /-- A placeholder without a name, at the end of a word. -/
  | positional {ds : List Char} (ho : operand = false) (hd : ∀ d ∈ ds.head?, isWordChar d = false) :
    Form operand ['%', 's'] ds
  /-- A placeholder with a name. -/
  | named {name ds : List Char} (ho : operand = false) (h : isWord name) :
    Form operand ('%' :: '(' :: (name ++ [')', 's'])) ds

section
variable {operand : Bool} {c : Char} {cs ds w : List Char}

/-- The longest run of some kind is not shorter than one that begins the text. -/
theorem length_le_takeWhile {p : Char → Bool} (h : w.all p = true) :
    w.length ≤ ((w ++ ds).takeWhile p).length := by
  rw [List.takeWhile_append_of_pos (by simpa using h), List.length_append]
  exact Nat.le_add_right ..

theorem length_le_frontNumber : (cs.takeWhile Char.isDigit).length ≤ (frontNumber c cs).2 := by
  unfold frontNumber
  simp only
  split
  · next hdate => omega
  · split
    · simp only
      omega
    · exact Nat.le_refl _

theorem length_le_frontNumber_decimal {whole fraction : List Char} (hw : whole.all Char.isDigit)
    (hf : fraction.all Char.isDigit) :
    (whole ++ '.' :: fraction).length ≤ (frontNumber c (whole ++ '.' :: fraction ++ ds)).2 := by
  have hstop : ∀ d ∈ ('.' :: (fraction ++ ds)).head?, d.isDigit = false := by
    simp only [List.head?_cons, Option.mem_some_iff, forall_eq']
    decide
  obtain ⟨htake, hdrop⟩ := takeWhile_append_of_stop _ hw hstop
  have hlen : fraction.length ≤ ((fraction ++ ds).takeWhile Char.isDigit).length :=
    length_le_takeWhile hf
  rw [frontNumber]
  simp only [List.append_assoc, List.cons_append, htake, hdrop]
  rw [if_neg (by simp [isDateTail])]
  simp only [List.length_append, List.length_cons]
  omega

/-- The piece read at the front of a text is as long as any form that begins the text. -/
theorem Form.length_le_front (h : Form operand w ds) (hw : w = c :: cs) :
    cs.length ≤ (front operand c (cs ++ ds)).2 := by
  cases h with
  | word h =>
    obtain ⟨hc, hcs⟩ : isWordStart c = true ∧ cs.all isWordChar = true := by
      simpa [hw, isWord] using h
    unfold front
    rw [if_neg (by simp [isBlank_of_isWordStart hc]), if_pos hc]
    exact length_le_takeWhile hcs
  | digits hne h =>
    obtain ⟨hc, hcs⟩ : c.isDigit = true ∧ cs.all Char.isDigit = true := by simpa [hw] using h
    rw [front_number hc]
    exact (length_le_takeWhile hcs).trans length_le_frontNumber
  | @decimal whole fraction _ hne hwhole hf =>
    obtain ⟨d, whole, rfl⟩ := List.exists_cons_of_ne_nil hne
    obtain ⟨rfl, rfl⟩ := List.cons.inj hw
    obtain ⟨hc, hwhole⟩ : d.isDigit = true ∧ whole.all Char.isDigit = true := by simpa using hwhole
    rw [front_number hc]
    exact length_le_frontNumber_decimal hwhole hf
  | @fraction fraction _ hne hf =>
    obtain ⟨rfl, rfl⟩ := List.cons.inj hw
    obtain ⟨d, fraction, rfl⟩ := List.exists_cons_of_ne_nil hne
    have hd : d.isDigit = true := by simpa using List.all_eq_true.mp hf d (by simp)
    have hfront : front operand '.' (d :: fraction ++ ds) =
        (.token (.decimal (String.ofList ('.' :: (d :: fraction ++ ds).takeWhile Char.isDigit))),
          ((d :: fraction ++ ds).takeWhile Char.isDigit).length) := if_pos hd
    rw [hfront]
    exact length_le_takeWhile hf
  | @date year month day _ hy hm hd h =>
    obtain ⟨m₁, m₂, rfl⟩ := List.length_eq_two.mp hm
    obtain ⟨d₁, d₂, rfl⟩ := List.length_eq_two.mp hd
    simp only [List.all_append, List.all_cons, List.all_nil, Bool.and_true, Bool.and_eq_true] at h
    have hlegal : (Token.date (String.ofList (c :: cs))).Legal :=
      ⟨year, ['-', m₁, m₂, '-', d₁, d₂], by simp [← hw], hy, h.1.1, rfl,
        isDateTail_iff.mpr ⟨m₁, m₂, d₁, d₂, [], rfl, h.1.2.1, h.1.2.2, h.2.1, h.2.2⟩⟩
    rw [front_date String.toList_ofList hlegal]
  | @string quote value _ h =>
    have htext : (StringLiteral.text ⟨String.ofList value, quote⟩).toList = c :: cs := by
      simp [StringLiteral.text, String.toList_singleton, hw]
    rw [front_string htext (by simpa [Token.Legal] using h)]
  | @table name _ h =>
    obtain ⟨rfl, rfl⟩ := List.cons.inj hw
    show name.length ≤ (leadingWord (name ++ ds)).length
    rcases h with rfl | h
    · exact Nat.zero_le _
    · cases name with
      | nil => cases h
      | cons d name =>
        obtain ⟨hc, hcs⟩ : isWordStart d = true ∧ name.all isWordChar = true := by
          simpa [isWord] using h
        rw [List.cons_append, leadingWord, if_pos hc]
        exact Nat.succ_le_succ (length_le_takeWhile hcs)
  | @symbol s =>
    have hends : cs ≠ [] → (Token.symbol s).Ends ds := by
      intro hcs d hd
      cases s <;> first | rfl | exact absurd (List.cons.inj hw).2.symm hcs
    by_cases hcs : cs = []
    · simp [hcs]
    · rw [front_symbol hw (hends hcs)]
  | comment h => rw [(Separator.block h).front_eq hw]
  | positional ho hd =>
    obtain rfl := ho
    rw [front_placeholder (p := .positional) hw trivial fun d hm => by simp [Token.endsBefore, hd d hm]]
  | @named name _ ho h =>
    obtain rfl := ho
    have htext : (Placeholder.named (String.ofList name)).text.toList = c :: cs := by
      simp [Placeholder.text, ← hw]
    rw [front_placeholder htext (by simpa [Token.Legal] using h) fun d hd => rfl]

end

/-! ## Tiles -/

/-- A run of separators, and what follows it. -/
inductive Separators : List Char → List Char → Prop
  /-- No separator. -/
  | nil {ds : List Char} : Separators [] ds
  /-- A separator and more of them. -/
  | cons {v w ds : List Char} (h : Separator v (w ++ ds)) (hs : Separators w ds) : Separators (v ++ w) ds

/-- Whether the text between two byte offsets only separates tokens. -/
def Gap (cs : List Char) (start stop : Nat) : Prop :=
  ∃ before w after, cs = before ++ w ++ after ∧ byteLength before = start ∧
    byteLength (before ++ w) = stop ∧ Separators w after

/-- Whether a token is written as some characters; a keyword may be in either case. -/
def Token.WrittenAs (t : Token) (w : List Char) : Prop :=
  t.text.toList = w ∧ ∀ k written, t = keyword k written → w.map Char.toUpper = k.spelling.toList

/-- Whether a lexeme is a legal token of a text, written where its span says, and the longest form
that begins there. -/
structure Lexeme.Tiled (cs : List Char) (operand : Bool) (l : Lexeme) : Prop where
  /-- The token is legal. -/
  legal : l.token.Legal
  /-- The span is not empty. -/
  nonempty : l.span.start < l.span.stop
  /-- The span lies between characters, and its text is the token's. -/
  written : ∃ w, l.span.slice? cs = some w ∧ l.token.WrittenAs w
  /-- No form that begins at the span is longer. -/
  longest : ∀ before w after, cs = before ++ w ++ after → byteLength before = l.span.start →
    Form operand w after → byteLength w ≤ l.span.length

/-- The tokens of a text are its lexemes and the end of input. -/
theorem exists_scan_of_tokenize {source : String} {tokens : List Lexeme}
    (h : tokenize source = .ok tokens) :
    ∃ lexemes, scan source = .ok lexemes ∧ tokens = lexemes ++ [⟨.eof, endOfText source⟩] := by
  unfold tokenize at h
  rcases hs : scan source with e | lexemes
  · rw [hs] at h
    cases h
  · rw [hs] at h
    exact ⟨lexemes, rfl, (Except.ok.inj h).symm⟩

/-- Whether the last of some lexemes ends an operand. -/
def endsOperand (lexemes : List Lexeme) : Bool := lexemes.getLast?.any fun l => l.token.endsOperand

/-- The offset where some lexemes stop. -/
def stopOf (lexemes : List Lexeme) : Nat := (lexemes.getLast?.map fun l => l.span.stop).getD 0

/-- Whether a lexeme stands before another one. -/
def Lexeme.Before (l m : Lexeme) : Prop := l.span.stop ≤ m.span.start

/-- Whether some tokens tile a text: with separators between them, and the end of input after them,
they make up the text, and each is the longest where it stands. -/
structure Tiling (source : String) (tokens : List Lexeme) : Prop where
  /-- The end of input stands at the end. -/
  ends : tokens.getLast? = some ⟨.eof, endOfText source⟩
  /-- Every token but the last is the longest where it stands. -/
  tiled : ∀ before l after, tokens = before ++ l :: after → after ≠ [] →
    l.Tiled source.toList (endsOperand before)
  /-- Before every token stand only separators. -/
  gaps : ∀ before l after, tokens = before ++ l :: after →
    Gap source.toList (stopOf before) l.span.start
  /-- The spans of the tokens are apart and in order. -/
  ordered : tokens.Pairwise Lexeme.Before

/-- A text has one beginning of a given length. -/
theorem append_inj_of_byteLength {cs ds cs' ds' : List Char} (h : cs ++ ds = cs' ++ ds')
    (hlen : byteLength cs = byteLength cs') : cs = cs' ∧ ds = ds' := by
  have h₁ : splitAtByte? (cs ++ ds) (byteLength cs) = some (cs, ds) :=
    splitAtByte?_eq_some_iff.mpr ⟨rfl, rfl⟩
  have h₂ : splitAtByte? (cs ++ ds) (byteLength cs) = some (cs', ds') :=
    splitAtByte?_eq_some_iff.mpr ⟨h, hlen.symm⟩
  simpa using h₁.symm.trans h₂

/-- A span covers the characters between its offsets. -/
theorem Span.slice?_append (before w after : List Char) :
    Span.slice? ⟨byteLength before, byteLength before + byteLength w⟩ (before ++ w ++ after) = some w := by
  have h₁ : splitAtByte? (before ++ w ++ after) (byteLength before) = some (before, w ++ after) :=
    splitAtByte?_eq_some_iff.mpr ⟨List.append_assoc .., rfl⟩
  have h₂ : splitAtByte? (w ++ after) (byteLength w) = some (w, after) :=
    splitAtByte?_eq_some_iff.mpr ⟨rfl, rfl⟩
  unfold Span.slice?
  rw [if_pos (Nat.le_add_right ..), h₁]
  simp [Span.length, h₂]

section
variable {operand : Bool} {offset : Nat} {ss qs rs : List Segment} {before after : List Lexeme}
  {l : Lexeme} {t : Token}

open Segment

/-- A lexeme of some segments is one of its tokens. -/
theorem exists_eq_of_lexemes (h : lexemes offset ss = before ++ l :: after) :
    ∃ qs t rs, ss = qs ++ token t :: rs ∧ lexemes offset qs = before ∧
      l = ⟨t, ⟨offset + byteLength (join qs), offset + byteLength (join (qs ++ [token t]))⟩⟩ ∧
      lexemes (offset + byteLength (join (qs ++ [token t]))) rs = after := by
  induction ss generalizing offset before with
  | nil => simp [lexemes] at h
  | cons s ss ih =>
    cases s with
    | token t =>
      cases before with
      | nil =>
        obtain ⟨rfl, rfl⟩ := List.cons.inj h
        exact ⟨[], t, ss, rfl, rfl, by simp, by simp⟩
      | cons l' before =>
        obtain ⟨rfl, htail⟩ := List.cons.inj h
        obtain ⟨qs, u, rs, rfl, rfl, rfl, rfl⟩ := ih htail
        exact ⟨token t :: qs, u, rs, rfl, rfl, by simp [Nat.add_assoc], by simp [Nat.add_assoc]⟩
    | trivia w =>
      obtain ⟨qs, u, rs, rfl, rfl, rfl, rfl⟩ := ih h
      exact ⟨trivia w :: qs, u, rs, rfl, rfl, by simp [Nat.add_assoc], by simp [Nat.add_assoc]⟩

/-- The lexemes of a text are divided where its segments are. -/
theorem exists_eq_append_of_lexemes (h : lexemes 0 ss = before ++ after) :
    ∃ qs rs, ss = qs ++ rs ∧ lexemes 0 qs = before ∧ byteLength (join qs) = stopOf before ∧
      lexemes (byteLength (join qs)) rs = after := by
  rcases List.eq_nil_or_concat before with rfl | ⟨before, l, rfl⟩
  · exact ⟨[], ss, rfl, rfl, rfl, h⟩
  · obtain ⟨qs, t, rs, rfl, rfl, rfl, rfl⟩ := exists_eq_of_lexemes (by simpa using h)
    refine ⟨qs ++ [token t], rs, by simp, ?_, ?_, by simp⟩
    · simp [lexemes_append, lexemes]
    · simp [stopOf]

/-- The segments of a run of lexemes, from its first token to its last. -/
theorem exists_eq_of_run {u : List Lexeme} (h : lexemes 0 ss = before ++ u ++ after) (hu : u ≠ []) : ∃ qs t us rs,
    ss = qs ++ token t :: us ++ rs ∧ lexemes 0 qs = before ∧ lexemes (byteLength (join qs)) (token t :: us) = u ∧
      lexemes (byteLength (join (qs ++ token t :: us))) rs = after ∧ ¬ EndInComment (token t :: us) ∧
      ∃ first ∈ u.head?, ∃ last ∈ u.getLast?, first.span.start = byteLength (join qs) ∧
        last.span.stop = byteLength (join (qs ++ token t :: us)) := by
  obtain ⟨first, v, rfl⟩ := List.exists_cons_of_ne_nil hu
  obtain ⟨qs, t, ss₁, rfl, rfl, rfl, h₁⟩ := exists_eq_of_lexemes
    (show lexemes 0 ss = before ++ first :: (v ++ after) by simpa using h)
  rcases List.eq_nil_or_concat v with rfl | ⟨v, last, rfl⟩
  · exact ⟨qs, t, [], ss₁, by simp, rfl, by simp [lexemes], by simpa using h₁, by simp [EndInComment], _, rfl, _, rfl,
      by simp, by simp⟩
  · rw [List.concat_eq_append] at h₁ ⊢
    obtain ⟨us, t', rs, rfl, rfl, hlast, rfl⟩ := exists_eq_of_lexemes
      (show lexemes _ ss₁ = v ++ last :: after by simpa using h₁)
    refine ⟨qs, t, us ++ [token t'], rs, by simp, rfl, ?_, by simp [Nat.add_assoc],
      by simp [EndInComment, List.getLast?_cons], _, rfl, last, by simp [List.getLast?_cons], by simp,
      by simp [hlast, Nat.add_assoc]⟩
    simp [lexemes, lexemes_append, hlast, Nat.add_assoc]

/-- What stands before the next lexeme of some segments, or before their end, separates tokens. -/
theorem Segmented.gap {stop : Nat} (h : Segmented operand rs [])
    (hstop : stop = offset + byteLength (join rs))
    (hl : lexemes offset rs ++ [⟨.eof, ⟨stop, stop⟩⟩] = l :: after) :
    ∃ w cs, join rs = w ++ cs ∧ offset + byteLength w = l.span.start ∧ Separators w cs := by
  induction rs generalizing offset operand with
  | nil =>
    obtain ⟨rfl, -⟩ := List.cons.inj hl
    exact ⟨[], [], rfl, hstop.symm, .nil⟩
  | cons s rs ih =>
    obtain ⟨hfit, hrs⟩ := h
    cases s with
    | token t =>
      obtain ⟨rfl, -⟩ := List.cons.inj hl
      exact ⟨[], _, rfl, rfl, .nil⟩
    | trivia v =>
      have hv := fits_trivia_iff.mp hfit
      obtain ⟨w, cs, hjoin, hstart, hw⟩ := ih hrs (by simpa [Nat.add_assoc] using hstop) hl
      refine ⟨v ++ w, cs, by simp [hjoin], by simpa [Nat.add_assoc] using hstart, .cons ?_ hw⟩
      simpa [hjoin] using hv

/-- The lexemes of some segments follow each other, and the end comes after them. -/
theorem lexemes_pairwise {stop : Nat} (hstop : stop = offset + byteLength (join ss)) :
    List.Pairwise Lexeme.Before (lexemes offset ss ++ [⟨.eof, ⟨stop, stop⟩⟩]) ∧
      ∀ l ∈ lexemes offset ss ++ [⟨.eof, ⟨stop, stop⟩⟩], offset ≤ l.span.start := by
  induction ss generalizing offset with
  | nil =>
    simp [lexemes, hstop]
  | cons s ss ih =>
    have hstop : stop = offset + byteLength s.chars + byteLength (join ss) := by
      simpa [Nat.add_assoc] using hstop
    obtain ⟨hpair, hle⟩ := ih hstop
    cases s with
    | token t =>
      refine ⟨List.pairwise_cons.mpr ⟨hle, hpair⟩, ?_⟩
      rintro l (_ | ⟨_, hl⟩)
      · exact Nat.le_refl offset
      · exact (Nat.le_add_right ..).trans (hle l hl)
    | trivia w => exact ⟨hpair, fun l hl => (Nat.le_add_right ..).trans (hle l hl)⟩

theorem foldl_operandAfter (operand : Bool) (offset : Nat) (qs : List Segment) :
    qs.foldl operandAfter operand =
      ((lexemes offset qs).getLast?.map fun l => l.token.endsOperand).getD operand := by
  induction qs generalizing operand offset with
  | nil => rfl
  | cons s qs ih =>
    cases s with
    | token t =>
      rw [List.foldl_cons, ih _ (offset + byteLength t.text.toList), lexemes, List.getLast?_cons]
      cases (lexemes (offset + byteLength t.text.toList) qs).getLast? <;> rfl
    | trivia w => exact ih operand _

theorem foldl_operandAfter_false (qs : List Segment) :
    qs.foldl operandAfter false = endsOperand (lexemes 0 qs) := by
  rw [foldl_operandAfter false 0, endsOperand]
  cases (lexemes 0 qs).getLast? <;> rfl

/-- A token among the segments of a text is tiled. -/
theorem Segmented.tiled (h : Segmented false (qs ++ token t :: rs) []) :
    (Lexeme.mk t ⟨byteLength (join qs), byteLength (join (qs ++ [token t]))⟩).Tiled
      (join (qs ++ token t :: rs)) (endsOperand (lexemes 0 qs)) := by
  obtain ⟨-, hfit, -⟩ := segmented_append.mp h
  rw [foldl_operandAfter_false] at hfit
  obtain ⟨hl, -, -⟩ := fits_token_iff.mp hfit
  obtain ⟨c, cs, hw, hfront⟩ := hfit
  have hw : t.text.toList = c :: cs := hw
  constructor
  case legal => exact hl
  case nonempty =>
    have := c.utf8Size_pos
    simp [hw]
    omega
  case written =>
    refine ⟨t.text.toList, ?_, rfl, ?_⟩
    · have := Span.slice?_append (join qs) t.text.toList (join rs)
      simpa using this
    · rintro k written rfl
      exact (Keyword.spelling_of_lookup? hl.2).symm
  case longest =>
    intro before w after he hstart hform
    obtain ⟨rfl, hsplit⟩ := append_inj_of_byteLength (by simpa using he) hstart.symm
    cases w with
    | nil => exact Nat.zero_le _
    | cons d ds =>
      obtain ⟨rfl, htail⟩ : c = d ∧ cs ++ join rs = ds ++ after := by simpa [hw] using hsplit
      have hlen := hform.length_le_front rfl
      rw [← htail, ← List.append_nil (join rs), hfront] at hlen
      obtain ⟨mid, rfl⟩ : ds <+: cs :=
        List.prefix_of_prefix_length_le ⟨after, rfl⟩ ⟨join rs, htail⟩ hlen
      simp only [Span.length, join_append, byteLength_append, join_cons, chars_token, hw, byteLength_cons,
        join_nil, byteLength_nil]
      omega

end

/-- The beginning of some items with one more at the end is a beginning of these items, or all. -/
theorem append_eq_append_concat {α : Type} {as before after : List α} {last a : α}
    (h : as ++ [last] = before ++ a :: after) :
    ∃ rest, as = before ++ rest ∧ rest ++ [last] = a :: after := by
  rcases List.eq_nil_or_concat (a :: after) with hnil | ⟨rest, b, hrest⟩
  · cases hnil
  · rw [List.concat_eq_append] at hrest
    rw [hrest, ← List.append_assoc] at h
    obtain ⟨hbefore, hlast⟩ := List.append_inj' h rfl
    exact ⟨rest, hbefore, by rw [hrest, hlast]⟩

/-- The tokens of a text tile it. -/
theorem tokenize_tiles {source : String} {tokens : List Lexeme} (h : tokenize source = .ok tokens) :
    Tiling source tokens := by
  obtain ⟨lexemes, hscan, rfl⟩ := exists_scan_of_tokenize h
  obtain ⟨ss, hjoin, hss, rfl⟩ := scanFrom_eq_ok_iff.mp (scan_ok_iff.mp hscan)
  have hstop : byteLength source.toList = 0 + byteLength (Segment.join ss) := by rw [hjoin, Nat.zero_add]
  constructor
  case ends => simp
  case ordered => exact (lexemes_pairwise hstop).1
  case tiled =>
    intro before l after hls hafter
    obtain ⟨rest, hrest, hl⟩ := append_eq_append_concat hls
    obtain ⟨l', rest, rfl⟩ := List.exists_cons_of_ne_nil (l := rest) (by rintro rfl; simp_all)
    obtain ⟨rfl, -⟩ := List.cons.inj hl
    obtain ⟨qs, t, rs, rfl, rfl, rfl, -⟩ := exists_eq_of_lexemes hrest
    rw [← hjoin]
    simpa using hss.tiled
  case gaps =>
    intro before l after hls
    obtain ⟨rest, hrest, hl⟩ := append_eq_append_concat hls
    obtain ⟨qs, rs, rfl, -, hstart, rfl⟩ := exists_eq_append_of_lexemes hrest
    obtain ⟨-, hrs⟩ := segmented_append.mp hss
    obtain ⟨w, cs, hw, hl, hsep⟩ := hrs.gap (by simpa using hstop) hl
    refine ⟨Segment.join qs, w, cs, ?_, hstart, ?_, hsep⟩
    · rw [← hjoin, Segment.join_append, hw, List.append_assoc]
    · rw [byteLength_append, hl]

/-- A date is followed by a digit, a decimal by a point, and a percent sign is read in three ways. -/
theorem tokenize_tiles_date :
    let source := "2014-01-012..5%%s/*é*/a%s;"
    let tokens : List Lexeme := [⟨.date "2014-01-01", ⟨0, 10⟩⟩, ⟨.decimal "2.", ⟨10, 12⟩⟩,
      ⟨.decimal ".5", ⟨12, 14⟩⟩, ⟨.symbol .percent, ⟨14, 15⟩⟩, ⟨.placeholder .positional, ⟨15, 17⟩⟩,
      ⟨.ident "a", ⟨23, 24⟩⟩, ⟨.symbol .percent, ⟨24, 25⟩⟩, ⟨.ident "s", ⟨25, 26⟩⟩, ⟨.eof, ⟨27, 27⟩⟩]
    tokenize source = .ok tokens ∧ Tiling source tokens := by
  intro source tokens
  have h : tokenize source = .ok tokens := by cbv
  exact ⟨h, tokenize_tiles h⟩

end LedgerQuery
