import LedgerQuery.Proofs.Lexing.Legal

/-!
# Reading the text of a token

A legal token is read back from its text, whatever follows, if the first
character that follows ends the token (`front_eq`).  A placeholder is read only
where the token before it does not end an operand.

`Scans` says which tokens a text is read as, without their spans, after a token
that ends an operand or not.
-/

namespace LedgerQuery

/-! ## Classes of characters -/

theorem isBlank_iff {c : Char} :
    isBlank c = true ↔ c = ' ' ∨ c = '\t' ∨ c = '\r' ∨ c = '\n' ∨ c = '\x0c' := by
  simp [isBlank, or_assoc]

theorem isBlank_of_isWordStart {c : Char} (h : isWordStart c = true) : isBlank c = false := by
  rw [← Bool.not_eq_true, isBlank_iff]
  rintro (rfl | rfl | rfl | rfl | rfl) <;> exact absurd h (by decide)

theorem isBlank_of_isDigit {c : Char} (h : c.isDigit = true) : isBlank c = false := by
  rw [← Bool.not_eq_true, isBlank_iff]
  rintro (rfl | rfl | rfl | rfl | rfl) <;> exact absurd h (by decide)

theorem isWordStart_of_isDigit {c : Char} (h : c.isDigit = true) : isWordStart c = false := by
  rw [← Bool.not_eq_true]
  intro hw
  have hd : 48 ≤ c.val ∧ c.val ≤ 57 := by simpa [Char.isDigit] using h
  rcases (by simpa [isWordStart] using hw : c.isAlpha = true ∨ c = '_') with ha | rfl
  · simp only [Char.isAlpha, Char.isUpper, Char.isLower, Bool.or_eq_true, Bool.and_eq_true,
      decide_eq_true_eq, ge_iff_le, UInt32.le_iff_toNat_le] at ha hd
    have h₁ : ('A' : Char).val.toNat = 65 := rfl
    have h₂ : ('a' : Char).val.toNat = 97 := rfl
    have h₃ : (48 : UInt32).toNat = 48 := rfl
    have h₄ : (57 : UInt32).toNat = 57 := rfl
    omega
  · exact absurd h (by decide)

/-! ## Where tokens end -/

namespace Token

/-- Whether a character after a token does not belong to it. -/
def endsBefore : Token → Char → Bool
  | keyword _ _, c | ident _, c | table _, c | placeholder .positional, c => !isWordChar c
  | integer _, c => !c.isDigit && c ≠ '.' && c ≠ '-'
  | decimal _, c | symbol .dot, c => !c.isDigit
  | symbol .slash, c => c ≠ '*'
  | symbol .less, c | symbol .greater, c => c ≠ '='
  | symbol .percent, c => c ≠ 's' && c ≠ '('
  | _, _ => true

/-- Whether the first character of a text, if there is one, does not belong to the token before
it. -/
def Ends (t : Token) (ds : List Char) : Prop := ∀ d ∈ ds.head?, t.endsBefore d = true

/-- Whether a token is a placeholder. -/
def isPlaceholder : Token → Bool
  | placeholder _ => true
  | _ => false

theorem ends_cons {t : Token} {d : Char} {ds : List Char} : t.Ends (d :: ds) ↔ t.endsBefore d := by
  simp [Ends]

end Token

open Token

/-- The longest run of some characters at the front of a text is the whole run, if none follows. -/
theorem takeWhile_append_of_stop {p : Char → Bool} {cs : List Char} (ds : List Char)
    (h : cs.all p = true) (hd : ∀ d ∈ ds.head?, p d = false) :
    (cs ++ ds).takeWhile p = cs ∧ (cs ++ ds).dropWhile p = ds := by
  have hall : ∀ c ∈ cs, p c = true := by simpa using h
  rw [List.takeWhile_append_of_pos hall, List.dropWhile_append_of_pos hall]
  cases ds with
  | nil => simp
  | cons d ds =>
    have hp : ¬ p d = true := by simp [hd d rfl]
    rw [List.takeWhile_cons_of_neg hp, List.dropWhile_cons_of_neg hp]
    simp

theorem leadingWord_append {name ds : List Char} (h : isWord name = true)
    (hd : ∀ d ∈ ds.head?, isWordChar d = false) : leadingWord (name ++ ds) = name := by
  cases name with
  | nil => cases h
  | cons c cs =>
    obtain ⟨hc, hcs⟩ : isWordStart c = true ∧ cs.all isWordChar = true := by
      simpa [isWord] using h
    rw [List.cons_append, leadingWord, if_pos hc, (takeWhile_append_of_stop _ hcs hd).1]

section
variable {operand : Bool} {c : Char} {cs ds : List Char}

theorem front_word {w : String} (hw : w.toList = c :: cs) (h : isWord w.toList = true)
    (hd : ∀ d ∈ ds.head?, isWordChar d = false) :
    front operand c (cs ++ ds) = (.token (.ofWord w), cs.length) := by
  obtain ⟨hc, hcs⟩ : isWordStart c = true ∧ cs.all isWordChar = true := by
    simpa [hw, isWord] using h
  unfold front
  rw [if_neg (by simp [isBlank_of_isWordStart hc]), if_pos hc]
  simp only [(takeWhile_append_of_stop _ hcs hd).1]
  rw [← hw, String.ofList_toList]

theorem front_number (hc : c.isDigit = true) : front operand c cs = frontNumber c cs := by
  unfold front
  rw [if_neg (by simp [isBlank_of_isDigit hc]), if_neg (by simp [isWordStart_of_isDigit hc]),
    if_pos hc]

theorem front_integer {digits : String} (hw : digits.toList = c :: cs)
    (h : digits.toList.all Char.isDigit = true) (hd : (Token.integer digits).Ends ds) :
    front operand c (cs ++ ds) = (.token (.integer digits), cs.length) := by
  obtain ⟨hc, hcs⟩ : c.isDigit = true ∧ cs.all Char.isDigit = true := by simpa [hw] using h
  have hend : ∀ d ∈ ds.head?, d.isDigit = false ∧ d ≠ '.' ∧ d ≠ '-' := fun d hm => by
    simpa [endsBefore, and_assoc] using hd d hm
  obtain ⟨htake, hdrop⟩ := takeWhile_append_of_stop _ hcs fun d hm => (hend d hm).1
  have htail : isDateTail ds = false := by
    rw [← Bool.not_eq_true, isDateTail_iff]
    rintro ⟨_, _, _, _, _, rfl, -⟩
    exact (hend '-' rfl).2.2 rfl
  rw [front_number hc, frontNumber]
  simp only [htake, hdrop, htail]
  rw [if_neg (by simp)]
  cases ds with
  | nil => simp [← hw]
  | cons d ds =>
    have hdot := (hend d rfl).2.1
    split
    · next heq => exact absurd (List.cons.inj heq).1 hdot
    · simp [← hw]

theorem front_decimal {written : String} (hw : written.toList = c :: cs)
    (h : (Token.decimal written).Legal) (hd : (Token.decimal written).Ends ds) :
    front operand c (cs ++ ds) = (.token (.decimal written), cs.length) := by
  obtain ⟨whole, fraction, he, hwhole, hfraction, hne⟩ := h
  have hend : ∀ d ∈ ds.head?, d.isDigit = false := fun d hm => by
    simpa [endsBefore] using hd d hm
  obtain ⟨htake, -⟩ := takeWhile_append_of_stop _ hfraction hend
  rw [hw] at he
  cases whole with
  | nil =>
    obtain ⟨rfl, rfl⟩ := List.cons.inj he
    obtain ⟨d, fraction, rfl⟩ := List.exists_cons_of_ne_nil (hne.resolve_left (by simp))
    have hdigit : d.isDigit = true := by simpa using (List.all_eq_true.mp hfraction) d (by simp)
    have hfront : front operand '.' (d :: fraction ++ ds) =
        (.token (.decimal (String.ofList ('.' :: (d :: fraction ++ ds).takeWhile Char.isDigit))),
          ((d :: fraction ++ ds).takeWhile Char.isDigit).length) := if_pos hdigit
    rw [hfront, htake, ← hw, String.ofList_toList]
  | cons c' whole =>
    obtain ⟨rfl, rfl⟩ : c = c' ∧ cs = whole ++ '.' :: fraction := by simpa using he
    obtain ⟨hc, hcs⟩ : c.isDigit = true ∧ whole.all Char.isDigit = true := by simpa using hwhole
    have hstop : ∀ d ∈ ('.' :: (fraction ++ ds)).head?, d.isDigit = false := by
      simp only [List.head?_cons, Option.mem_some_iff, forall_eq']
      decide
    obtain ⟨hw₁, hw₂⟩ := takeWhile_append_of_stop _ hcs hstop
    rw [front_number hc, frontNumber]
    simp only [List.append_assoc, List.cons_append, hw₁, hw₂, htake]
    rw [if_neg (by simp [isDateTail])]
    simp only [← hw, String.ofList_toList, List.length_append,
      List.length_cons, Prod.mk.injEq, true_and]
    omega

theorem front_date {written : String} (hw : written.toList = c :: cs)
    (h : (Token.date written).Legal) :
    front operand c (cs ++ ds) = (.token (.date written), cs.length) := by
  obtain ⟨year, tail, he, hlen, hyear, hlen', htail⟩ := h
  obtain ⟨m₁, m₂, d₁, d₂, rest, rfl, hm₁, hm₂, hd₁, hd₂⟩ := isDateTail_iff.mp htail
  obtain rfl : rest = [] := by simpa using hlen'
  rw [hw] at he
  obtain ⟨c', year, rfl⟩ := List.exists_cons_of_ne_nil (l := year) (by rintro rfl; simp at hlen)
  obtain ⟨rfl, rfl⟩ : c = c' ∧ cs = year ++ ['-', m₁, m₂, '-', d₁, d₂] := by simpa using he
  obtain ⟨hc, hcs⟩ : c.isDigit = true ∧ year.all Char.isDigit = true := by simpa using hyear
  have hstop : ∀ d ∈ (['-', m₁, m₂, '-', d₁, d₂] ++ ds).head?, d.isDigit = false := by
    simp only [List.cons_append, List.head?_cons, Option.mem_some_iff, forall_eq']
    decide
  obtain ⟨hw₁, hw₂⟩ := takeWhile_append_of_stop _ hcs hstop
  rw [front_number hc, frontNumber, List.append_assoc]
  simp only [hw₁, hw₂]
  have hlen'' : year.length = 3 := by simpa using hlen
  rw [if_pos ⟨hlen'', by simp [isDateTail, hm₁, hm₂, hd₁, hd₂]⟩]
  have htake : (['-', m₁, m₂, '-', d₁, d₂] ++ ds).take 6 = ['-', m₁, m₂, '-', d₁, d₂] := rfl
  rw [htake, List.cons_append, ← hw, String.ofList_toList, List.length_append, hlen'']
  rfl

theorem frontString_eq {quote : QuoteStyle} {value : String}
    (h : quote.char ∉ value.toList) :
    frontString quote (value.toList ++ quote.char :: ds) =
      (.token (.string ⟨value, quote⟩), value.toList.length + 1) := by
  have hall : value.toList.all (· ≠ quote.char) = true := by
    rw [List.all_eq_true]
    intro c hc
    simp only [ne_eq, decide_not, Bool.not_eq_true', decide_eq_false_iff_not]
    rintro rfl
    exact h hc
  obtain ⟨htake, -⟩ := takeWhile_append_of_stop (quote.char :: ds) hall (by simp)
  unfold frontString
  simp only [htake]
  rw [if_pos (by simp), String.ofList_toList]

theorem front_string {s : StringLiteral} (hw : s.text.toList = c :: cs)
    (h : (Token.string s).Legal) :
    front operand c (cs ++ ds) = (.token (.string s), cs.length) := by
  obtain ⟨value, quote⟩ := s
  have hv : quote.char ∉ value.toList := h
  have htext : (StringLiteral.text ⟨value, quote⟩).toList =
      quote.char :: (value.toList ++ [quote.char]) := by
    simp [StringLiteral.text, String.toList_singleton]
  rw [htext] at hw
  obtain ⟨rfl, rfl⟩ := List.cons.inj hw
  rw [List.append_assoc, List.length_append]
  cases quote <;> exact frontString_eq hv

theorem front_table {name : String} (hw : ("#" ++ name).toList = c :: cs)
    (h : (Token.table name).Legal) (hd : ∀ d ∈ ds.head?, isWordChar d = false) :
    front operand c (cs ++ ds) = (.token (.table name), cs.length) := by
  have htext : ("#" ++ name).toList = '#' :: name.toList := by simp
  rw [htext] at hw
  obtain ⟨rfl, rfl⟩ := List.cons.inj hw
  have hword : leadingWord (name.toList ++ ds) = name.toList := by
    rcases h with h | h
    · rw [h, List.nil_append]
      cases ds with
      | nil => rfl
      | cons d ds =>
        have hstart : ¬ isWordStart d = true := by
          have hc := hd d rfl
          simp only [isWordChar, Char.isAlphanum, Bool.or_eq_false_iff] at hc
          simp [isWordStart, hc]
        rw [leadingWord, if_neg hstart]
    · exact leadingWord_append h hd
  show (Content.token (.table (String.ofList (leadingWord _))), _) = _
  rw [hword, String.ofList_toList]

theorem front_percent (operand : Bool) (cs : List Char) : front operand '%' cs =
    match if operand then none else placeholder? cs with
    | some (p, n) => (.token (.placeholder p), n)
    | none => frontSymbol '%' cs := rfl

theorem front_placeholder {p : Placeholder} (hw : p.text.toList = c :: cs)
    (h : (Token.placeholder p).Legal) (hd : (Token.placeholder p).Ends ds) :
    front false c (cs ++ ds) = (.token (.placeholder p), cs.length) := by
  cases p with
  | positional =>
    obtain ⟨rfl, rfl⟩ : '%' = c ∧ ['s'] = cs := List.cons.inj hw
    have hany : ds.head?.any isWordChar = false := by
      cases ds with
      | nil => rfl
      | cons d ds => simpa [endsBefore] using hd d rfl
    have hp : placeholder? ('s' :: ds) = some (.positional, 1) := by
      rw [placeholder?, hany]
      rfl
    rw [List.singleton_append, front_percent, if_neg Bool.false_ne_true, hp]
    rfl
  | named name =>
    have htext : (Placeholder.named name).text.toList = '%' :: '(' :: (name.toList ++ [')', 's']) := by
      simp [Placeholder.text]
    rw [htext] at hw
    obtain ⟨rfl, rfl⟩ := List.cons.inj hw
    have hn : isWord name.toList = true := h
    have hname : leadingWord (name.toList ++ ')' :: 's' :: ds) = name.toList :=
      leadingWord_append hn (by simp only [List.head?_cons, Option.mem_some_iff, forall_eq']; decide)
    have hp : placeholder? ('(' :: (name.toList ++ ')' :: 's' :: ds)) =
        some (.named name, name.toList.length + 3) := by
      rw [placeholder?]
      simp only [hname, List.drop_left]
      rw [if_pos, String.ofList_toList]
      refine ⟨?_, by simp [List.isPrefixOf]⟩
      intro he
      rw [he] at hn
      cases hn
    rw [List.cons_append, List.append_assoc, List.cons_append, List.cons_append, List.nil_append,
      front_percent, if_neg Bool.false_ne_true, hp]
    simp

theorem Symbol.longestFirst_eq : Symbol.longestFirst =
    [.notEqual, .lessEqual, .greaterEqual, .notTilde, .leftParen, .rightParen, .leftBracket,
      .rightBracket, .comma, .dot, .star, .slash, .percent, .plus, .minus, .equal, .less, .greater,
      .tilde] := by decide

theorem frontSymbol_eq {s : Symbol}
    (h : Symbol.leading? (c :: cs) = some s) :
    frontSymbol c cs = (.token (.symbol s), s.spelling.length - 1) := by
  rw [frontSymbol, h]

theorem front_symbol {s : Symbol} (hw : s.spelling.toList = c :: cs)
    (hd : (Token.symbol s).Ends ds) :
    front operand c (cs ++ ds) = (.token (.symbol s), cs.length) := by
  cases s
  case dot =>
    obtain ⟨rfl, rfl⟩ : '.' = c ∧ [] = cs := List.cons.inj hw
    cases ds with
    | nil => rfl
    | cons d ds =>
      have hdigit : ¬ d.isDigit = true := by simpa [endsBefore] using hd d rfl
      show (if d.isDigit = true then _ else frontSymbol '.' (d :: ds)) = _
      rw [if_neg hdigit]
      rfl
  case slash =>
    obtain ⟨rfl, rfl⟩ : '/' = c ∧ [] = cs := List.cons.inj hw
    cases ds with
    | nil => rfl
    | cons d ds =>
      have hstar : d ≠ '*' := by simpa [endsBefore] using hd d rfl
      have : front operand '/' (d :: ds) = frontSymbol '/' (d :: ds) := by
        unfold front
        rw [if_neg (by decide), if_neg (by decide), if_neg (by decide)]
        split <;> simp_all
      rw [List.nil_append, this]
      rfl
  case percent =>
    obtain ⟨rfl, rfl⟩ : '%' = c ∧ [] = cs := List.cons.inj hw
    have hp : placeholder? ds = none := by
      cases ds with
      | nil => rfl
      | cons d ds =>
        have hend : d ≠ 's' ∧ d ≠ '(' := by simpa [endsBefore] using hd d rfl
        unfold placeholder?
        split <;> simp_all
    have : front operand '%' ds = frontSymbol '%' ds := by
      rw [front_percent, hp, ite_self]
    rw [List.nil_append, this]
    cases ds <;> rfl
  case less =>
    obtain ⟨rfl, rfl⟩ : '<' = c ∧ [] = cs := List.cons.inj hw
    cases ds with
    | nil => rfl
    | cons d ds =>
      have hne : d ≠ '=' := by simpa [endsBefore] using hd d rfl
      show frontSymbol '<' (d :: ds) = _
      refine frontSymbol_eq ?_
      simp [Symbol.leading?, Symbol.longestFirst_eq, Symbol.spelling, Ne.symm hne]
  case greater =>
    obtain ⟨rfl, rfl⟩ : '>' = c ∧ [] = cs := List.cons.inj hw
    cases ds with
    | nil => rfl
    | cons d ds =>
      have hne : d ≠ '=' := by simpa [endsBefore] using hd d rfl
      show frontSymbol '>' (d :: ds) = _
      refine frontSymbol_eq ?_
      simp [Symbol.leading?, Symbol.longestFirst_eq, Symbol.spelling, Ne.symm hne]
  all_goals
    obtain ⟨rfl, rfl⟩ := List.cons.inj hw
    rfl

/-- A legal token is read from its text, if the character after it ends it. -/
theorem front_eq {t : Token} (hw : t.text.toList = c :: cs) (hl : t.Legal) (hd : t.Ends ds)
    (hp : t.isPlaceholder = true → operand = false) :
    front operand c (cs ++ ds) = (.token t, cs.length) := by
  cases t with
  | keyword k written =>
    rw [front_word (w := written) hw hl.1 fun d hm => by simpa [endsBefore] using hd d hm,
      ofWord, hl.2]
  | ident name =>
    rw [front_word (w := name) hw hl.1 fun d hm => by simpa [endsBefore] using hd d hm,
      ofWord, hl.2]
  | integer digits => exact front_integer hw hl.2 hd
  | decimal written => exact front_decimal hw hl hd
  | date written => exact front_date hw hl
  | string s => exact front_string hw hl
  | table name => exact front_table hw hl fun d hm => by simpa [endsBefore] using hd d hm
  | placeholder p =>
    obtain rfl := hp rfl
    exact front_placeholder hw hl hd
  | symbol s => exact front_symbol hw hd
  | eof => exact absurd hl id

theorem Token.Legal.text_ne_nil {t : Token} (h : t.Legal) : ∃ c cs, t.text.toList = c :: cs := by
  refine List.exists_cons_of_ne_nil ?_
  cases t with
  | keyword k written =>
    intro he
    have hw : isWord written.toList = true := h.1
    rw [show written.toList = [] from he] at hw
    cases hw
  | ident name =>
    intro he
    have hw : isWord name.toList = true := h.1
    rw [show name.toList = [] from he] at hw
    cases hw
  | integer digits => exact h.1
  | decimal written =>
    obtain ⟨whole, fraction, he, -⟩ := h
    simp [text, he]
  | date written =>
    obtain ⟨year, tail, he, hy, -⟩ := h
    rw [text, he]
    rintro hnil
    obtain ⟨rfl, rfl⟩ := List.append_eq_nil_iff.mp hnil
    cases hy
  | string s => simp [text, StringLiteral.text, String.toList_singleton]
  | table name => simp [text]
  | placeholder p => cases p <;> simp [text, Placeholder.text]
  | symbol s => cases s <;> simp [text, Symbol.spelling]
  | eof => exact absurd h id

/-! ## Scanning -/

/-- The rest of a piece is passed over. -/
theorem scanFrom_skip {offset : Nat} :
    scanFrom operand offset cs.length (cs ++ ds) =
      scanFrom operand (offset + byteLength cs) 0 ds := by
  induction cs generalizing offset with
  | nil => rfl
  | cons c cs ih =>
    rw [List.length_cons, List.cons_append, scanFrom, ih, byteLength_cons, Nat.add_assoc]

end

/-- Whether a text is read as some tokens, after a token that ends an operand or not. -/
def Scans (operand : Bool) (cs : List Char) (ts : List Token) : Prop :=
  ∀ offset, ∃ lexemes, scanFrom operand offset 0 cs = .ok lexemes ∧
    lexemes.map Lexeme.token = ts

namespace Scans

variable {operand : Bool} {ds : List Char} {ts : List Token}

theorem nil : Scans operand [] [] := fun _ => ⟨[], rfl, rfl⟩

/-- A space before a text. -/
theorem space (h : Scans operand ds ts) : Scans operand (' ' :: ds) ts := fun offset => h (offset + 1)

/-- A token before a text that does not go on like it. -/
theorem token {t : Token} (h : Scans t.endsOperand ds ts) (hl : t.Legal) (hd : t.Ends ds)
    (hp : t.isPlaceholder = true → operand = false) :
    Scans operand (t.text.toList ++ ds) (t :: ts) := by
  intro offset
  obtain ⟨c, cs, hw⟩ := hl.text_ne_nil
  obtain ⟨lexemes, hs, hts⟩ := h (offset + c.utf8Size + byteLength cs)
  refine ⟨⟨t, ⟨offset, offset + byteLength (c :: (cs ++ ds).take cs.length)⟩⟩ :: lexemes, ?_,
    by simp [hts]⟩
  rw [hw, List.cons_append, scanFrom, front_eq hw hl hd hp]
  simp only [scanFrom_skip, hs, bind, Except.bind, pure, Except.pure]

end Scans

theorem scan_of_scans {source : String} {ts : List Token} (h : Scans false source.toList ts) :
    ∃ lexemes, scan source = .ok lexemes ∧ lexemes.map Lexeme.token = ts := by
  obtain ⟨lexemes, hs, hts⟩ := h 0
  exact ⟨lexemes, scan_ok_iff.mpr hs, hts⟩

end LedgerQuery
