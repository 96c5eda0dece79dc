import LedgerQuery.Proofs.Json.Values
import LedgerQuery.Proofs.Outline.Layout
import LedgerQuery.Proofs.Written.ScannedTree
import LedgerQuery.Query.Outline

/-!
# The atoms of outlines

The texts in the outline of a query are its constants, its names and keys in quotes, numbers and dates.  Without a line
feed each of them is the atom of a legible outline, and it stands for one value only.

A constant is written as it is in a query, so it is read off its text as tokens.  The literals among the tokens
are its items, and a list is what begins with a parenthesis (`Constant.eq_of_chars`).
-/

namespace LedgerQuery

open Outline Piece

/-- The literals of a constant. -/
def Constant.items : Constant → List Literal
  | .literal value => [value]
  | .list items => items

/-- Whether a literal is no string with a line feed. -/
def Literal.OneLine : Literal → Prop
  | .string s => '\n' ∉ s.value.toList
  | _ => True

/-! ## Texts on one line -/

namespace Outline

variable {cs ds : List Char}

theorem Inline.isAtom (h : Inline cs) : IsAtom cs := by
  obtain ⟨c, hc, -, hparen⟩ := h.first
  exact .plain h.line ⟨c, hc, fun he => hparen (by simp [he])⟩ h.last

/-- A text stays on its line with more of the line after it. -/
theorem Inline.append (h : Inline cs) (hline : '\n' ∉ ds) (hlast : ∀ c ∈ ds.getLast?, c ∉ [')', '\r']) :
    Inline (cs ++ ds) where
  line hm := (List.mem_append.mp hm).elim h.line hline
  first := by
    obtain ⟨c, hc, hkey⟩ := h.first
    exact ⟨c, by rw [List.head?_append, Option.mem_def.mp hc]; rfl, hkey⟩
  last c hc := by
    rw [List.getLast?_append] at hc
    cases hds : ds.getLast? with
    | none =>
      rw [hds] at hc
      exact h.last c hc
    | some d =>
      rw [hds] at hc
      exact hlast c (hds ▸ hc)

/-- A text that begins with a digit and has only digits, points and dashes. -/
theorem inline_of_digits {c : Char} (hc : c.isDigit = true) (h : ∀ d ∈ cs, d.isDigit = true ∨ d = '.' ∨ d = '-') :
    Inline (c :: cs) := by
  have hall : ∀ d ∈ c :: cs, d ∉ ['\n', ')', '\r'] := by
    intro d hd hbad
    have hd : d.isDigit = true ∨ d = '.' ∨ d = '-' := by
      rcases List.mem_cons.mp hd with rfl | hd
      · exact .inl hc
      · exact h d hd
    simp only [List.mem_cons, List.not_mem_nil, or_false] at hbad
    rcases hbad with rfl | rfl | rfl <;> rcases hd with hd | hd | hd <;> cases hd
  refine ⟨fun hm => hall _ hm (by simp), ⟨c, rfl, ?_, ?_⟩, fun d hd hbad => ?_⟩
  · rw [← Bool.not_eq_true]
    intro hkey
    rcases Bool.or_eq_true_iff.mp hkey with hlower | hdash
    · have hnot := isWordStart_of_isDigit hc
      simp [isWordStart, Char.isAlpha, hlower] at hnot
    · rw [of_decide_eq_true hdash] at hc
      cases hc
  · intro hm
    simp only [List.mem_cons, List.not_mem_nil, or_false] at hm
    rcases hm with rfl | rfl <;> cases hc
  · exact hall d (List.mem_of_mem_getLast? hd) (by
      simp only [List.mem_cons, List.not_mem_nil, or_false] at hbad ⊢
      exact .inr hbad)

theorem inline_of_all_digits (hne : cs ≠ []) (h : ∀ d ∈ cs, d.isDigit = true) : Inline cs := by
  obtain ⟨c, cs, rfl⟩ := List.exists_cons_of_ne_nil hne
  exact inline_of_digits (h c (by simp)) fun d hd => .inl (h d (List.mem_cons_of_mem c hd))

/-- A text between two quotes. -/
theorem inline_of_quotes (style : QuoteStyle) (h : '\n' ∉ cs) : Inline (style.char :: cs ++ [style.char]) where
  line := by cases style <;> simpa [QuoteStyle.char] using h
  first := ⟨style.char, rfl, by cases style <;> rfl, by cases style <;> simp [QuoteStyle.char]⟩
  last c hc := by
    rw [List.getLast?_concat] at hc
    obtain rfl : style.char = c := Option.some.inj hc
    cases style <;> simp [QuoteStyle.char]

/-- A name or key in quotes is legible if it is on one line. -/
theorem legible_quoted {name : String} (h : '\n' ∉ name.toList) : Legible (quoted name) := by
  have htext : ("'" ++ name ++ "'").toList = QuoteStyle.single.char :: name.toList ++ [QuoteStyle.single.char] := by
    simp [QuoteStyle.char]
  refine .atom (Inline.isAtom ?_)
  rw [htext]
  exact inline_of_quotes .single h

theorem quoted_inj {name name' : String} (h : quoted name = quoted name') : name = name' := by
  have htext : '\'' :: (name.toList ++ ['\'']) = '\'' :: (name'.toList ++ ['\'']) := by
    simpa [quoted, ← String.toList_inj] using h
  exact String.toList_inj.mp (List.append_cancel_right (List.cons.inj htext).2)

end Outline

/-! ## Numbers and dates -/

theorem inline_numeral (n : Nat) : Inline (numeral n) :=
  inline_of_all_digits Nat.toDigits_ne_nil fun _ => isDigit_of_mem_numeral

theorem legible_number (n : UInt64) : Legible (numberOutline n) :=
  .atom (by rw [toList_toString]; exact (inline_numeral _).isAtom)

theorem numberOutline_inj {n m : UInt64} (h : numberOutline n = numberOutline m) : n = m := by
  have htext : toString n.toNat = toString m.toNat := Outline.atom.inj h
  exact Except.ok.inj ((countOf_toString n).symm.trans (htext ▸ countOf_toString m))

theorem Date.inline_text {d : Date} (h : 0 ≤ d.year ∧ d.year ≤ 9999) : Inline d.text.toList := by
  obtain ⟨c, cs, hyear⟩ := List.exists_cons_of_ne_nil (l := padded 4 d.year.natAbs) fun hnil => by
    have := le_length_padded (w := 4) (n := d.year.natAbs)
    rw [hnil] at this
    cases this
  have hall : ∀ x ∈ c :: cs, x.isDigit = true := fun x hx => isDigit_of_mem_padded (hyear ▸ hx)
  rw [Date.toList_text h, hyear, List.cons_append]
  refine inline_of_digits (hall c (by simp)) fun x hx => ?_
  simp only [List.mem_append, List.mem_cons] at hx
  rcases hx with hx | rfl | hx | rfl | hx
  · exact .inl (hall x (List.mem_cons_of_mem c hx))
  · exact .inr (.inr rfl)
  · exact .inl (isDigit_of_mem_padded hx)
  · exact .inr (.inr rfl)
  · exact .inl (isDigit_of_mem_padded hx)

theorem Date.text_inj {d d' : Date} (h : d.text = d'.text) : d = d' :=
  Option.some.inj ((Date.ofText?_text d).symm.trans (h ▸ Date.ofText?_text d'))

/-! ## Constants -/

/-- The written form of a literal is on one line, if a string in it is. -/
theorem Literal.Writable.inline {l : Literal} (h : l.Writable) (hl : l.OneLine) : Inline l.token.text.toList := by
  cases l with
  | null => exact ⟨by simp [Literal.token, Token.text], ⟨'N', rfl, rfl, by simp⟩, by simp [Literal.token, Token.text]⟩
  | boolean b =>
    cases b with
    | false => exact ⟨by simp [Literal.token, Token.text], ⟨'F', rfl, rfl, by simp⟩, by simp [Literal.token, Token.text]⟩
    | true => exact ⟨by simp [Literal.token, Token.text], ⟨'T', rfl, rfl, by simp⟩, by simp [Literal.token, Token.text]⟩
  | integer n =>
    show Inline (Literal.integerText n).toList
    rw [toList_integerText h]
    exact inline_numeral _
  | decimal d =>
    obtain ⟨c, cs, hwhole⟩ := List.exists_cons_of_ne_nil d.whole_ne_nil
    have hall : ∀ x ∈ c :: cs, x.isDigit = true := List.all_eq_true.mp (hwhole ▸ d.whole_all)
    show Inline (Literal.decimalText d).toList
    rw [Decimal.toList_decimalText h, hwhole, List.cons_append]
    refine inline_of_digits (hall c (by simp)) fun x hx => ?_
    rcases List.mem_append.mp hx with hx | hx
    · exact .inl (hall x (List.mem_cons_of_mem c hx))
    · rcases List.mem_cons.mp hx with rfl | hx
      · exact .inr (.inl rfl)
      · exact .inl (List.all_eq_true.mp d.fraction_all x hx)
  | date d => exact Date.inline_text h
  | string s =>
    have htext : (Token.string s).text.toList = s.quote.char :: s.value.toList ++ [s.quote.char] := by
      simp [Token.text, StringLiteral.text]
    show Inline (Token.string s).text.toList
    rw [htext]
    exact inline_of_quotes s.quote hl

theorem chars_token_singleton (t : Token) : chars [Piece.token t] = t.text.toList := by
  rw [chars_cons, chars_nil, List.append_nil]
  rfl

/-- The written forms of some literals with commas between are on one line. -/
theorem inline_commaSeparated {l : Literal} {items : List Literal} (hw : ∀ x ∈ l :: items, x.Writable)
    (hl : ∀ x ∈ l :: items, x.OneLine) :
    Inline (chars (commaSeparated ((l :: items).map fun x => [Piece.token x.token]))) := by
  induction items generalizing l with
  | nil =>
    rw [List.map_cons, List.map_nil, commaSeparated, List.intercalate_singleton, chars_token_singleton]
    exact (hw l (by simp)).inline (hl l (by simp))
  | cons m items ih =>
    have h := (hw l (by simp)).inline (hl l (by simp))
    have hrest := ih (fun x hx => hw x (List.mem_cons_of_mem l hx)) fun x hx => hl x (List.mem_cons_of_mem l hx)
    have hsep : chars [Piece.symbol .comma, Piece.space] = [',', ' '] := rfl
    rw [List.map_cons] at hrest
    rw [List.map_cons, List.map_cons, commaSeparated, List.intercalate_cons_cons, chars_append, chars_append,
      chars_token_singleton, hsep, List.append_assoc]
    refine h.append (fun hm => hrest.line ?_) fun c hc => hrest.last c ?_
    · exact (List.mem_append.mp hm).resolve_left (by simp)
    · obtain ⟨d, hd, -⟩ := hrest.first
      obtain ⟨cs, hcs⟩ := List.head?_eq_some_iff.mp (Option.mem_def.mp hd)
      rw [commaSeparated] at hcs ⊢
      rwa [hcs, List.getLast?_append_cons, ← hcs] at hc

/-- The outline of a constant is legible if it is on one line. -/
theorem Constant.Writable.legible {c : Constant} (h : c.Writable) (hl : ∀ x ∈ c.items, x.OneLine) :
    Legible c.outline := by
  have hparen : ∀ ps, chars (parenthesised ps) = '(' :: chars ps ++ [')'] := by
    intro ps
    rw [parenthesised, List.cons_append, chars_cons, chars_append]
    rfl
  refine .atom ?_
  show IsAtom (chars c.pieces)
  cases c with
  | literal l =>
    show IsAtom (chars [Piece.token l.token])
    rw [chars_token_singleton]
    exact (Literal.Writable.inline h (hl l (by simp [Constant.items]))).isAtom
  | list items =>
    obtain ⟨hne, hw⟩ := h
    rcases items with _ | ⟨l, _ | ⟨m, items⟩⟩
    · exact absurd rfl hne
    · have hcomma : chars [Piece.token l.token, Piece.symbol .comma] = l.token.text.toList ++ [','] := by
        rw [chars_cons]
        rfl
      show IsAtom (chars (parenthesised [Piece.token l.token, Piece.symbol .comma]))
      rw [hparen, hcomma]
      have hinline : Inline l.token.text.toList := (hw l (by simp)).inline (hl l (by simp [Constant.items]))
      exact IsAtom.enclosed (hinline.append (by simp) (by simp))
    · have hpieces : (Constant.list (l :: m :: items)).pieces =
          parenthesised (commaSeparated ((l :: m :: items).map fun x => [Piece.token x.token])) := rfl
      rw [hpieces, hparen]
      exact .enclosed (inline_commaSeparated hw hl)

/-! ## What a text stands for -/

theorem Scans.unique {operand : Bool} {cs : List Char} {ts us : List Token} (h : Scans operand cs ts)
    (h' : Scans operand cs us) : ts = us := by
  obtain ⟨lexemes, hl, rfl⟩ := h 0
  obtain ⟨lexemes', hl', rfl⟩ := h' 0
  rw [Except.ok.inj (hl.symm.trans hl')]

/-- The literals of some tokens. -/
def literalsOf (ts : List Token) : List Literal := ts.filterMap fun t => t.literal?.bind Except.toOption

theorem Literal.Writable.literalsOf_cons {l : Literal} (h : l.Writable) (ts : List Token) :
    literalsOf (l.token :: ts) = l :: literalsOf ts := by
  simp [literalsOf, h.literal?_token, Except.toOption]

theorem literalsOf_symbol (s : Symbol) (ts : List Token) : literalsOf (.symbol s :: ts) = literalsOf ts := rfl

theorem literalsOf_append (ts us : List Token) : literalsOf (ts ++ us) = literalsOf ts ++ literalsOf us :=
  List.filterMap_append

/-- The literals among the tokens of a constant are its items. -/
theorem Constant.Writable.literalsOf_tokens {c : Constant} (h : c.Writable) :
    literalsOf (tokens c.pieces) = c.items := by
  cases c with
  | literal l => exact Literal.Writable.literalsOf_cons h []
  | list items =>
    obtain ⟨hne, hw⟩ := h
    match items, hne, hw with
    | [l], _, hw =>
      show literalsOf (tokens (parenthesised [Piece.token l.token, Piece.symbol .comma])) = _
      rw [tokens_parenthesised, literalsOf_symbol]
      exact (hw l (by simp)).literalsOf_cons _
    | l :: m :: items, _, hw =>
      have hall : ∀ items : List Literal, (∀ x ∈ items, x.Writable) → literalsOf ((items.map fun x =>
          [Piece.token x.token]).flatMap fun qs => tokens [Piece.symbol .comma, Piece.space] ++ tokens qs) = items := by
        intro items hw
        induction items with
        | nil => rfl
        | cons x items ih =>
          rw [List.map_cons, List.flatMap_cons, literalsOf_append, ih fun y hy => hw y (List.mem_cons_of_mem x hy)]
          exact congrArg (· ++ items) ((hw x (by simp)).literalsOf_cons [])
      show literalsOf (tokens (parenthesised (commaSeparated ((l :: m :: items).map fun x => [Piece.token x.token])))) = _
      rw [tokens_parenthesised, literalsOf_symbol, literalsOf_append, List.map_cons, commaSeparated, tokens_intercalate,
        literalsOf_append, hall _ fun x hx => hw x (List.mem_cons_of_mem l hx)]
      rw [tokens_token, (hw l (by simp)).literalsOf_cons]
      exact congrArg (l :: ·) (List.append_nil (m :: items))

/-- A list begins with a parenthesis, and a literal does not. -/
theorem Constant.head?_tokens (c : Constant) :
    (tokens c.pieces).head? = some (.symbol .leftParen) ↔ ∃ items, c = .list items := by
  cases c with
  | literal l =>
    have hne : l.token ≠ .symbol .leftParen := by
      cases l with
      | boolean b => cases b <;> simp [Literal.token]
      | _ => simp [Literal.token]
    simp [Constant.pieces, hne]
  | list items =>
    rcases items with _ | ⟨_, _ | ⟨_, _⟩⟩ <;> simp [Constant.pieces, tokens_parenthesised]

/-- A constant is determined by its written form. -/
theorem Constant.Writable.outline_inj {c c' : Constant} (h : c.Writable) (h' : c'.Writable)
    (he : c.outline = c'.outline) : c = c' := by
  have hscans : ∀ {c : Constant}, c.Writable → Scans false (chars c.pieces) (tokens c.pieces) := by
    intro c h
    obtain ⟨us, hus, hs⟩ := Scanned.constant h
    have hscan := hs [] [] (Expr.follow_of_breaks _ (by simp [Breaks])) (fun _ _ => Scans.nil) false rfl
    rw [List.append_nil, List.append_nil] at hscan
    exact hus.1 trivial ▸ hscan
  have hchars : chars c.pieces = chars c'.pieces := congrArg String.toList (Outline.atom.inj he)
  have htokens : tokens c.pieces = tokens c'.pieces := (hscans h).unique (hchars ▸ hscans h')
  have hitems : c.items = c'.items := by rw [← h.literalsOf_tokens, htokens, h'.literalsOf_tokens]
  have hlist : (∃ items, c = .list items) ↔ ∃ items, c' = .list items := by
    rw [← c.head?_tokens, htokens, c'.head?_tokens]
  cases c with
  | literal l =>
    cases c' with
    | literal l' => rw [(List.cons.inj hitems).1]
    | list items' => simp at hlist
  | list items =>
    cases c' with
    | literal l' => simp at hlist
    | list items' => exact congrArg Constant.list hitems

end LedgerQuery
