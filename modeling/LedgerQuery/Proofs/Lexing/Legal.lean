import LedgerQuery.Token.Scan
import Mathlib

/-!
# The tokens of a text

A token that is read from a text is legal.  Its word is a word and a keyword or
not, its digits are digits, and its string does not hold its own quote.  The end of
input is no legal token.

The other way round, a legal token is read from its text, if the character
after it ends it (`Token.ends`).  So `front_eq` and `front_legal` say together
which pieces of text are tokens.
-/

namespace LedgerQuery

/-- Whether a run of characters is a word. -/
def isWord : List Char → Bool
  | [] => false
  | c :: cs => isWordStart c && cs.all isWordChar

namespace Token

/-- Whether a token can stand in a text. -/
def Legal : Token → Prop
  | keyword k written => isWord written.toList ∧ Keyword.lookup? written = some k
  | ident name => isWord name.toList ∧ Keyword.lookup? name = none
  | integer digits => digits.toList ≠ [] ∧ digits.toList.all Char.isDigit
  | decimal written => ∃ whole fraction, written.toList = whole ++ '.' :: fraction ∧
      whole.all Char.isDigit ∧ fraction.all Char.isDigit ∧ (whole ≠ [] ∨ fraction ≠ [])
  | date written => ∃ year tail, written.toList = year ++ tail ∧ year.length = 4 ∧
      year.all Char.isDigit ∧ tail.length = 6 ∧ isDateTail tail
  | string s => s.quote.char ∉ s.value.toList
  | table name => name.toList = [] ∨ isWord name.toList
  | placeholder .positional => True
  | placeholder (.named name) => isWord name.toList
  | symbol _ => True
  | eof => False

/-- A word is a legal token. -/
theorem legal_ofWord {word : String} (h : isWord word.toList) : (ofWord word).Legal := by
  unfold ofWord
  cases hk : Keyword.lookup? word with
  | some k => exact ⟨h, hk⟩
  | none => exact ⟨h, hk⟩

theorem Legal.ne_eof {t : Token} (h : t.Legal) : t ≠ .eof := by
  rintro rfl
  exact h

end Token

theorem isWord_leadingWord {cs : List Char} : leadingWord cs = [] ∨ isWord (leadingWord cs) := by
  cases cs with
  | nil => exact .inl rfl
  | cons c cs =>
    by_cases hc : isWordStart c = true
    · right
      rw [leadingWord, if_pos hc, isWord, hc, Bool.true_and]
      exact List.all_takeWhile
    · exact .inl (if_neg hc)

theorem isDateTail_iff {cs : List Char} : isDateTail cs ↔
    ∃ m₁ m₂ d₁ d₂ rest, cs = '-' :: m₁ :: m₂ :: '-' :: d₁ :: d₂ :: rest ∧
      m₁.isDigit ∧ m₂.isDigit ∧ d₁.isDigit ∧ d₂.isDigit := by
  constructor
  · intro h
    unfold isDateTail at h
    split at h
    · exact ⟨_, _, _, _, _, rfl, by simpa using h⟩
    · cases h
  · rintro ⟨m₁, m₂, d₁, d₂, rest, rfl, h₁, h₂, h₃, h₄⟩
    simp [isDateTail, h₁, h₂, h₃, h₄]

/-! ## What is read is legal -/

section
variable {operand : Bool} {c : Char} {cs : List Char} {t : Token} {n : Nat}

theorem frontNumber_legal (hc : c.isDigit) (h : frontNumber c cs = (.token t, n)) : t.Legal := by
  have hd : (cs.takeWhile Char.isDigit).all Char.isDigit := List.all_takeWhile
  unfold frontNumber at h
  simp only at h
  split at h
  · next hdate =>
    obtain ⟨hlen, htail⟩ := hdate
    obtain ⟨m₁, m₂, d₁, d₂, rest, hr, hm₁, hm₂, hd₁, hd₂⟩ := isDateTail_iff.mp htail
    obtain ⟨⟨⟩, -⟩ := Prod.mk.inj h
    refine ⟨c :: cs.takeWhile Char.isDigit, (cs.dropWhile Char.isDigit).take 6, by simp, by simp [hlen],
      by simp [hc], by simp [hr], ?_⟩
    simp [hr, isDateTail, hm₁, hm₂, hd₁, hd₂]
  · split at h
    · obtain ⟨⟨⟩, -⟩ := Prod.mk.inj h
      exact ⟨c :: cs.takeWhile Char.isDigit, _, by rw [String.toList_ofList], by simp [hc],
        List.all_takeWhile, .inl (by simp)⟩
    · obtain ⟨⟨⟩, -⟩ := Prod.mk.inj h
      exact ⟨by simp, by simp [hc]⟩

theorem frontString_legal {quote : QuoteStyle} (h : frontString quote cs = (.token t, n)) :
    t.Legal := by
  unfold frontString at h
  simp only at h
  split at h
  · obtain ⟨⟨⟩, -⟩ := Prod.mk.inj h
    have hq : (cs.takeWhile (· ≠ quote.char)).all (· ≠ quote.char) := List.all_takeWhile
    intro hmem
    exact absurd (List.all_eq_true.mp hq quote.char (by simpa using hmem)) (by simp)
  · simp at h

theorem frontSymbol_legal (h : frontSymbol c cs = (.token t, n)) : t.Legal := by
  unfold frontSymbol at h
  split at h
  · obtain ⟨⟨⟩, -⟩ := Prod.mk.inj h
    trivial
  · simp at h

theorem placeholder?_legal {p : Placeholder} (h : placeholder? cs = some (p, n)) :
    (Token.placeholder p).Legal := by
  unfold placeholder? at h
  split at h
  · split at h
    · cases h
    · obtain ⟨⟨⟩, -⟩ := Prod.mk.inj (Option.some.inj h)
      trivial
  · next cs =>
    simp only at h
    split at h
    · next hn =>
      obtain ⟨⟨⟩, -⟩ := Prod.mk.inj (Option.some.inj h)
      show isWord (String.ofList (leadingWord cs)).toList = true
      rw [String.toList_ofList]
      exact isWord_leadingWord.resolve_left hn.1
    · cases h
  · cases h

/-- A token that is read from a text is legal. -/
theorem front_legal (h : front operand c cs = (.token t, n)) : t.Legal := by
  unfold front at h
  split at h
  · simp at h
  split at h
  · next hc =>
    obtain ⟨⟨⟩, -⟩ := Prod.mk.inj h
    refine Token.legal_ofWord ?_
    simp only [String.toList_ofList, isWord, hc, Bool.true_and]
    exact List.all_takeWhile
  split at h
  · next hc => exact frontNumber_legal hc h
  split at h
  · exact frontString_legal h
  · exact frontString_legal h
  · obtain ⟨⟨⟩, -⟩ := Prod.mk.inj h
    simpa only [Token.Legal, String.toList_ofList] using isWord_leadingWord
  · simp at h
  · unfold frontComment at h
    split at h <;> simp at h
  · split at h
    · next d cs hd =>
      obtain ⟨⟨⟩, -⟩ := Prod.mk.inj h
      exact ⟨[], _, String.toList_ofList, rfl, List.all_takeWhile, .inr (by simp [hd])⟩
    · exact frontSymbol_legal h
  · split at h
    · next hp =>
      obtain ⟨⟨⟩, rfl⟩ := Prod.mk.inj h
      split at hp
      · cases hp
      · exact placeholder?_legal hp
    · exact frontSymbol_legal h
  · exact frontSymbol_legal h

theorem scanFrom_legal {offset skip : Nat} {lexemes : List Lexeme}
    (h : scanFrom operand offset skip cs = .ok lexemes) : ∀ l ∈ lexemes, l.token.Legal := by
  induction cs generalizing operand offset skip lexemes with
  | nil =>
    obtain rfl : [] = lexemes := by simpa [scanFrom] using h
    simp
  | cons c cs ih =>
    cases skip with
    | succ skip => exact ih (by simpa [scanFrom] using h)
    | zero =>
      rw [scanFrom] at h
      rcases hf : front operand c cs with ⟨_ | _ | f, n⟩
      · next t =>
        rw [hf] at h
        simp only [bind, Except.bind] at h
        split at h
        · cases h
        · next rest hrest =>
          obtain rfl : _ :: rest = lexemes := by simpa [pure, Except.pure] using h
          intro l hl
          rcases List.mem_cons.mp hl with rfl | hl
          · exact front_legal hf
          · exact ih hrest l hl
      · rw [hf] at h
        exact ih h
      · rw [hf] at h
        cases h

end

theorem scan_ok_iff {source : String} {lexemes : List Lexeme} :
    scan source = .ok lexemes ↔ scanFrom false 0 0 source.toList = .ok lexemes := by
  unfold scan
  rcases scanFrom false 0 0 source.toList with ⟨_, _⟩ | _ <;> simp

/-- The tokens of a text are legal. -/
theorem scan_legal {source : String} {lexemes : List Lexeme} (h : scan source = .ok lexemes) :
    ∀ l ∈ lexemes, l.token.Legal := scanFrom_legal (scan_ok_iff.mp h)

end LedgerQuery
