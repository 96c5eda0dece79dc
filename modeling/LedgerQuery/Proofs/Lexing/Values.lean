import LedgerQuery.Grammar.Value
import LedgerQuery.Proofs.Lexing.Legal
import LedgerQuery.Query.Written

/-!
# Written values are read back

A literal that a text can hold is written as a legal token that stands for the
same literal (`Literal.Writable.token_legal`, `Literal.Writable.literal?_token`).
The literal of a legal token is of this kind (`Literal.writable_of_token`).

Numbers and dates without a sign are the ones a text can hold, since a sign is a
token of its own.  A date also has at most four digits for its year.
-/

namespace LedgerQuery

/-! ## Digits -/

theorem isDigit_of_mem_numeral {n : Nat} {c : Char} (h : c ∈ numeral n) : c.isDigit = true :=
  Nat.isDigit_of_mem_toDigits (by decide) (by decide) h

theorem isDigit_of_mem_padded {w n : Nat} {c : Char} (h : c ∈ padded w n) :
    c.isDigit = true := by
  simp only [padded, List.leftpad, List.mem_append, List.mem_replicate] at h
  rcases h with ⟨-, rfl⟩ | h
  · decide
  · exact isDigit_of_mem_numeral h

theorem padded_all {w n : Nat} : (padded w n).all Char.isDigit = true :=
  List.all_eq_true.mpr fun _ => isDigit_of_mem_padded

theorem length_padded {w n : Nat} (hw : 0 < w) (hn : n < 10 ^ w) :
    (padded w n).length = w := by
  have := (Nat.length_toDigits_le_iff (b := 10) (by decide) hw).mpr hn
  simp only [padded, List.leftpad, List.length_append, List.length_replicate, numeral]
  omega

theorem le_length_padded {w n : Nat} : w ≤ (padded w n).length := by
  simp only [padded, List.leftpad, List.length_append, List.length_replicate]
  omega

/-- Digits stand for a number below the power of ten of their length. -/
theorem digitsValue_lt {digits : List Char} (h : digits.all Char.isDigit = true) :
    digitsValue digits < 10 ^ digits.length := by
  have hfold : ∀ (cs : List Char) (init : Nat), cs.all Char.isDigit = true →
      Nat.ofDigitChars 10 cs init < (init + 1) * 10 ^ cs.length := by
    intro cs
    induction cs with
    | nil => simp
    | cons c cs ih =>
      intro init hc
      obtain ⟨hd, hcs⟩ : c.isDigit = true ∧ cs.all Char.isDigit = true := by simpa using hc
      have hval : c.toNat - '0'.toNat ≤ 9 := by
        simp only [Char.isDigit, Bool.and_eq_true, decide_eq_true_eq, ge_iff_le,
          UInt32.le_iff_toNat_le] at hd
        have h₁ : c.toNat = c.val.toNat := rfl
        have h₂ : '0'.toNat = 48 := rfl
        have h₃ : '9'.val.toNat = 57 := rfl
        omega
      rw [Nat.ofDigitChars_cons, List.length_cons, Nat.pow_succ]
      have hstep := ih (10 * init + (c.toNat - '0'.toNat)) hcs
      calc _ < (10 * init + (c.toNat - '0'.toNat) + 1) * 10 ^ cs.length := hstep
        _ ≤ ((init + 1) * 10) * 10 ^ cs.length := Nat.mul_le_mul_right _ (by omega)
        _ = (init + 1) * (10 ^ cs.length * 10) := by
          rw [Nat.mul_assoc, Nat.mul_comm 10]
  have hall := hfold digits 0 h
  rwa [Nat.zero_add, Nat.one_mul] at hall

/-! ## Numbers -/

theorem toList_integerText {n : Int64} (h : 0 ≤ n.toInt) :
    (Literal.integerText n).toList = numeral n.toInt.toNat := by
  obtain ⟨k, hk⟩ := Int.eq_ofNat_of_zero_le h
  rw [Literal.integerText, hk]
  show (toString k).toList = _
  rw [Int.toNat_natCast, Nat.toString_eq_repr, Nat.toList_repr]
  rfl

theorem toList_toString (n : Nat) : (toString n).toList = numeral n := by
  rw [Nat.toString_eq_repr, Nat.toList_repr]
  rfl

theorem integerOf_integerText {n : Int64} (h : 0 ≤ n.toInt) :
    integerOf (Literal.integerText n) = .ok n := by
  have hn := n.toInt_lt
  have hmax : Int64.maxValue.toInt = 2 ^ 63 - 1 := by decide
  rw [integerOf, toList_integerText h, digitsValue_numeral, hmax]
  rw [if_pos (by omega), ← Int64.ofInt_eq_ofNat, Int.toNat_of_nonneg h, Int64.ofInt_toInt]

theorem countOf_toString (n : UInt64) : countOf (toString n.toNat) = .ok n := by
  rw [countOf, toList_toString, digitsValue_numeral]
  rw [if_pos n.toNat_lt_size, UInt64.ofNat_toNat]

namespace Decimal

variable {d : Decimal}

theorem length_fraction : d.fraction.length = d.scale := by
  have := le_length_padded (w := d.scale + 1) (n := d.coefficient.natAbs)
  simp only [fraction, List.length_drop, digits]
  omega

theorem whole_append_fraction : d.whole ++ d.fraction = d.digits := List.take_append_drop ..

theorem whole_ne_nil : d.whole ≠ [] := by
  have := le_length_padded (w := d.scale + 1) (n := d.coefficient.natAbs)
  intro h
  have hlen : d.whole.length = 0 := by rw [h]; rfl
  simp only [whole, List.length_take, digits] at hlen
  omega

theorem whole_all : d.whole.all Char.isDigit = true :=
  List.all_eq_true.mpr fun _ hc => isDigit_of_mem_padded (List.mem_of_mem_take hc)

theorem fraction_all : d.fraction.all Char.isDigit = true :=
  List.all_eq_true.mpr fun _ hc => isDigit_of_mem_padded (List.mem_of_mem_drop hc)

/-- The written form of a decimal without a sign has a point. -/
theorem toList_decimalText (h : 0 ≤ d.coefficient) :
    (Literal.decimalText d).toList = d.whole ++ '.' :: d.fraction := by
  have htext : d.text.toList = d.magnitude := by
    rw [text, if_neg (by omega), String.toList_ofList]
  unfold Literal.decimalText
  split
  · next hs =>
    have hf : d.fraction = [] := List.length_eq_zero_iff.mp (length_fraction.trans hs)
    simp [htext, magnitude, hs, hf]
  · next hs => simp [htext, magnitude, hs]

theorem decimalOf_decimalText (h : 0 ≤ d.coefficient) :
    decimalOf (Literal.decimalText d) = .ok d := by
  have hdot : ('.' : Char).isDigit = false := by decide
  have hw : ∀ c ∈ d.whole, c.isDigit = true := by simpa using d.whole_all
  have htake : (Literal.decimalText d).toList.takeWhile Char.isDigit = d.whole := by
    rw [toList_decimalText h, List.takeWhile_append_of_pos hw,
      List.takeWhile_cons_of_neg (by simp [hdot]), List.append_nil]
  have hdrop : ((Literal.decimalText d).toList.dropWhile Char.isDigit).drop 1 = d.fraction := by
    rw [toList_decimalText h, List.dropWhile_append_of_pos hw,
      List.dropWhile_cons_of_neg (by simp [hdot])]
    rfl
  have hvalue : digitsValue (d.whole ++ d.fraction) = d.coefficient.natAbs := by
    rw [whole_append_fraction, digits, digitsValue_padded]
  simp only [decimalOf, htake, hdrop, ofDigits?, hvalue, length_fraction]
  rw [dif_pos ⟨d.coefficient_lt, d.scale_le⟩]
  obtain ⟨coefficient, scale, hc, hs⟩ := d
  simp only [Except.ok.injEq, Decimal.mk.injEq, and_true]
  exact Int.natAbs_of_nonneg h

end Decimal

/-! ## Dates -/

theorem not_blank_of_isDigit {c : Char} (h : c.isDigit = true) :
    CharSet.blank.contains c = false := by
  simp only [Char.isDigit, Bool.and_eq_true, decide_eq_true_eq, ge_iff_le,
    UInt32.le_iff_toNat_le] at h
  have h₁ : c.toNat = c.val.toNat := rfl
  have h₂ : '0'.val.toNat = 48 := rfl
  have h₃ : '9'.val.toNat = 57 := rfl
  simp only [CharSet.contains, CharSet.blank, List.any_cons, List.any_nil, Bool.or_eq_false_iff,
    Bool.and_eq_false_iff, decide_eq_false_iff_not, and_true]
  and_intros <;> omega

theorem dropBlanks_cons {c : Char} {cs : List Char} (h : CharSet.blank.contains c = false) :
    dropBlanks (c :: cs) = c :: cs := List.dropWhile_cons_of_neg (by simp [h])

theorem dropBlanks_digits {digits : List Char} (rest : List Char) (hne : digits ≠ [])
    (h : digits.all Char.isDigit = true) : dropBlanks (digits ++ rest) = digits ++ rest := by
  obtain ⟨c, digits, rfl⟩ := List.exists_cons_of_ne_nil hne
  exact dropBlanks_cons (not_blank_of_isDigit (List.all_eq_true.mp h c (by simp)))

theorem leadingNumber?_append {digits : List Char} (rest : List Char) (hne : digits ≠ [])
    (h : digits.all Char.isDigit = true) :
    leadingNumber? digits.length (digits ++ rest) = some (digitsValue digits, rest) := by
  have htake : digits.takeWhile Char.isDigit = digits := by
    rw [← List.append_nil digits, List.takeWhile_append_of_pos (List.all_eq_true.mp h)]
    simp
  simp only [leadingNumber?, List.take_left, htake, if_neg hne, List.drop_left]

namespace Date

theorem leadingYear?_append {year rest : List Char} (hlen : year.length = 4)
    (h : year.all Char.isDigit = true) :
    leadingYear? (year ++ rest) = some ((digitsValue year : Int), rest) := by
  have hne : year ≠ [] := by
    rintro rfl
    cases hlen
  have hnumber := leadingNumber?_append rest hne h
  rw [hlen] at hnumber
  obtain ⟨c, year, rfl⟩ := List.exists_cons_of_ne_nil hne
  have hc : c.isDigit = true := List.all_eq_true.mp h c (by simp)
  unfold leadingYear?
  split
  · next heq =>
    obtain ⟨rfl, -⟩ := List.cons.inj heq
    exact absurd hc (by decide)
  · next heq =>
    obtain ⟨rfl, -⟩ := List.cons.inj heq
    exact absurd hc (by decide)
  · rw [hnumber]
    rfl

/-- The date of a year, two digits and two digits. -/
theorem ofChars?_of_leadingYear? {cs month day : List Char} {year : Int}
    (hy : leadingYear? (dropBlanks cs) = some (year, '-' :: (month ++ '-' :: day)))
    (hm : month.all Char.isDigit = true) (hd : day.all Char.isDigit = true) (hml : month.length = 2)
    (hdl : day.length = 2) : ofChars? cs = of? year (digitsValue month) (digitsValue day) := by
  have hmne : month ≠ [] := by
    rintro rfl
    cases hml
  have hdne : day ≠ [] := by
    rintro rfl
    cases hdl
  have hdash : CharSet.blank.contains '-' = false := by decide
  have hmonth := leadingNumber?_append ('-' :: day) hmne hm
  have hday := leadingNumber?_append [] hdne hd
  have hdrop := dropBlanks_digits [] hdne hd
  rw [hml] at hmonth
  rw [hdl] at hday
  rw [List.append_nil] at hday hdrop
  simp only [ofChars?, bind, Option.bind, hy, dropBlanks_cons hdash, afterDash?, dropBlanks_digits _ hmne hm,
    hmonth, hdrop, hday]
  exact if_pos rfl

/-- The date of four, two and two digits. -/
theorem ofChars?_digits {year month day : List Char} (hy : year.all Char.isDigit = true)
    (hm : month.all Char.isDigit = true) (hd : day.all Char.isDigit = true) (hyl : year.length = 4)
    (hml : month.length = 2) (hdl : day.length = 2) :
    ofChars? (year ++ '-' :: (month ++ '-' :: day)) =
      of? (digitsValue year) (digitsValue month) (digitsValue day) := by
  have hyne : year ≠ [] := by
    rintro rfl
    cases hyl
  refine ofChars?_of_leadingYear? ?_ hm hd hml hdl
  rw [dropBlanks_digits _ hyne hy, leadingYear?_append hyl hy]

variable {d : Date}

theorem month_lt : d.month < 10 ^ 2 := by
  have := d.valid.2.1.2
  omega

theorem day_lt : d.day < 10 ^ 2 := by
  have hd := d.valid.2.2.2
  have hlen : monthLength d.year d.month ≤ 31 := by
    unfold monthLength
    split
    · split <;> omega
    all_goals omega
  omega

theorem toList_text (hy : 0 ≤ d.year ∧ d.year ≤ 9999) :
    d.text.toList = padded 4 d.year.natAbs ++ '-' :: (padded 2 d.month ++ '-' :: padded 2 d.day) := by
  rw [text, String.toList_ofList, chars, yearChars, if_pos hy, List.append_assoc]
  rfl

theorem two_digits {n : Nat} (hn : n < 10 ^ 2) :
    ∃ c d, padded 2 n = [c, d] ∧ c.isDigit = true ∧ d.isDigit = true := by
  have hlen := length_padded (by decide) hn
  have hall := padded_all (w := 2) (n := n)
  match hp : padded 2 n with
  | [c, d] => exact ⟨c, d, rfl, by simpa [hp] using hall⟩
  | [] | [_] | _ :: _ :: _ :: _ => simp [hp] at hlen

theorem legal_text (hy : 0 ≤ d.year ∧ d.year ≤ 9999) : (Token.date d.text).Legal := by
  obtain ⟨m₁, m₂, hm, hm₁, hm₂⟩ := two_digits d.month_lt
  obtain ⟨d₁, d₂, hd, hd₁, hd₂⟩ := two_digits d.day_lt
  refine ⟨_, _, toList_text hy, length_padded (by decide) (by omega), padded_all, ?_, ?_⟩
  · simp [hm, hd]
  · simp [hm, hd, isDateTail, hm₁, hm₂, hd₁, hd₂]

theorem dateOf_text (hy : 0 ≤ d.year ∧ d.year ≤ 9999) : dateOf d.text = .ok d := by
  have hof : ofText? d.text = some d := by
    rw [ofText?, toList_text hy, ofChars?_digits padded_all padded_all padded_all
      (length_padded (by decide) (by omega)) (length_padded (by decide) d.month_lt)
      (length_padded (by decide) d.day_lt)]
    simp only [digitsValue_padded, Int.natAbs_of_nonneg hy.1]
    exact dif_pos d.valid
  rw [dateOf, hof]

/-- The date of a legal token has a year of at most four digits and no sign. -/
theorem year_of_dateOf {written : String} (hl : (Token.date written).Legal)
    (h : dateOf written = .ok d) : 0 ≤ d.year ∧ d.year ≤ 9999 := by
  obtain ⟨year, tail, hw, hlen, hyear, hlen', htail⟩ := hl
  obtain ⟨m₁, m₂, d₁, d₂, rest, rfl, hm₁, hm₂, hd₁, hd₂⟩ := isDateTail_iff.mp htail
  obtain rfl : rest = [] := by simpa using hlen'
  have hof : ofText? written = some d := by
    unfold dateOf at h
    split at h
    · next heq => rw [heq, Except.ok.inj h]
    · cases h
  have hmonth : [m₁, m₂].all Char.isDigit = true := by simp [hm₁, hm₂]
  have hday : [d₁, d₂].all Char.isDigit = true := by simp [hd₁, hd₂]
  have hdigits := ofChars?_digits hyear hmonth hday hlen rfl rfl
  rw [ofText?, hw] at hof
  have hof' := hdigits.symm.trans hof
  unfold of? at hof'
  split at hof'
  · obtain rfl := Option.some.inj hof'
    have hlt := digitsValue_lt hyear
    rw [hlen] at hlt
    show (0 : Int) ≤ (digitsValue year : Int) ∧ (digitsValue year : Int) ≤ 9999
    omega
  · cases hof'

end Date

/-! ## Literals -/

namespace Literal

/-- Whether a text can hold a literal. -/
def Writable : Literal → Prop
  | integer n => 0 ≤ n.toInt
  | decimal d => 0 ≤ d.coefficient
  | date d => 0 ≤ d.year ∧ d.year ≤ 9999
  | string s => s.quote.char ∉ s.value.toList
  | _ => True

variable {l : Literal}

/-- A literal that a text can hold is written as a legal token. -/
theorem Writable.token_legal (h : l.Writable) : l.token.Legal := by
  cases l with
  | null => exact ⟨by decide, by decide⟩
  | boolean b => cases b <;> exact ⟨by decide, by decide⟩
  | integer n =>
    have hn : 0 ≤ n.toInt := h
    show (integerText n).toList ≠ [] ∧ (integerText n).toList.all Char.isDigit = true
    rw [toList_integerText hn]
    exact ⟨Nat.toDigits_ne_nil, List.all_eq_true.mpr fun _ => isDigit_of_mem_numeral⟩
  | decimal d =>
    exact ⟨_, _, Decimal.toList_decimalText h, Decimal.whole_all, Decimal.fraction_all,
      .inl Decimal.whole_ne_nil⟩
  | date d => exact Date.legal_text h
  | string s => exact h

/-- The token a literal is written as stands for this literal. -/
theorem Writable.literal?_token (h : l.Writable) : l.token.literal? = some (.ok l) := by
  cases l with
  | null => rfl
  | boolean b => cases b <;> rfl
  | integer n =>
    show some (Literal.integer <$> integerOf (integerText n)) = _
    rw [integerOf_integerText h]
    rfl
  | decimal d =>
    show some (Literal.decimal <$> decimalOf (decimalText d)) = _
    rw [Decimal.decimalOf_decimalText h]
    rfl
  | date d =>
    show some (Literal.date <$> dateOf d.text) = _
    rw [Date.dateOf_text h]
    rfl
  | string s => rfl

/-- The literal of a legal token is one that a text can hold. -/
theorem writable_of_token {t : Token} (hl : t.Legal) (h : t.literal? = some (.ok l)) :
    l.Writable := by
  cases t with
  | keyword k written => cases k <;> simp [Token.literal?] at h <;> (subst h; trivial)
  | integer digits =>
    obtain ⟨n, hn, rfl⟩ : ∃ n, integerOf digits = .ok n ∧ Literal.integer n = l := by
      cases hn : integerOf digits <;> simp [Token.literal?, hn, Functor.map, Except.map] at h
      exact ⟨_, rfl, h⟩
    unfold integerOf at hn
    simp only at hn
    split at hn
    · next hle =>
      obtain rfl := Except.ok.inj hn
      have hmax : Int64.maxValue.toInt = 2 ^ 63 - 1 := by decide
      show 0 ≤ (Int64.ofNat _).toInt
      rw [Int64.toInt_ofNat_of_lt (by omega)]
      exact Int.natCast_nonneg _
    · cases hn
  | decimal written =>
    obtain ⟨d, hd, rfl⟩ : ∃ d, decimalOf written = .ok d ∧ Literal.decimal d = l := by
      cases hd : decimalOf written <;> simp [Token.literal?, hd, Functor.map, Except.map] at h
      exact ⟨_, rfl, h⟩
    unfold decimalOf Decimal.ofDigits? at hd
    simp only at hd
    split at hd
    · next heq =>
      obtain rfl := Except.ok.inj hd
      split at heq
      · obtain rfl := Option.some.inj heq
        exact Int.natCast_nonneg _
      · cases heq
    · cases hd
  | date written =>
    obtain ⟨d, hd, rfl⟩ : ∃ d, dateOf written = .ok d ∧ Literal.date d = l := by
      cases hd : dateOf written <;> simp [Token.literal?, hd, Functor.map, Except.map] at h
      exact ⟨_, rfl, h⟩
    exact Date.year_of_dateOf hl hd
  | string s =>
    obtain rfl : Literal.string s = l := by simpa [Token.literal?] using h
    exact hl
  | _ => simp [Token.literal?] at h

end Literal

end LedgerQuery
