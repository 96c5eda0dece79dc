import LedgerQuery.Json.Decode
import LedgerQuery.Proofs.Lexing.Spelling
import LedgerQuery.Proofs.Lexing.Values

/-!
# Values come back from their JSON form

A value is read back from its JSON form as it was: dates of every year, decimals with their scale and
sign, and numbers up to the last of sixty-four bits.

Decimals take some work.  Their reader is made for more than what is written: it stops where the digits
find no room and rounds.  The digits of a decimal find room one after the other, because a beginning of
them stands for a smaller number than all of them.
-/

namespace LedgerQuery

/-! ## Decimals -/

theorem le_ofDigitChars (digits : List Char) (n : Nat) : n ≤ Nat.ofDigitChars 10 digits n := by
  induction digits generalizing n with
  | nil => simp
  | cons c digits ih =>
    rw [Nat.ofDigitChars_cons]
    exact Nat.le_trans (by omega) (ih _)

namespace Decimal

variable {n scale : Nat} {c : Char} {digits rest : List Char}

/-- A digit that finds room is read. -/
theorem readPlain?_cons (point started : Bool) (hc : c.isDigit = true) (hs : scale < maxScale)
    (hn : Nat.ofDigitChars 10 (c :: digits) n < coefficientBound) :
    readPlain? point started n scale (c :: rest) =
      readPlain? point true (Nat.ofDigitChars 10 [c] n) (if point then scale + 1 else 0) rest := by
  have hvalue : n * 10 + digitsValue [c] = Nat.ofDigitChars 10 [c] n := by
    simp only [digitsValue, Nat.ofDigitChars_cons, Nat.ofDigitChars_nil]
    omega
  have hroom : Nat.ofDigitChars 10 [c] n < coefficientBound := by
    refine Nat.lt_of_le_of_lt ?_ hn
    simpa only [Nat.ofDigitChars_cons, Nat.ofDigitChars_nil] using le_ofDigitChars digits _
  rw [readPlain?, if_neg (by omega), if_pos hc]
  simp only [hvalue, if_pos hroom]

/-- Digits before the point are read if they find room. -/
theorem readPlain?_whole (started : Bool) (h : digits.all Char.isDigit = true)
    (hn : Nat.ofDigitChars 10 digits n < coefficientBound) :
    readPlain? false started n 0 (digits ++ rest) =
      readPlain? false (started || !digits.isEmpty) (Nat.ofDigitChars 10 digits n) 0 rest := by
  induction digits generalizing n started with
  | nil => simp
  | cons c digits ih =>
    obtain ⟨hc, hdigits⟩ : c.isDigit = true ∧ digits.all Char.isDigit = true := by simpa using h
    have hcons : Nat.ofDigitChars 10 digits (Nat.ofDigitChars 10 [c] n) = Nat.ofDigitChars 10 (c :: digits) n := by
      simp only [Nat.ofDigitChars_cons, Nat.ofDigitChars_nil]
    rw [List.cons_append, readPlain?_cons false started hc (by decide) hn, if_neg (by simp),
      ih true hdigits (by rwa [hcons]), hcons]
    simp

/-- Digits after the point are read if they find room. -/
theorem readPlain?_fraction (h : digits.all Char.isDigit = true) (hs : scale + digits.length ≤ maxScale)
    (hn : Nat.ofDigitChars 10 digits n < coefficientBound) :
    readPlain? true true n scale digits = some (Nat.ofDigitChars 10 digits n, scale + digits.length) := by
  induction digits generalizing n scale with
  | nil => simp [readPlain?]
  | cons c digits ih =>
    obtain ⟨hc, hdigits⟩ : c.isDigit = true ∧ digits.all Char.isDigit = true := by simpa using h
    rw [List.length_cons] at hs ⊢
    have hcons : Nat.ofDigitChars 10 digits (Nat.ofDigitChars 10 [c] n) = Nat.ofDigitChars 10 (c :: digits) n := by
      simp only [Nat.ofDigitChars_cons, Nat.ofDigitChars_nil]
    rw [readPlain?_cons true true hc (by omega) hn, if_pos rfl, ih hdigits (by omega) (by rwa [hcons]), hcons]
    simp only [Nat.add_assoc, Nat.add_comm 1]

variable {d : Decimal}

/-- The digits of a decimal are read back as its coefficient and scale. -/
theorem readPlain?_magnitude : readPlain? false false 0 0 d.magnitude = some (d.coefficient.natAbs, d.scale) := by
  have hvalue : Nat.ofDigitChars 10 d.fraction (Nat.ofDigitChars 10 d.whole 0) = d.coefficient.natAbs := by
    rw [← Nat.ofDigitChars_append, whole_append_fraction]
    exact digitsValue_padded ..
  have hbound := d.coefficient_lt
  rw [← hvalue] at hbound
  have hempty : d.whole.isEmpty = false := by simpa using whole_ne_nil
  have hwhole : ∀ rest, readPlain? false false 0 0 (d.whole ++ rest) =
      readPlain? false true (Nat.ofDigitChars 10 d.whole 0) 0 rest := fun rest => by
    rw [readPlain?_whole false whole_all (Nat.lt_of_le_of_lt (le_ofDigitChars d.fraction _) hbound), hempty]
    rfl
  unfold magnitude
  split
  · next hs =>
    have hf : d.fraction = [] := List.length_eq_zero_iff.mp (length_fraction.trans hs)
    have h := hwhole []
    rw [List.append_nil] at h
    rw [h, readPlain?, if_pos rfl, ← hvalue, hf, hs]
    simp
  · have hpoint : readPlain? false true (Nat.ofDigitChars 10 d.whole 0) 0 ('.' :: d.fraction) =
        readPlain? true true (Nat.ofDigitChars 10 d.whole 0) 0 d.fraction := by
      rw [readPlain?, if_neg (by decide), if_neg (by decide), if_pos (by decide)]
    rw [hwhole, hpoint, readPlain?_fraction fraction_all (by rw [length_fraction]; have := d.scale_le; omega) hbound,
      hvalue, length_fraction, Nat.zero_add]

theorem ofPlain?_magnitude : ofPlain? d.magnitude = of? d.coefficient.natAbs d.scale := by
  obtain ⟨c, whole, hw⟩ := List.exists_cons_of_ne_nil (whole_ne_nil (d := d))
  have hc : c.isDigit = true := List.all_eq_true.mp (whole_all (d := d)) c (by simp [hw])
  obtain ⟨rest, hm⟩ : ∃ rest, d.magnitude = c :: rest := by
    unfold magnitude
    split
    · exact ⟨whole, hw⟩
    · exact ⟨_, by rw [hw]; rfl⟩
  have hread := readPlain?_magnitude (d := d)
  unfold ofPlain?
  split
  · next h =>
    obtain ⟨rfl, -⟩ := List.cons.inj (hm.symm.trans h)
    exact absurd hc (by decide)
  · next h =>
    obtain ⟨rfl, -⟩ := List.cons.inj (hm.symm.trans h)
    exact absurd hc (by decide)
  · rw [hread]
    rfl

theorem of?_coefficient (d : Decimal) : of? d.coefficient d.scale = some d := dif_pos ⟨d.coefficient_lt, d.scale_le⟩

/-- A decimal is read back from its written form. -/
theorem ofText?_text (d : Decimal) : ofText? d.text = some d := by
  suffices h : ofPlain? d.text.toList = some d by rw [ofText?, h]; rfl
  rw [text, String.toList_ofList]
  split
  · next hneg =>
    have hread : ofPlain? ('-' :: d.magnitude) = of? (-(d.coefficient.natAbs : Int)) d.scale := by
      rw [ofPlain?, readPlain?_magnitude]
      rfl
    rw [hread, show -(d.coefficient.natAbs : Int) = d.coefficient by omega, of?_coefficient]
  · next hpos =>
    rw [ofPlain?_magnitude, show (d.coefficient.natAbs : Int) = d.coefficient by omega, of?_coefficient]

end Decimal

/-! ## Dates -/

theorem leadingNumber?_length {digits rest : List Char} (hne : digits ≠ []) (h : digits.all Char.isDigit = true)
    (hrest : ∀ c ∈ rest.head?, c.isDigit = false) :
    leadingNumber? (digits ++ rest).length (digits ++ rest) = some (digitsValue digits, rest) := by
  have htake := (takeWhile_append_of_stop rest h hrest).1
  simp only [leadingNumber?, List.take_length, htake, if_neg hne, List.drop_left]

namespace Date

/-- A year is read back, with its sign if it has one. -/
theorem leadingYear?_yearChars (year : Int) (rest : List Char) :
    leadingYear? (dropBlanks (yearChars year ++ '-' :: rest)) = some (year, '-' :: rest) := by
  have hne : padded 4 year.natAbs ≠ [] := by
    intro h
    have := le_length_padded (w := 4) (n := year.natAbs)
    rw [h] at this
    exact absurd this (by decide)
  have hsigned : leadingNumber? (padded 4 year.natAbs ++ '-' :: rest).length (padded 4 year.natAbs ++ '-' :: rest) =
      some (year.natAbs, '-' :: rest) := by
    rw [leadingNumber?_length hne padded_all (by simp), digitsValue_padded]
  unfold yearChars
  split
  · next h =>
    rw [dropBlanks_digits _ hne padded_all, leadingYear?_append (length_padded (by decide) (by omega)) padded_all,
      digitsValue_padded, Int.natAbs_of_nonneg h.1]
  · split
    · next h =>
      rw [List.cons_append, dropBlanks_cons (by decide), leadingYear?, hsigned, Option.map_some]
      simp only [show -(year.natAbs : Int) = year by omega]
    · next h =>
      rw [List.cons_append, dropBlanks_cons (by decide), leadingYear?, hsigned, Option.map_some]
      simp only [show (year.natAbs : Int) = year by omega]

/-- A date is read back from its written form. -/
theorem ofText?_text (d : Date) : ofText? d.text = some d := by
  rw [ofText?, text, String.toList_ofList, chars, List.append_assoc]
  refine (ofChars?_of_leadingYear? (leadingYear?_yearChars _ _) padded_all padded_all
    (length_padded (by decide) d.month_lt) (length_padded (by decide) d.day_lt)).trans ?_
  rw [digitsValue_padded, digitsValue_padded]
  exact dif_pos d.valid

@[simp] theorem ofJson?_encoded (d : Date) : Date.ofJson? d.toJson = some d := ofText?_text d

end Date

/-! ## Numbers and names -/

@[simp] theorem ofIntegerJson?_num (n : Int64) : ofIntegerJson? (.num n.toInt) = some n := by
  have hlow := n.minValue_le_toInt
  have hhigh := n.toInt_le
  rw [ofIntegerJson?, if_pos ⟨hlow, hhigh⟩, Int64.ofInt_toInt]

theorem word?_ofNat {n : Nat} (h : n < UInt64.size) : (Json.ofNat n).word? = some n := by
  rw [Json.ofNat, Json.word?, if_pos ⟨by omega, by omega⟩]
  rfl

@[simp] theorem ofWordJson?_wordJson (n : UInt64) : ofWordJson? (wordJson n) = some n := by
  rw [ofWordJson?, wordJson, word?_ofNat n.toNat_lt_size, Option.map_some, UInt64.ofNat_toNat]

@[simp] theorem UnaryOp.ofJson?_tag (op : UnaryOp) : UnaryOp.ofJson? (.str op.tag) = some op := by
  cases op <;> rfl

@[simp] theorem BinaryOp.ofJson?_tag (op : BinaryOp) : BinaryOp.ofJson? (.str op.tag) = some op := by
  cases op <;> rfl

@[simp] theorem BoolOp.ofJson?_tag (op : BoolOp) : BoolOp.ofJson? (.str op.tag) = some op := by
  cases op <;> rfl

@[simp] theorem QuoteStyle.ofJson?_tag (q : QuoteStyle) : QuoteStyle.ofJson? (.str q.tag) = some q := by
  cases q <;> rfl

@[simp] theorem SortDirection.ofJson?_tag (d : SortDirection) : SortDirection.ofJson? (.str d.tag) = some d := by
  cases d <;> rfl

/-! ## Literals -/

@[simp] theorem StringLiteral.ofJson?_encoded (s : StringLiteral) : StringLiteral.ofJson? s.toJson = some s := by
  simp [StringLiteral.ofJson?, StringLiteral.toJson, Json.field?, Json.lookup?, Json.str?]

@[simp] theorem Decimal.ofJson?_text (d : Decimal) : Decimal.ofJson? (.str d.text) = some d :=
  Decimal.ofText?_text d

/-- A literal comes back from its JSON form. -/
@[simp] theorem Literal.ofJson?_encoded (l : Literal) : Literal.ofJson? l.toJson = some l := by
  cases l <;> simp [Literal.toJson, Literal.ofJson?, Json.tagged, Json.bool?]

theorem Literal.mapM_ofJson?_toJson (items : List Literal) :
    (items.map Literal.toJson).mapM Literal.ofJson? = some items := by
  induction items with
  | nil => rfl
  | cons l items ih => rw [List.map_cons, List.mapM_cons, ih, Literal.ofJson?_encoded]; rfl

/-- A constant comes back from its JSON form. -/
@[simp] theorem Constant.ofJson?_encoded (c : Constant) : Constant.ofJson? c.toJson = some c := by
  cases c with
  | literal l => simp [Constant.toJson, Constant.ofJson?, Json.tagged]
  | list items =>
    rw [Constant.toJson, Json.tagged, Constant.ofJson?, Literal.mapM_ofJson?_toJson]
    rfl

@[simp] theorem Placeholder.ofJson?_encoded (p : Placeholder) : Placeholder.ofJson? p.toJson = some p := by
  cases p <;> simp [Placeholder.toJson, Placeholder.ofJson?, Json.tagged, Json.str?]

@[simp] theorem Closing.ofJson?_encoded (c : Closing) : Closing.ofJson? c.toJson = some c := by
  cases c <;> simp [Closing.toJson, Closing.ofJson?, Json.tagged]

@[simp] theorem PivotKey.ofJson?_encoded (k : PivotKey) : PivotKey.ofJson? k.toJson = some k := by
  cases k <;> simp [PivotKey.toJson, PivotKey.ofJson?, Json.tagged, Json.str?]

@[simp] theorem PivotBy.ofJson?_encoded (p : PivotBy) : PivotBy.ofJson? p.toJson = some p := by
  simp [PivotBy.ofJson?, PivotBy.toJson, Json.field?, Json.lookup?]

/-- Whether the ends of a span are numbers of sixty-four bits. -/
def Span.FitsWords (s : Span) : Prop := s.start < UInt64.size ∧ s.stop < UInt64.size

theorem Span.ofJson?_obj (start stop : Json) : Span.ofJson? (.obj [("start", start), ("end", stop)]) =
    start.word?.bind fun m => stop.word?.map (Span.mk m) := by
  simp only [Span.ofJson?, Json.field?, Json.lookup?, reduceIte, String.reduceEq, Option.map_some,
    Option.bind_eq_bind, Option.bind_some]
  cases start.word? with
  | none => rfl
  | some m => cases stop.word? <;> rfl

/-- A span comes back from its JSON form if its ends are numbers of sixty-four bits. -/
theorem Span.ofJson?_encoded {s : Span} (h : s.FitsWords) : Span.ofJson? s.toJson = some s := by
  rw [Span.toJson, Span.ofJson?_obj, word?_ofNat h.1, word?_ofNat h.2]
  rfl

/-! ## Parts that may be absent -/

section
variable {α : Type} {f : α → Json} {g : Json → Option α}

@[simp] theorem option?_null : Json.option? g .null = some none := rfl

theorem option?_of_ne_null {j : Json} (hne : j ≠ .null) : Json.option? g j = (g j).map some := by
  cases j with
  | null => exact absurd rfl hne
  | _ => rfl

/-- A part that may be absent comes back if it is not written as null. -/
theorem option?_ofOption {o : Option α} (hne : ∀ a ∈ o, f a ≠ .null) (h : ∀ a ∈ o, g (f a) = some a) :
    Json.option? g (Json.ofOption f o) = some o := by
  cases o with
  | none => rfl
  | some a => rw [Json.ofOption, option?_of_ne_null (hne a rfl), h a rfl, Option.map_some]

end

end LedgerQuery
