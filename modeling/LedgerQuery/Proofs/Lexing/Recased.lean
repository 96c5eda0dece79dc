import LedgerQuery.Proofs.Lexing.Segments

/-!
# Keywords in letters of other case

A reserved keyword may be written in letters of either case.  If some of them are written otherwise, a text
falls into the same segments, with these words in them (`Segmented.recase`).

Where a segment stops depends on the text after it, but hardly ever on which letters are in it
(`Token.Apart.alike`).  The one exception is the percent sign, which looks for the `s` of a placeholder.  An `s`
alone is no keyword.  But the `s` after `%(name)` may be the first letter of a `SELECT`, and is taken for the
end of a placeholder then (`SpellsPlaceholder`).
-/

namespace LedgerQuery

open Segment

/-! ## Texts with letters in the same places -/

/-- Whether two characters are the same, or letters both. -/
def LetterAlike (c d : Char) : Prop := c = d ∨ c.isAlpha = true ∧ d.isAlpha = true

/-- Whether two texts are the same up to letters. -/
abbrev TextAlike (cs ds : List Char) : Prop := List.Forall₂ LetterAlike cs ds

theorem LetterAlike.refl (c : Char) : LetterAlike c c := .inl rfl

theorem TextAlike.refl (cs : List Char) : TextAlike cs cs := List.forall₂_same.mpr fun c _ => .refl c

section
variable {c d e : Char} {cs ds xs ys : List Char}

theorem isDigit_of_isAlpha (h : c.isAlpha = true) : c.isDigit = false := by
  simp only [Char.isAlpha, Char.isUpper, Char.isLower, Bool.or_eq_true, Bool.and_eq_true, decide_eq_true_eq,
    UInt32.le_iff_toNat_le, ge_iff_le] at h
  simp only [Char.isDigit, ge_iff_le, ← Bool.not_eq_true, Bool.and_eq_true, decide_eq_true_eq,
    UInt32.le_iff_toNat_le]
  have : 'A'.val.toNat = 65 := rfl
  have : 'a'.val.toNat = 97 := rfl
  have : '9'.val.toNat = 57 := rfl
  omega

theorem utf8Size_of_isAlpha (h : c.isAlpha = true) : c.utf8Size = 1 := by
  simp only [Char.isAlpha, Char.isUpper, Char.isLower, Bool.or_eq_true, Bool.and_eq_true, decide_eq_true_eq,
    UInt32.le_iff_toNat_le, ge_iff_le] at h
  have : 'Z'.val.toNat = 90 := rfl
  have : 'z'.val.toNat = 122 := rfl
  rw [Char.utf8Size, if_pos]
  rw [UInt32.le_iff_toNat_le]
  show c.val.toNat ≤ 127
  omega

/-- A character that is a letter in upper case is a letter. -/
theorem isAlpha_of_toUpper (h : c.toUpper.isAlpha = true) : c.isAlpha = true := by
  unfold Char.toUpper at h
  split at h
  · next hc =>
    have hlower : c.isLower = true := by simpa [Char.isLower] using hc
    rw [Char.isAlpha, hlower, Bool.or_true]
  · exact h

namespace LetterAlike

/-- What is no letter is the same. -/
theorem eq_left (h : LetterAlike c d) (hc : c.isAlpha = false) : c = d :=
  h.resolve_right fun ⟨hc', _⟩ => by simp [hc] at hc'

theorem eq_right (h : LetterAlike c d) (hd : d.isAlpha = false) : c = d :=
  h.resolve_right fun ⟨_, hd'⟩ => by simp [hd] at hd'

theorem eq_iff (h : LetterAlike c d) (he : e.isAlpha = false) : c = e ↔ d = e :=
  ⟨fun hc => h.eq_left (hc ▸ he) ▸ hc, fun hd => h.eq_right (hd ▸ he) ▸ hd⟩

theorem isDigit (h : LetterAlike c d) : c.isDigit = d.isDigit := by
  rcases h with rfl | ⟨hc, hd⟩
  · rfl
  · rw [isDigit_of_isAlpha hc, isDigit_of_isAlpha hd]

theorem isWordStart (h : LetterAlike c d) : isWordStart c = isWordStart d := by
  rcases h with rfl | ⟨hc, hd⟩
  · rfl
  · simp [LedgerQuery.isWordStart, hc, hd]

theorem isWordChar (h : LetterAlike c d) : isWordChar c = isWordChar d := by
  rcases h with rfl | ⟨hc, hd⟩
  · rfl
  · simp [LedgerQuery.isWordChar, Char.isAlphanum, hc, hd]

theorem utf8Size (h : LetterAlike c d) : c.utf8Size = d.utf8Size := by
  rcases h with rfl | ⟨hc, hd⟩
  · rfl
  · rw [utf8Size_of_isAlpha hc, utf8Size_of_isAlpha hd]

end LetterAlike

namespace TextAlike

theorem append (h : TextAlike cs ds) (h' : TextAlike xs ys) : TextAlike (cs ++ xs) (ds ++ ys) :=
  List.rel_append h h'

theorem byteLength (h : TextAlike cs ds) : byteLength cs = byteLength ds := by
  induction h with
  | nil => rfl
  | cons hc _ ih => rw [byteLength_cons, byteLength_cons, hc.utf8Size, ih]

theorem all {p : Char → Bool} (hp : ∀ c d, LetterAlike c d → p c = p d) (h : TextAlike cs ds) : cs.all p = ds.all p := by
  induction h with
  | nil => rfl
  | cons hc _ ih => rw [List.all_cons, List.all_cons, hp _ _ hc, ih]

theorem isWord (h : TextAlike cs ds) : isWord cs = isWord ds := by
  cases h with
  | nil => rfl
  | cons hc h => rw [LedgerQuery.isWord, LedgerQuery.isWord, hc.isWordStart, all (fun _ _ => LetterAlike.isWordChar) h]

theorem isDateTail (h : TextAlike cs ds) (hd : isDateTail ds) : LedgerQuery.isDateTail cs := by
  obtain ⟨m₁, m₂, d₁, d₂, rest, rfl, hm₁, hm₂, hd₁, hd₂⟩ := isDateTail_iff.mp hd
  obtain ⟨c₁, xs₁, h₁, hxs₁, rfl⟩ := List.forall₂_cons_right_iff.mp h
  obtain ⟨c₂, xs₂, h₂, hxs₂, rfl⟩ := List.forall₂_cons_right_iff.mp hxs₁
  obtain ⟨c₃, xs₃, h₃, hxs₃, rfl⟩ := List.forall₂_cons_right_iff.mp hxs₂
  obtain ⟨c₄, xs₄, h₄, hxs₄, rfl⟩ := List.forall₂_cons_right_iff.mp hxs₃
  obtain ⟨c₅, xs₅, h₅, hxs₅, rfl⟩ := List.forall₂_cons_right_iff.mp hxs₄
  obtain ⟨c₆, rest', h₆, -, rfl⟩ := List.forall₂_cons_right_iff.mp hxs₅
  obtain rfl : c₁ = '-' := h₁.eq_right (by decide)
  obtain rfl : c₄ = '-' := h₄.eq_right (by decide)
  exact isDateTail_iff.mpr ⟨c₂, c₃, c₅, c₆, rest', rfl, h₂.isDigit.trans hm₁, h₃.isDigit.trans hm₂,
    h₅.isDigit.trans hd₁, h₆.isDigit.trans hd₂⟩

end TextAlike

/-- What no character of a word follows, none follows in a text that is alike. -/
theorem TextAlike.stop (h : TextAlike xs ys) (hx : ∀ d ∈ xs.head?, isWordChar d = false) :
    ∀ d ∈ ys.head?, isWordChar d = false := by
  cases h with
  | nil => exact hx
  | cons hcd _ =>
    rintro d hd
    obtain rfl := Option.some.inj hd
    rw [← hcd.isWordChar]
    exact hx _ rfl

theorem TextAlike.head?_any (h : TextAlike xs ys) : xs.head?.any isWordChar = ys.head?.any isWordChar := by
  cases h with
  | nil => rfl
  | cons hc _ => exact hc.isWordChar

/-- Two texts of letters, of one length, are the same up to letters. -/
theorem textAlike_of_isAlpha (hlen : cs.length = ds.length) (hc : ∀ c ∈ cs, c.isAlpha = true)
    (hd : ∀ d ∈ ds, d.isAlpha = true) : TextAlike cs ds := by
  induction cs generalizing ds with
  | nil =>
    obtain rfl := List.length_eq_zero_iff.mp hlen.symm
    exact .nil
  | cons c cs ih =>
    cases ds with
    | nil => cases hlen
    | cons d ds =>
      obtain ⟨hc, hcs⟩ := List.forall_mem_cons.mp hc
      obtain ⟨hd, hds⟩ := List.forall_mem_cons.mp hd
      exact .cons (.inr ⟨hc, hd⟩) (ih (Nat.succ.inj hlen) hcs hds)

end

/-! ## Tokens before texts that are alike -/

section
variable {operand : Bool} {t : Token} {ds ds' : List Char}

/-- Most tokens end before the same characters, whichever letters these are. -/
theorem Token.endsBefore_alike {c d : Char} (ht : t ≠ .symbol .percent) (h : LetterAlike c d) :
    t.endsBefore c = t.endsBefore d := by
  have hne : ∀ {e : Char}, e.isAlpha = false → (decide (c ≠ e)) = decide (d ≠ e) := fun he => by
    simp only [ne_eq, h.eq_iff he]
  unfold endsBefore
  split <;> simp_all [h.isWordChar, h.isDigit]

theorem Token.Ends.alike (ht : t ≠ .symbol .percent) (h : t.Ends ds) (ha : TextAlike ds ds') : t.Ends ds' := by
  cases ha with
  | nil => exact h
  | cons hc _ =>
    rw [ends_cons] at h ⊢
    rwa [← endsBefore_alike ht hc]

/-- A token that is no percent sign ends before a text exactly if it ends before one that is alike. -/
theorem Token.Apart.alike (ht : t ≠ .symbol .percent) (h : t.Apart operand ds) (ha : TextAlike ds ds') :
    t.Apart operand ds' := by
  cases t
  case integer digits =>
    refine ⟨fun d hd => ?_, fun ⟨hlen, htail⟩ => h.2 ⟨hlen, ha.isDateTail htail⟩⟩
    cases ha with
    | nil => cases hd
    | cons hc _ =>
      obtain rfl := Option.some.inj hd
      obtain ⟨hdigit, hdot⟩ := h.1 _ rfl
      exact ⟨hc.isDigit ▸ hdigit, fun he => hdot ((hc.eq_iff (by decide)).mpr he)⟩
  case table name =>
    intro d hd
    cases ha with
    | nil => cases hd
    | cons hc _ =>
      obtain rfl := Option.some.inj hd
      have h := h _ rfl
      rwa [hc.isWordChar, hc.isWordStart] at h
  case symbol s =>
    cases s
    case percent => exact absurd rfl ht
    all_goals exact Token.Ends.alike ht h ha
  all_goals exact Token.Ends.alike ht h ha

/-- A separator stays one before a text that is alike. -/
theorem Separator.alike {w : List Char} (h : Separator w ds) (ha : TextAlike ds ds') : Separator w ds' := by
  cases h with
  | blank hc => exact .blank hc
  | block hb => exact .block hb
  | line hb hd =>
    refine .line hb fun d hm => ?_
    cases ha with
    | nil => cases hm
    | cons hc _ =>
      obtain rfl := Option.some.inj hm
      exact (hc.eq_iff (by decide)).mp (hd _ rfl)

end

/-! ## Segments in letters of other case -/

/-- Whether a segment is another one, or the same reserved keyword in letters of other case. -/
inductive Segment.Recased : Segment → Segment → Prop
  /-- The same segment. -/
  | same (s : Segment) : Recased s s
  /-- The same reserved keyword. -/
  | keyword {k : Keyword} {w w' : String} (hk : k.isReserved = true)
    (hw : w'.toList.map Char.toUpper = w.toList.map Char.toUpper) :
    Recased (token (.keyword k w)) (token (.keyword k w'))

/-- Whether some segments begin with a name in parentheses and a `SELECT` with a small `s`. -/
def BeginsWithName (ss : List Segment) : Prop := ∃ name w after,
  ss = token (.symbol .leftParen) :: token name :: token (.symbol .rightParen) :: token (.keyword .select w) :: after ∧
    isWord name.text.toList = true ∧ w.toList.head? = some 's'

/-- Whether somewhere in some segments such a name follows a percent sign that may begin a placeholder. -/
def SpellsPlaceholder (operand : Bool) (ss : List Segment) : Prop := ∃ before after,
  ss = before ++ token (.symbol .percent) :: after ∧ before.foldl operandAfter operand = false ∧ BeginsWithName after

section
variable {operand : Bool} {s s' : Segment} {ss ss' : List Segment} {c : Char} {cs ds : List Char} {t : Token} {n : Nat}

theorem all_isAlpha_spelling (k : Keyword) : k.spelling.toList.all Char.isAlpha = true := by
  cases k <;> rfl

/-- A keyword is written in letters. -/
theorem isAlpha_of_lookup? {k : Keyword} {w : String} (h : Keyword.lookup? w = some k) :
    ∀ c ∈ w.toList, c.isAlpha = true := fun _ hc =>
  isAlpha_of_toUpper (List.all_eq_true.mp (all_isAlpha_spelling k) _
    (Keyword.spelling_of_lookup? h ▸ List.mem_map_of_mem hc))

theorem Keyword.lookup?_congr {w w' : String} (h : w'.toList.map Char.toUpper = w.toList.map Char.toUpper) :
    lookup? w' = lookup? w := by
  rw [lookup?, lookup?, h]

/-- A keyword in letters of other case is the same keyword, and alike. -/
theorem Token.Legal.recase {k : Keyword} {w w' : String} (hl : (Token.keyword k w).Legal)
    (hw : w'.toList.map Char.toUpper = w.toList.map Char.toUpper) :
    (Token.keyword k w').Legal ∧ TextAlike w.toList w'.toList := by
  obtain ⟨hword, hlookup⟩ := hl
  have hlookup' : Keyword.lookup? w' = some k := (Keyword.lookup?_congr hw).trans hlookup
  have halike : TextAlike w.toList w'.toList := textAlike_of_isAlpha
    (by simpa using (congrArg List.length hw).symm) (isAlpha_of_lookup? hlookup)
    (isAlpha_of_lookup? hlookup')
  exact ⟨⟨halike.isWord ▸ hword, hlookup'⟩, halike⟩

theorem Segment.Recased.alike (h : s.Recased s') (hs : s.Fits operand ds) : TextAlike s.chars s'.chars := by
  cases h with
  | same => exact .refl _
  | keyword _ hw => exact ((fits_token_iff.mp hs).1.recase hw).2

theorem Segment.Recased.operandAfter (h : s.Recased s') (operand : Bool) :
    s.operandAfter operand = s'.operandAfter operand := by
  cases h <;> rfl

theorem join_alike (h : Segmented operand ss ds) (hr : List.Forall₂ Segment.Recased ss ss') :
    TextAlike (join ss) (join ss') := by
  induction hr generalizing operand with
  | nil => exact .nil
  | cons hs _ ih => exact (hs.alike h.1).append (ih h.2)

theorem foldl_operandAfter_recased (hr : List.Forall₂ Segment.Recased ss ss') :
    ss.foldl Segment.operandAfter operand = ss'.foldl Segment.operandAfter operand := by
  induction hr generalizing operand with
  | nil => rfl
  | cons hs _ ih => rw [List.foldl_cons, List.foldl_cons, hs.operandAfter, ih]

/-! ## Percent signs -/

/-- A segment is the token that is read where it begins. -/
theorem Segment.Fits.eq_token (h : s.Fits operand ds) (hw : s.chars = c :: cs)
    (hf : front operand c (cs ++ ds) = (.token t, n)) : s = token t := by
  obtain ⟨c', cs', hw', hf'⟩ := h
  obtain ⟨rfl, rfl⟩ := List.cons.inj (hw'.symm.trans hw)
  have hc : s.content = .token t := (Prod.mk.inj (hf'.symm.trans hf)).1
  cases s with
  | token u => exact congrArg token (Content.token.inj hc)
  | trivia => cases hc

/-- A segment that begins with a parenthesis is this parenthesis. -/
theorem Segment.Fits.eq_leftParen (h : s.Fits operand ds) (hw : s.chars = '(' :: cs) :
    s = token (.symbol .leftParen) :=
  h.eq_token hw (@front_symbol operand _ [] ds _ rfl fun _ _ => rfl)

theorem Segment.Fits.eq_rightParen (h : s.Fits operand ds) (hw : s.chars = ')' :: cs) :
    s = token (.symbol .rightParen) :=
  h.eq_token hw (@front_symbol operand _ [] ds _ rfl fun _ _ => rfl)

/-- A segment that begins like a word is a word, and it stops where no character of a word follows. -/
theorem Segment.Fits.eq_word (h : s.Fits operand ds) (hw : s.chars = c :: cs) (hc : isWordStart c = true) :
    ∃ t, s = token t ∧ isWord t.text.toList = true ∧ ∀ d ∈ ds.head?, isWordChar d = false := by
  have hf : front operand c (cs ++ ds) = (.token (.ofWord (String.ofList (c :: (cs ++ ds).takeWhile isWordChar))),
      ((cs ++ ds).takeWhile isWordChar).length) := by
    unfold front
    rw [if_neg (by simp [isBlank_of_isWordStart hc]), if_pos hc]
  obtain rfl := h.eq_token hw hf
  obtain ⟨hlegal, -, hapart⟩ := fits_token_iff.mp h
  refine ⟨_, rfl, ?_, fun d hd => ?_⟩
  · unfold Token.ofWord at hlegal ⊢
    split at hlegal <;> simp_all [Token.text, Token.Legal]
  · unfold Token.ofWord at hapart
    split at hapart <;> simpa [Token.endsBefore] using hapart d hd

/-- A percent sign before a name in parentheses begins a placeholder if an `s` follows. -/
theorem placeholder?_leftParen (cs : List Char) : placeholder? ('(' :: cs) = none ↔
    ¬ (leadingWord cs ≠ [] ∧ [')', 's'].isPrefixOf (cs.drop (leadingWord cs).length) = true) := by
  rw [placeholder?]
  split <;> simp_all

theorem placeholder?_s (cs : List Char) : placeholder? ('s' :: cs) = none ↔ cs.head?.any isWordChar = true := by
  rw [placeholder?]
  split <;> simp_all

theorem placeholder?_of_ne (hs : c ≠ 's') (hp : c ≠ '(') : placeholder? (c :: cs) = none := by
  unfold placeholder?
  split
  · next h => exact absurd (List.cons.inj h).1 hs
  · next h => exact absurd (List.cons.inj h).1 hp
  · rfl

/-- The reserved keyword with an initial `S`. -/
theorem eq_select_of_head? {k : Keyword} (h : k.spelling.toList.head? = some 'S') : k = .select := by
  cases k <;> first | rfl | exact absurd h (by decide)

/-- A segment that begins with `s` begins with it in letters of other case, or is a `SELECT`. -/
theorem Segment.Recased.head?_eq (h : s.Recased s') (hs : s.Fits operand ds) (hw : s'.chars.head? = some 's') :
    s.chars.head? = some 's' ∨ ∃ w, s' = token (.keyword .select w) := by
  cases h with
  | same => exact .inl hw
  | @keyword k w w' hk hww =>
    refine .inr ⟨w', ?_⟩
    have hlookup : Keyword.lookup? w' = some k := ((fits_token_iff.mp hs).1.recase hww).1.2
    have hw : w'.toList.head? = some 's' := hw
    have hhead : k.spelling.toList.head? = some 'S' := by
      rw [Keyword.spelling_of_lookup? hlookup, List.head?_map, hw]
      rfl
    rw [eq_select_of_head? hhead]

/-- The parenthesis and the `s` after a name were there before, unless the `s` begins a `SELECT`. -/
theorem Segmented.closing_recase (h : Segmented operand ss ds) (hr : List.Forall₂ Segment.Recased ss ss')
    (hends : [')', 's'] <+: join ss' ++ ds)
    (hs : ∀ w after, ss' = token (.symbol .rightParen) :: token (.keyword .select w) :: after →
      w.toList.head? ≠ some 's') : [')', 's'] <+: join ss ++ ds := by
  cases hr with
  | nil => exact hends
  | @cons v v' us us' hv hr =>
    obtain ⟨⟨c, cs, hc, hf⟩, hus⟩ := h
    -- the parenthesis is a segment
    have halike := hv.alike ⟨c, cs, hc, hf⟩
    obtain ⟨c', cs', hcc, -, hc'⟩ := List.forall₂_cons_left_iff.mp (hc ▸ halike)
    obtain ⟨rest, hrest⟩ := hends
    obtain rfl : ')' = c' := by
      rw [join_cons, hc'] at hrest
      exact (List.cons.inj hrest).1
    obtain rfl : c = ')' := hcc.eq_right (by decide)
    obtain rfl : v = token (.symbol .rightParen) := Segment.Fits.eq_rightParen ⟨_, cs, hc, hf⟩ hc
    cases hv
    have hrest : 's' :: rest = join us' ++ ds := (List.cons.inj hrest).2
    refine List.cons_prefix_cons.mpr ⟨rfl, ?_⟩
    cases hr with
    | nil => exact ⟨rest, hrest⟩
    | @cons x x' xs xs' hx hr =>
      obtain ⟨e, es, he, hxf⟩ := hus.1
      have hhead : x'.chars.head? = some 's' := by
        obtain ⟨e', es', -, -, he'⟩ := List.forall₂_cons_left_iff.mp (he ▸ hx.alike hus.1)
        rw [join_cons, he'] at hrest
        rw [he', ← (List.cons.inj hrest).1]
        rfl
      rcases hx.head?_eq hus.1 hhead with hx | ⟨w, rfl⟩
      · rw [he] at hx
        obtain rfl : e = 's' := Option.some.inj hx
        show ['s'] <+: join (x :: xs) ++ ds
        rw [join_cons, he]
        exact ⟨es ++ join xs ++ ds, by simp⟩
      · exact absurd hhead (hs w xs' rfl)

/-- A name in parentheses with an `s` after it was there before, unless the `s` begins a `SELECT`. -/
theorem Segmented.named_recase (h : Segmented operand ss ds) (hr : List.Forall₂ Segment.Recased ss ss')
    (hname : leadingWord (join ss' ++ ds) ≠ [])
    (hends : [')', 's'] <+: (join ss' ++ ds).drop (leadingWord (join ss' ++ ds)).length)
    (hs : ¬ BeginsWithName (token (.symbol .leftParen) :: ss')) :
    leadingWord (join ss ++ ds) ≠ [] ∧ [')', 's'] <+: (join ss ++ ds).drop (leadingWord (join ss ++ ds)).length := by
  cases hr with
  | nil => exact ⟨hname, hends⟩
  | @cons name name' us us' hn hr =>
    obtain ⟨hfit, hus⟩ := h
    have halike := hn.alike hfit
    have hrest : TextAlike (join us ++ ds) (join us' ++ ds) := (join_alike hus hr).append (.refl ds)
    obtain ⟨c, cs, hc, -⟩ := id hfit
    obtain ⟨c', cs', hcc, -, hc'⟩ := List.forall₂_cons_left_iff.mp (hc ▸ halike)
    have hstart : isWordStart c = true := by
      rw [hcc.isWordStart]
      by_contra hc
      rw [join_cons, hc', List.append_assoc, List.cons_append, leadingWord, if_neg hc] at hname
      exact hname rfl
    -- the name is a segment
    obtain ⟨t, rfl, hword, hstop⟩ := hfit.eq_word hc hstart
    have hword' : isWord name'.chars = true := halike.isWord ▸ hword
    have hstop' : ∀ d ∈ (join us' ++ ds).head?, isWordChar d = false := hrest.stop hstop
    rw [join_cons, List.append_assoc, leadingWord_append hword' hstop', List.drop_left] at hends
    rw [join_cons, List.append_assoc, chars_token, leadingWord_append hword hstop, List.drop_left]
    refine ⟨?_, hus.closing_recase hr hends fun w after he hw => hs ?_⟩
    · rintro he
      simp [he, isWord] at hword
    · obtain ⟨t', rfl⟩ : ∃ t', name' = token t' := by cases hn <;> exact ⟨_, rfl⟩
      exact ⟨t', w, after, by rw [he], hword', hw⟩

theorem two_le_length_spelling (k : Keyword) : 2 ≤ k.spelling.toList.length := by
  cases k <;> decide

/-- A keyword that begins with `s` goes on after it. -/
theorem Token.Legal.head?_isWordChar {k : Keyword} {w : String} (h : (Token.keyword k w).Legal)
    (hw : w.toList = c :: cs) : (cs ++ ds).head?.any isWordChar = true := by
  have hlen := congrArg List.length (Keyword.spelling_of_lookup? h.2)
  have hle := two_le_length_spelling k
  obtain ⟨-, hall⟩ : isWordStart c = true ∧ cs.all isWordChar = true := by simpa [hw, isWord] using h.1
  cases cs with
  | nil =>
    rw [List.length_map, hw] at hlen
    simp at hlen
    omega
  | cons d cs => simpa using List.all_eq_true.mp hall d (by simp)

/-- A percent sign that begins no placeholder begins none in letters of other case, unless it is read with a
`SELECT`. -/
theorem Segmented.placeholder?_recase (h : Segmented operand ss ds) (hr : List.Forall₂ Segment.Recased ss ss')
    (hnone : placeholder? (join ss ++ ds) = none) (hs : ¬ BeginsWithName ss') :
    placeholder? (join ss' ++ ds) = none := by
  cases hr with
  | nil => exact hnone
  | @cons s s' ss ss' hrs hr =>
    obtain ⟨hfit, hss⟩ := h
    have hrest : TextAlike (join ss ++ ds) (join ss' ++ ds) := (join_alike hss hr).append (.refl ds)
    obtain ⟨c, cs, hc, -⟩ := id hfit
    obtain ⟨c', cs', hcc, -, hc'⟩ := List.forall₂_cons_left_iff.mp (hc ▸ hrs.alike hfit)
    rw [join_cons, hc', List.append_assoc, List.cons_append]
    by_cases hsmall : c' = 's'
    · subst hsmall
      rw [placeholder?_s]
      cases hrs with
      | same =>
        obtain ⟨rfl, rfl⟩ := List.cons.inj (hc.symm.trans hc')
        rw [join_cons, hc, List.append_assoc, List.cons_append, placeholder?_s] at hnone
        rwa [← TextAlike.head?_any ((TextAlike.refl cs).append hrest)]
      | keyword hk hw => exact ((fits_token_iff.mp hfit).1.recase hw).1.head?_isWordChar hc'
    · by_cases hparen : c' = '('
      · subst hparen
        obtain rfl : c = '(' := hcc.eq_right (by decide)
        obtain rfl := hfit.eq_leftParen hc
        cases hrs
        obtain rfl : [] = cs' := (List.cons.inj hc').2
        rw [List.nil_append, placeholder?_leftParen, List.isPrefixOf_iff_prefix]
        rw [join_cons, hc', List.append_assoc, List.cons_append, List.nil_append, placeholder?_leftParen,
          List.isPrefixOf_iff_prefix] at hnone
        rintro ⟨hname, hends⟩
        exact hnone (hss.named_recase hr hname hends hs)
      · exact placeholder?_of_ne hsmall hparen

/-! ## Whole texts -/

/-- Segments are read as well with reserved keywords in letters of other case, unless a placeholder is read
with a `SELECT`. -/
theorem Segmented.recase (h : Segmented operand ss ds) (hr : List.Forall₂ Segment.Recased ss ss')
    (hs : ¬ SpellsPlaceholder operand ss') : Segmented operand ss' ds := by
  induction hr generalizing operand with
  | nil => trivial
  | @cons s s' ss ss' hrs hr ih =>
    obtain ⟨hfit, hss⟩ := h
    have hrest : TextAlike (join ss ++ ds) (join ss' ++ ds) := (join_alike hss hr).append (.refl ds)
    refine ⟨?_, ?_⟩
    · cases hrs with
      | keyword hk hw =>
        obtain ⟨hlegal, -, hapart⟩ := fits_token_iff.mp hfit
        refine fits_token_iff.mpr ⟨(hlegal.recase hw).1, nofun, ?_⟩
        exact Token.Ends.alike (by simp) (show Token.Ends _ _ from hapart) hrest
      | same =>
        cases s with
        | trivia w => exact fits_trivia_iff.mpr ((fits_trivia_iff.mp hfit).alike hrest)
        | token t =>
          obtain ⟨hlegal, hplaceholder, hapart⟩ := fits_token_iff.mp hfit
          refine fits_token_iff.mpr ⟨hlegal, hplaceholder, ?_⟩
          by_cases ht : t = .symbol .percent
          · subst ht
            cases operand with
            | true => exact .inl rfl
            | false =>
              refine .inr (hss.placeholder?_recase hr (hapart.resolve_left nofun) fun hn => ?_)
              exact hs ⟨[], ss', rfl, rfl, hn⟩
          · exact hapart.alike ht hrest
    · rw [← hrs.operandAfter]
      refine ih hss fun ⟨before, after, he, hb, hn⟩ => hs ⟨s' :: before, after, by rw [he]; rfl, ?_, hn⟩
      rwa [List.foldl_cons, ← hrs.operandAfter]

end

end LedgerQuery
