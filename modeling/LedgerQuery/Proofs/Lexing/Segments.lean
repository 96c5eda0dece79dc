import LedgerQuery.Proofs.Lexing.Apart

/-!
# The segments of a text

A text that is scanned falls into segments, the tokens and what separates them
(`scanFrom_eq_ok_iff`).  A segment is read before the text that follows it, so segments
cannot be put together or taken apart freely.

But a text may be cut between two segments and go on otherwise, as long as what follows
begins with a character that divides (`Segmented.replace`).  No token has such a character in
it except at its beginning or in a string, so no token before the cut can go on after it.
Separators begin with such a character, and quotes and percent signs are others.
-/

namespace LedgerQuery

/-! ## Segments -/

/-- A stretch of a text that is read as a whole. -/
inductive Segment where
  /-- A token. -/
  | token (value : Token)
  /-- What only separates tokens. -/
  | trivia (chars : List Char)
deriving DecidableEq, Repr, Inhabited

namespace Segment

/-- The characters of a segment. -/
def chars : Segment → List Char
  | token t => t.text.toList
  | trivia cs => cs

@[simp] theorem chars_token (t : Token) : (token t).chars = t.text.toList := rfl

@[simp] theorem chars_trivia (cs : List Char) : (trivia cs).chars = cs := rfl

/-- The token of a segment, if it is one. -/
def token? : Segment → Option Token
  | token t => some t
  | trivia _ => none

/-- What a segment is read as. -/
def content : Segment → Content
  | token t => .token t
  | trivia _ => .trivia

@[simp] theorem content_token (t : Token) : (token t).content = .token t := rfl

@[simp] theorem content_trivia (cs : List Char) : (trivia cs).content = .trivia := rfl

/-- Whether the last token ends an operand, after a segment. -/
def operandAfter (operand : Bool) : Segment → Bool
  | token t => t.endsOperand
  | trivia _ => operand

@[simp] theorem operandAfter_token (operand : Bool) (t : Token) :
    (token t).operandAfter operand = t.endsOperand := rfl

@[simp] theorem operandAfter_trivia (operand : Bool) (cs : List Char) :
    (trivia cs).operandAfter operand = operand := rfl

/-- Whether a segment is read before a text, after a token that ends an operand or not. -/
def Fits (operand : Bool) (s : Segment) (ds : List Char) : Prop :=
  ∃ c cs, s.chars = c :: cs ∧ front operand c (cs ++ ds) = (s.content, cs.length)

/-- The characters of some segments. -/
def join (ss : List Segment) : List Char := ss.flatMap chars

@[simp] theorem join_nil : join [] = [] := rfl

@[simp] theorem join_cons (s : Segment) (ss : List Segment) : join (s :: ss) = s.chars ++ join ss := rfl

@[simp] theorem join_append (ss us : List Segment) : join (ss ++ us) = join ss ++ join us := by
  simp [join]

/-- The tokens of some segments. -/
def tokens (ss : List Segment) : List Token := ss.filterMap token?

@[simp] theorem tokens_nil : tokens [] = [] := rfl

@[simp] theorem tokens_token (t : Token) (ss : List Segment) :
    tokens (token t :: ss) = t :: tokens ss := rfl

@[simp] theorem tokens_trivia (cs : List Char) (ss : List Segment) :
    tokens (trivia cs :: ss) = tokens ss := rfl

@[simp] theorem tokens_append (ss us : List Segment) : tokens (ss ++ us) = tokens ss ++ tokens us := by
  simp [tokens]

/-- The lexemes of some segments that begin at a byte offset. -/
def lexemes : Nat → List Segment → List Lexeme
  | _, [] => []
  | offset, token t :: ss =>
    ⟨t, ⟨offset, offset + byteLength t.text.toList⟩⟩ :: lexemes (offset + byteLength t.text.toList) ss
  | offset, trivia cs :: ss => lexemes (offset + byteLength cs) ss

theorem lexemes_append (offset : Nat) (ss us : List Segment) : lexemes offset (ss ++ us) =
    lexemes offset ss ++ lexemes (offset + byteLength (join ss)) us := by
  induction ss generalizing offset with
  | nil => simp [lexemes]
  | cons s ss ih => cases s <;> simp [lexemes, ih, Nat.add_assoc]

theorem map_token_lexemes (offset : Nat) (ss : List Segment) :
    (lexemes offset ss).map Lexeme.token = tokens ss := by
  induction ss generalizing offset with
  | nil => rfl
  | cons s ss ih => cases s <;> simp [lexemes, ih]

end Segment

open Segment

/-- Whether some segments are read one by one before a text. -/
def Segmented (operand : Bool) : List Segment → List Char → Prop
  | [], _ => True
  | s :: ss, ds => s.Fits operand (join ss ++ ds) ∧ Segmented (s.operandAfter operand) ss ds

section
variable {operand : Bool} {c : Char} {cs ds : List Char} {s : Segment} {ss us : List Segment}
  {t : Token}

theorem segmented_append : Segmented operand (ss ++ us) ds ↔
    Segmented operand ss (join us ++ ds) ∧ Segmented (ss.foldl operandAfter operand) us ds := by
  induction ss generalizing operand with
  | nil => simp [Segmented]
  | cons s ss ih => simp [Segmented, ih, and_assoc]

theorem operand_eq_false_of_front {n : Nat} (hw : t.text.toList = c :: cs)
    (h : front operand c (cs ++ ds) = (.token t, n)) (hp : t.isPlaceholder = true) :
    operand = false := by
  obtain ⟨p, rfl⟩ : ∃ p, t = .placeholder p := by
    cases t <;> first | exact ⟨_, rfl⟩ | cases hp
  obtain rfl : c = '%' := by
    cases p with
    | positional => exact (List.cons.inj hw).1.symm
    | named name =>
      have htext : (Placeholder.named name).text.toList = '%' :: '(' :: (name.toList ++ [')', 's']) := by
        simp [Placeholder.text]
      rw [Token.text, htext] at hw
      exact (List.cons.inj hw).1.symm
  rw [← Bool.not_eq_true]
  rintro rfl
  have h : frontSymbol '%' (cs ++ ds) = (.token (.placeholder p), n) := h
  unfold frontSymbol at h
  split at h <;> simp at h

/-- A token fits exactly where it does not go on. -/
theorem Segment.fits_token_iff : (token t).Fits operand ds ↔
    t.Legal ∧ (t.isPlaceholder = true → operand = false) ∧ t.Apart operand ds := by
  constructor
  · rintro ⟨c, cs, hw, hf⟩
    obtain ⟨before, after, hcs, hlen, -, ha⟩ := front_cuts hf
    obtain ⟨rfl, rfl⟩ := List.append_inj hcs hlen.symm
    exact ⟨front_legal hf, operand_eq_false_of_front hw hf, ha⟩
  · rintro ⟨hl, hp, ha⟩
    obtain ⟨c, cs, hw⟩ := hl.text_ne_nil
    exact ⟨c, cs, hw, front_of_apart hw hl ha hp⟩

/-- What separates tokens fits exactly if it is a separator. -/
theorem Segment.fits_trivia_iff {w : List Char} : (trivia w).Fits operand ds ↔ Separator w ds := by
  constructor
  · rintro ⟨c, cs, hw, hf⟩
    obtain rfl : w = c :: cs := hw
    obtain ⟨before, after, hcs, hlen, hs⟩ := front_separator hf
    obtain ⟨rfl, rfl⟩ := List.append_inj hcs hlen.symm
    exact hs
  · intro h
    obtain ⟨c, cs, rfl⟩ : ∃ c cs, w = c :: cs := by cases h <;> exact ⟨_, _, rfl⟩
    exact ⟨c, cs, rfl, h.front_eq rfl⟩

/-- Segments are scanned as their lexemes, and then the text that follows them. -/
theorem scanFrom_join {offset : Nat} (h : Segmented operand ss ds) : scanFrom operand offset 0 (join ss ++ ds) =
    (Segment.lexemes offset ss ++ ·) <$>
      scanFrom (ss.foldl operandAfter operand) (offset + byteLength (join ss)) 0 ds := by
  induction ss generalizing operand offset with
  | nil =>
    show scanFrom operand offset 0 ds = id <$> scanFrom operand offset 0 ds
    rw [id_map]
  | cons s ss ih =>
    obtain ⟨⟨c, cs, hw, hf⟩, hss⟩ := h
    rw [List.foldl_cons, join_cons, hw, List.append_assoc, List.cons_append, scanFrom, hf]
    cases s with
    | token t =>
      have hw : t.text.toList = c :: cs := hw
      have hrest : scanFrom t.endsOperand (offset + (c.utf8Size + byteLength cs)) 0 (join ss ++ ds) = _ := ih hss
      simp only [content, scanFrom_skip, Segment.lexemes, hw, Nat.add_assoc, byteLength_cons, byteLength_append]
      rw [hrest, List.take_left]
      simp only [operandAfter_token, Nat.add_assoc]
      cases scanFrom (ss.foldl operandAfter _) _ 0 ds <;> rfl
    | trivia w =>
      obtain rfl : w = c :: cs := hw
      simp only [content, scanFrom_skip, Segment.lexemes, Nat.add_assoc, byteLength_cons, byteLength_append]
      rw [show scanFrom operand _ 0 (join ss ++ ds) = _ from ih hss]
      simp only [operandAfter_trivia, Nat.add_assoc]

/-- A text is scanned exactly if it falls into segments, and as their lexemes. -/
theorem scanFrom_eq_ok_iff {offset : Nat} {lexemes : List Lexeme} :
    scanFrom operand offset 0 cs = .ok lexemes ↔
      ∃ ss, join ss = cs ∧ Segmented operand ss [] ∧ Segment.lexemes offset ss = lexemes := by
  constructor
  · induction hn : cs.length using Nat.strong_induction_on generalizing operand cs offset lexemes with
    | _ n ih =>
      intro h
      cases cs with
      | nil => exact ⟨[], rfl, trivial, by simpa [scanFrom, Segment.lexemes, eq_comm] using h⟩
      | cons c cs =>
        rw [scanFrom] at h
        rcases hf : front operand c cs with ⟨_ | _ | f, m⟩
        · next t =>
          obtain ⟨before, after, rfl, rfl, ht, -⟩ := front_cuts hf
          rw [hf] at h
          simp only [scanFrom_skip, bind, Except.bind] at h
          split at h
          · cases h
          · next rest hrest =>
            obtain rfl : _ :: rest = lexemes := by simpa [pure, Except.pure] using h
            obtain ⟨ss, rfl, hss, rfl⟩ := ih _ (by simp [← hn]) rfl hrest
            refine ⟨token t :: ss, by simp [ht], ⟨⟨c, before, ht, ?_⟩, hss⟩, ?_⟩
            · simpa using hf
            · simp [Segment.lexemes, ht, Nat.add_assoc]
        · obtain ⟨before, after, rfl, rfl, -⟩ := front_separator hf
          rw [hf] at h
          simp only [scanFrom_skip] at h
          obtain ⟨ss, rfl, hss, rfl⟩ := ih _ (by simp [← hn]) rfl h
          refine ⟨trivia (c :: before) :: ss, by simp, ⟨⟨c, before, rfl, ?_⟩, hss⟩, ?_⟩
          · simpa using hf
          · simp [Segment.lexemes, Nat.add_assoc]
        · rw [hf] at h
          cases h
  · rintro ⟨ss, rfl, hss, rfl⟩
    have h := @scanFrom_join operand [] ss offset hss
    rw [List.append_nil] at h
    rw [h]
    simp [scanFrom]

theorem scan_join (h : Segmented false ss []) (hjoin : join ss = cs) :
    scan (String.ofList cs) = .ok (Segment.lexemes 0 ss) :=
  scan_ok_iff.mpr (scanFrom_eq_ok_iff.mpr ⟨ss, by rw [hjoin, String.toList_ofList], h, rfl⟩)

/-! ## Another text after some segments -/

/-- Whether a character goes on with no token that has begun, unless that is a string. -/
def Divides (d : Char) : Prop := isWordChar d = false ∧ d ∉ ['.', '-', '*', '=', '(', ')']

instance : DecidablePred Divides := fun _ => inferInstanceAs (Decidable (_ ∧ _))

/-- Whether a text is empty or begins with a character that divides. -/
def Separated (ds : List Char) : Prop := ∀ d ∈ ds.head?, Divides d

theorem separated_nil : Separated [] := by simp [Separated]

theorem Separator.separated {w : List Char} (h : Separator w ds) (vs : List Char) :
    Separated (w ++ vs) := by
  intro d hd
  cases h with
  | @blank c _ hc =>
    obtain rfl : c = d := by simpa using hd
    rcases isBlank_iff.mp hc with rfl | rfl | rfl | rfl | rfl <;> decide
  | block => 
    obtain rfl : '/' = d := by simpa using hd
    decide
  | line =>
    obtain rfl : ';' = d := by simpa using hd
    decide

theorem isDigit_of_isWordChar {d : Char} (h : isWordChar d = false) : d.isDigit = false := by
  simp only [isWordChar, Char.isAlphanum, Bool.or_eq_false_iff] at h
  exact h.1.2

theorem isWordStart_imp {d : Char} (h : isWordStart d = true) : isWordChar d = true := by
  simp only [isWordStart, isWordChar, Char.isAlphanum, Bool.or_eq_true] at h ⊢
  exact h.imp_left .inl

theorem isWord_all {w : List Char} (h : isWord w = true) : ∀ d ∈ w, isWordChar d = true := by
  cases w with
  | nil => cases h
  | cons c w =>
    obtain ⟨hc, hw⟩ : isWordStart c = true ∧ w.all isWordChar = true := by simpa [isWord] using h
    rintro d (_ | ⟨_, hd⟩)
    · exact isWordStart_imp hc
    · exact List.all_eq_true.mp hw d hd

/-- A token ends before a character that is in no word and goes on with no sign or number, and a percent sign
where no placeholder begins. -/
theorem Token.apart_of_head (h : ∀ d ∈ ds.head?, isWordChar d = false ∧ d ∉ ['.', '-', '*', '='])
    (hpercent : t = .symbol .percent → placeholder? ds = none) : t.Apart operand ds := by
  have hall : ∀ d ∈ ds.head?, isWordChar d = false ∧ d.isDigit = false ∧ d ∉ ['.', '-', '*', '='] :=
    fun d hd => ⟨(h d hd).1, isDigit_of_isWordChar (h d hd).1, (h d hd).2⟩
  cases t
  case integer digits =>
    refine ⟨fun d hd => ⟨(hall d hd).2.1, ?_⟩, ?_⟩
    · rintro rfl
      simpa using hall _ hd
    · rintro ⟨-, htail⟩
      obtain ⟨_, _, _, _, _, rfl, -⟩ := isDateTail_iff.mp htail
      simpa using hall '-' rfl
  case table name =>
    intro d hd
    have hw := (hall d hd).1
    have hstart : isWordStart d = false := by
      rw [← Bool.not_eq_true] at hw ⊢
      exact fun hs => hw (isWordStart_imp hs)
    split <;> assumption
  case placeholder p =>
    intro d hd
    cases p <;> simp [Token.endsBefore, hall d hd]
  case symbol s =>
    cases s
    case percent => exact .inr (hpercent rfl)
    all_goals
      intro d hd
      have hd := hall d hd
      simp only [List.mem_cons, List.not_mem_nil, or_false, not_or] at hd
      simp [Token.endsBefore, hd]
  all_goals
    intro d hd
    simp [Token.endsBefore, hall d hd]

/-- Every token ends before a character that divides. -/
theorem Separated.apart (h : Separated ds) : t.Apart operand ds := by
  refine Token.apart_of_head (fun d hd => ⟨(h d hd).1, ?_⟩) fun _ => ?_
  · have hmem := (h d hd).2
    simp only [List.mem_cons, List.not_mem_nil, or_false, not_or] at hmem ⊢
    exact ⟨hmem.1, hmem.2.1, hmem.2.2.1, hmem.2.2.2.1⟩
  · unfold placeholder?
    split
    · exact absurd (h 's' rfl).1 (by decide)
    · exact absurd (h '(' rfl).2 (by simp)
    · rfl

/-- What begins two texts lies before a text whose first character it does not have. -/
theorem exists_eq_append_of_not_mem {x es before after : List Char} (he : x ++ es = before ++ after)
    (hb : ∀ d ∈ es.head?, d ∉ before) : ∃ mid, x = before ++ mid ∧ after = mid ++ es := by
  rcases List.append_eq_append_iff.mp he with ⟨mid, rfl, rfl⟩ | ⟨mid, rfl, rfl⟩
  · cases mid with
    | nil => exact ⟨[], by simp, rfl⟩
    | cons d mid => exact absurd (by simp) (hb d rfl)
  · exact ⟨mid, rfl, rfl⟩

/-- No rest of a date goes on in a text that begins with neither a digit nor a hyphen. -/
theorem isDateTail_of_append {x es : List Char} (hes : ∀ d ∈ es.head?, d.isDigit = false ∧ d ≠ '-')
    (h : isDateTail (x ++ es)) : isDateTail (x ++ ds) := by
  obtain ⟨m₁, m₂, d₁, d₂, rest, he, hm₁, hm₂, hd₁, hd₂⟩ := isDateTail_iff.mp h
  have he : x ++ es = ['-', m₁, m₂, '-', d₁, d₂] ++ rest := he
  obtain ⟨mid, rfl, -⟩ := exists_eq_append_of_not_mem he fun d hd hmem => by
    obtain ⟨hdigit, hhyphen⟩ := hes d hd
    simp only [List.mem_cons, List.not_mem_nil, or_false] at hmem
    rcases hmem with rfl | rfl | rfl | rfl | rfl | rfl <;> simp_all
  exact isDateTail_iff.mpr ⟨m₁, m₂, d₁, d₂, mid ++ ds, by simp, hm₁, hm₂, hd₁, hd₂⟩

/-- No placeholder has a character after its percent sign that divides. -/
theorem Token.Legal.not_divides {p : Placeholder} {before : List Char} (hl : (Token.placeholder p).Legal)
    (hp : p.text.toList = '%' :: before) : ∀ d ∈ before, ¬ Divides d := by
  rintro d hd ⟨hword, hmem⟩
  cases p with
  | positional =>
    obtain rfl : ['s'] = before := (List.cons.inj hp).2
    obtain rfl := List.mem_singleton.mp hd
    cases hword
  | named name =>
    have htext : (Placeholder.named name).text.toList = '%' :: '(' :: (name.toList ++ [')', 's']) := by
      simp [Placeholder.text]
    obtain rfl := (List.cons.inj (htext.symm.trans hp)).2
    have hall := isWord_all hl
    simp only [List.mem_cons, List.mem_append, List.not_mem_nil, or_false] at hd
    rcases hd with rfl | hd | rfl | rfl
    · simp at hmem
    · simp [hall d hd] at hword
    · simp at hmem
    · cases hword

/-- Whether a word that is all of a text, or all but a left parenthesis, ends before another text. -/
def WordEnds (x ds : List Char) : Prop :=
  ∀ w, isWord w = true → (x = w ∨ x = '(' :: w) → ∀ d ∈ ds.head?, isWordChar d = false

/-- A placeholder that is read before one text only reaches into this text. -/
theorem placeholder?_reaches {x es : List Char} {p : Placeholder} {n : Nat}
    (h : placeholder? (x ++ ds) = none) (hx : WordEnds x ds) (hp : placeholder? (x ++ es) = some (p, n)) :
    ∃ y rest, y ≠ [] ∧ es = y ++ rest ∧ p.text.toList = '%' :: (x ++ y) := by
  have hl := placeholder?_legal hp
  obtain ⟨before, after, he, -, htext, ha⟩ : Cuts false '%' (x ++ es) (.placeholder p) n := placeholder?_cuts hp
  by_cases hbefore : before <+: x
  · -- the placeholder would have been read before the other text as well
    obtain ⟨mid, rfl⟩ := hbefore
    obtain rfl : mid ++ es = after := by simpa using he
    have hends : (Token.placeholder p).Ends (mid ++ ds) := by
      cases mid with
      | cons d mid => exact ha
      | nil =>
        intro d hd
        cases p with
        | named name => rfl
        | positional =>
          obtain rfl : ['s'] = before := (List.cons.inj htext).2
          simp [Token.endsBefore, hx ['s'] (by decide) (.inl (by simp)) d hd]
    have hf := front_placeholder htext hl hends
    rw [← List.append_assoc] at hf
    have hf' : front false '%' (before ++ mid ++ ds) = frontSymbol '%' (before ++ mid ++ ds) := by
      rw [front_percent, h]
      rfl
    rw [hf'] at hf
    unfold frontSymbol at hf
    split at hf <;> simp at hf
  · rcases List.append_eq_append_iff.mp he with ⟨y, rfl, rfl⟩ | ⟨mid, rfl, -⟩
    · refine ⟨y, after, ?_, rfl, htext⟩
      rintro rfl
      exact hbefore (by simp)
    · exact absurd (List.prefix_append ..) hbefore

/-- A token that does not go on in a text still does not, when the text goes on with another one. -/
theorem Token.Apart.replace {x es : List Char} (h : t.Apart operand (x ++ ds)) (hx : x ≠ [])
    (hdate : ∀ d ∈ es.head?, d.isDigit = false ∧ d ≠ '-')
    (hpercent : placeholder? (x ++ ds) = none → placeholder? (x ++ es) = none) : t.Apart operand (x ++ es) := by
  obtain ⟨d, x, rfl⟩ := List.exists_cons_of_ne_nil hx
  cases t
  case integer digits => exact ⟨h.1, fun hd => h.2 ⟨hd.1, isDateTail_of_append hdate hd.2⟩⟩
  case symbol s =>
    cases s
    case percent => exact h.imp_right hpercent
    all_goals exact h
  all_goals exact h

/-- Whether some segments end with a line comment. -/
def EndInComment (ss : List Segment) : Prop := ∃ body, ss.getLast? = some (.trivia (';' :: body))

/-- A word that is all of some segments ends where they do. -/
theorem Segmented.ends_of_isWord (h : Segmented operand ss ds) (hw : isWord (join ss) = true) :
    ∀ d ∈ ds.head?, isWordChar d = false := by
  cases ss with
  | nil => cases hw
  | cons s ss =>
    obtain ⟨⟨c, cs, hchars, hf⟩, -⟩ := h
    rw [join_cons, hchars, List.cons_append, isWord, Bool.and_eq_true, List.all_eq_true] at hw
    obtain ⟨hc, hall⟩ := hw
    have htake : (cs ++ (join ss ++ ds)).takeWhile isWordChar = cs ++ join ss ++ ds.takeWhile isWordChar := by
      rw [← List.append_assoc, List.takeWhile_append_of_pos hall]
    have hfront : (front operand c (cs ++ (join ss ++ ds))).2 = (cs ++ join ss ++ ds.takeWhile isWordChar).length := by
      unfold front
      rw [if_neg (by simp [isBlank_of_isWordStart hc]), if_pos hc, htake]
    rw [hf] at hfront
    have hstop : ds.takeWhile isWordChar = [] := by
      simp only [List.length_append] at hfront
      exact List.eq_nil_of_length_eq_zero (by omega)
    intro d hd
    obtain ⟨rest, rfl⟩ := List.head?_eq_some_iff.mp (Option.mem_def.mp hd)
    rw [← Bool.not_eq_true]
    intro hdw
    simp [hdw] at hstop

theorem Segmented.wordEnds (h : Segmented operand ss ds) : WordEnds (join ss) ds := by
  rintro w hw (rfl | hparen)
  · exact h.ends_of_isWord hw
  · cases ss with
    | nil => cases hparen
    | cons s ss =>
      obtain ⟨⟨c, cs, hchars, hf⟩, hss⟩ := h
      rw [join_cons, hchars, List.cons_append] at hparen
      obtain ⟨rfl, rfl⟩ := List.cons.inj hparen
      -- the parenthesis is a token of its own
      have hfront : front operand '(' (cs ++ (join ss ++ ds)) = (.token (.symbol .leftParen), 0) := rfl
      obtain rfl : cs = [] := List.eq_nil_of_length_eq_zero (congrArg Prod.snd (hf.symm.trans hfront))
      exact hss.ends_of_isWord hw

theorem Segmented.join_ne_nil (h : Segmented operand ss ds) (hne : ss ≠ []) : join ss ≠ [] := by
  obtain ⟨s, ss, rfl⟩ := List.exists_cons_of_ne_nil hne
  obtain ⟨⟨c, cs, hw, -⟩, -⟩ := h
  simp [hw]

/-- Whether some segments can go on with a text in the place of another one. -/
structure Replaces (ss : List Segment) (ds es : List Char) : Prop where
  /-- No date goes on. -/
  date : ∀ d ∈ es.head?, d.isDigit = false ∧ d ≠ '-'
  /-- The last segment does not go on, if it is a token. -/
  last : ∀ operand t, ss.getLast? = some (token t) → t.Apart operand es
  /-- No placeholder goes on. -/
  percent : ∀ x ≠ [], WordEnds x ds → placeholder? (x ++ ds) = none → placeholder? (x ++ es) = none
  /-- No line comment goes on. -/
  line : EndInComment ss → ∀ d ∈ es.head?, d = '\n'

/-- Segments are read as well before another text that they can go on with. -/
theorem Segmented.replaced {es : List Char} (h : Segmented operand ss ds) (hr : Replaces ss ds es) :
    Segmented operand ss es := by
  induction ss generalizing operand with
  | nil => trivial
  | cons s ss ih =>
    obtain ⟨hfit, hss⟩ := h
    refine ⟨?_, ih hss ⟨hr.date, fun o t ht => hr.last o t (by simp [List.getLast?_cons, ht]), hr.percent,
      fun ⟨body, hb⟩ => hr.line ⟨body, by simp [List.getLast?_cons, hb]⟩⟩⟩
    cases s with
    | token t =>
      obtain ⟨hl, hp, ha⟩ := fits_token_iff.mp hfit
      refine fits_token_iff.mpr ⟨hl, hp, ?_⟩
      by_cases hnil : ss = []
      · subst hnil
        exact hr.last operand t rfl
      · have hne := hss.join_ne_nil hnil
        exact ha.replace hne hr.date (hr.percent _ hne hss.wordEnds)
    | trivia w =>
      refine fits_trivia_iff.mpr ?_
      cases fits_trivia_iff.mp hfit with
      | blank hc => exact .blank hc
      | block hb => exact .block hb
      | @line body _ hb hd =>
        refine .line hb ?_
        by_cases hnil : ss = []
        · subst hnil
          exact hr.line ⟨body, rfl⟩
        · obtain ⟨c, cs, hc⟩ := List.exists_cons_of_ne_nil (hss.join_ne_nil hnil)
          simpa [hc] using hd

/-- Segments are read as well before another text that begins with a character that divides. -/
theorem Segmented.replace {ds' : List Char} (h : Segmented operand ss ds) (hs : Separated ds')
    (hline : EndInComment ss → ∀ d ∈ ds'.head?, d = '\n') : Segmented operand ss ds' := by
  refine h.replaced ⟨fun d hd => ⟨isDigit_of_isWordChar (hs d hd).1, ?_⟩, fun _ _ _ => hs.apart, fun x _ hx hnone => ?_, hline⟩
  · rintro rfl
    exact (hs _ hd).2 (by simp)
  · by_contra hne
    obtain ⟨⟨p, n⟩, hp⟩ := Option.ne_none_iff_exists'.mp hne
    obtain ⟨y, rest, hy, rfl, htext⟩ := placeholder?_reaches hnone hx hp
    obtain ⟨d, y, rfl⟩ := List.exists_cons_of_ne_nil hy
    exact (placeholder?_legal hp).not_divides htext d (by simp) (hs d rfl)

/-- A line comment ends before a line feed, or where the text ends. -/
theorem Segmented.head?_of_endInComment (h : Segmented operand ss ds) (hs : EndInComment ss) :
    ∀ d ∈ ds.head?, d = '\n' := by
  obtain ⟨body, hlast⟩ := hs
  obtain ⟨us, rfl⟩ : ∃ us, ss = us ++ [trivia (';' :: body)] := List.getLast?_eq_some_iff.mp hlast
  obtain ⟨-, hfit, -⟩ := segmented_append.mp h
  cases fits_trivia_iff.mp hfit with
  | blank hc => exact absurd hc (by decide)
  | line _ hd => simpa using hd

/-- No token begins with a line feed. -/
theorem Segmented.not_endInComment (h : Segmented operand (ss ++ token t :: us) ds) : ¬ EndInComment ss := by
  intro hs
  obtain ⟨hss, ⟨c, cs, hw, hf⟩, -⟩ := segmented_append.mp h
  obtain rfl : c = '\n' := hss.head?_of_endInComment hs c (by simp [hw])
  cases hf

end

end LedgerQuery
