import LedgerQuery.Proofs.Lexing.Spelling

/-!
# Where pieces of a text stop

What is read at the front of a text depends on the text after it only through the
question whether the piece goes on there.

* A token must not go on (`Token.Apart`).  For most tokens the next character decides.
  An integer looks at six characters for the rest of a date, and a percent sign at a
  whole placeholder.
* A separator is a blank, a closed block comment, or a line comment (`Separator`).  Only
  the line comment looks at what follows, which is a line feed or nothing.

`front_cuts` and `front_of_apart` say that `front` reads a token exactly where it is
apart, and `front_separator` and `Separator.front_eq` say the same of separators.
-/

namespace LedgerQuery

/-! ## Where tokens stop -/

namespace Token

/-- Whether a token does not go on in the text after it. -/
def Apart (operand : Bool) : Token → List Char → Prop
  | integer digits, ds => (∀ d ∈ ds.head?, d.isDigit = false ∧ d ≠ '.') ∧
      ¬ (digits.toList.length = 4 ∧ isDateTail ds)
  | table name, ds => ∀ d ∈ ds.head?, (if name.toList = [] then isWordStart d else isWordChar d) = false
  | symbol .percent, ds => operand = true ∨ placeholder? ds = none
  | t, ds => t.Ends ds

end Token

/-- What follows the longest run of some kind begins with another kind. -/
theorem head?_dropWhile (p : Char → Bool) (cs : List Char) :
    ∀ d ∈ (cs.dropWhile p).head?, p d = false := by
  intro d hd
  have := List.head?_dropWhile_not p cs
  rw [Option.mem_def.mp hd] at this
  simpa using this

section
variable {operand : Bool} {c : Char} {cs ds : List Char} {t : Token} {n : Nat}

/-- Whether a token is the first `n + 1` characters of a text and stops there. -/
def Cuts (operand : Bool) (c : Char) (cs : List Char) (t : Token) (n : Nat) : Prop :=
  ∃ before after, cs = before ++ after ∧ before.length = n ∧ t.text.toList = c :: before ∧
    t.Apart operand after

theorem cuts_ofWord : Cuts operand c cs (.ofWord (String.ofList (c :: cs.takeWhile isWordChar)))
    (cs.takeWhile isWordChar).length := by
  refine ⟨_, _, (List.takeWhile_append_dropWhile (p := isWordChar)).symm, rfl, ?_, ?_⟩
  · unfold Token.ofWord
    split <;> simp [Token.text]
  · unfold Token.ofWord
    split <;> exact fun d hd => by simp [Token.endsBefore, head?_dropWhile _ _ d hd]

theorem frontNumber_cuts (h : frontNumber c cs = (.token t, n)) : Cuts operand c cs t n := by
  have hcs : cs = cs.takeWhile Char.isDigit ++ cs.dropWhile Char.isDigit :=
    List.takeWhile_append_dropWhile.symm
  have hend := head?_dropWhile Char.isDigit cs
  unfold frontNumber at h
  simp only at h
  split at h
  · next hdate =>
    obtain ⟨hlen, htail⟩ := hdate
    obtain ⟨m₁, m₂, d₁, d₂, rest, hr, -⟩ := isDateTail_iff.mp htail
    obtain ⟨⟨⟩, rfl⟩ := Prod.mk.inj h
    refine ⟨cs.takeWhile Char.isDigit ++ (cs.dropWhile Char.isDigit).take 6, rest, ?_,
      by simp [hlen, hr], by simp [Token.text], fun d hd => rfl⟩
    conv_lhs => rw [hcs]
    simp [hr]
  · next hdate =>
    split at h
    · next more hdrop =>
      obtain ⟨⟨⟩, rfl⟩ := Prod.mk.inj h
      refine ⟨cs.takeWhile Char.isDigit ++ '.' :: more.takeWhile Char.isDigit,
        more.dropWhile Char.isDigit, ?_, by simp; omega, by simp [Token.text], fun d hd => ?_⟩
      · conv_lhs => rw [hcs, hdrop]
        simp
      · simp [Token.endsBefore, head?_dropWhile _ _ d hd]
    · next hdot =>
      obtain ⟨⟨⟩, rfl⟩ := Prod.mk.inj h
      refine ⟨_, _, hcs, rfl, by simp [Token.text], fun d hd => ⟨hend d hd, ?_⟩, by simpa using hdate⟩
      rintro rfl
      obtain ⟨more, hmore⟩ := List.head?_eq_some_iff.mp (Option.mem_def.mp hd)
      exact hdot more hmore

theorem frontString_cuts {quote : QuoteStyle} (h : frontString quote cs = (.token t, n)) :
    Cuts operand quote.char cs t n := by
  unfold frontString at h
  simp only at h
  split at h
  · next hlt =>
    obtain ⟨⟨⟩, rfl⟩ := Prod.mk.inj h
    have hcs : cs = cs.takeWhile (· ≠ quote.char) ++ cs.dropWhile (· ≠ quote.char) :=
      List.takeWhile_append_dropWhile.symm
    have hlen := congrArg List.length hcs
    obtain ⟨d, rest, hdrop⟩ := List.exists_cons_of_ne_nil (l := cs.dropWhile (· ≠ quote.char))
      (by intro he; rw [he, List.append_nil] at hlen; omega)
    obtain rfl : d = quote.char := by
      simpa using head?_dropWhile (· ≠ quote.char) cs d (by rw [hdrop]; rfl)
    refine ⟨cs.takeWhile (· ≠ quote.char) ++ [quote.char], rest, ?_, by simp, ?_, fun d hd => rfl⟩
    · conv_lhs => rw [hcs, hdrop]
      simp
    · simp [Token.text, StringLiteral.text, String.toList_singleton]
  · simp at h

theorem frontSymbol_cuts (h : frontSymbol c cs = (.token t, n))
    (hdot : c = '.' → ∀ d ∈ cs.head?, d.isDigit = false)
    (hslash : c = '/' → ∀ d ∈ cs.head?, d ≠ '*')
    (hpercent : c = '%' → operand = true ∨ placeholder? cs = none) : Cuts operand c cs t n := by
  unfold frontSymbol at h
  split at h
  · next s hs =>
    obtain ⟨⟨⟩, rfl⟩ := Prod.mk.inj h
    rw [Symbol.leading?, Symbol.longestFirst_eq] at hs
    have hbegins := List.find?_some hs
    obtain ⟨after, hcs⟩ := List.isPrefixOf_iff_prefix.mp hbegins
    -- only a sign that begins a longer one looks at what follows
    cases s
    case dot =>
      obtain ⟨rfl, rfl⟩ : '.' = c ∧ after = cs := List.cons.inj hcs
      exact ⟨[], after, rfl, rfl, rfl, fun d hd => by simp [Token.endsBefore, hdot rfl d hd]⟩
    case slash =>
      obtain ⟨rfl, rfl⟩ : '/' = c ∧ after = cs := List.cons.inj hcs
      exact ⟨[], after, rfl, rfl, rfl, fun d hd => by simp [Token.endsBefore, hslash rfl d hd]⟩
    case percent =>
      obtain ⟨rfl, rfl⟩ : '%' = c ∧ after = cs := List.cons.inj hcs
      exact ⟨[], after, rfl, rfl, rfl, hpercent rfl⟩
    case less =>
      obtain ⟨rfl, rfl⟩ : '<' = c ∧ after = cs := List.cons.inj hcs
      refine ⟨[], after, rfl, rfl, rfl, fun d hd => ?_⟩
      obtain ⟨rest, rfl⟩ := List.head?_eq_some_iff.mp (Option.mem_def.mp hd)
      by_cases he : d = '='
      · simp [he, Symbol.spelling] at hs
      · simp [Token.endsBefore, he]
    case greater =>
      obtain ⟨rfl, rfl⟩ : '>' = c ∧ after = cs := List.cons.inj hcs
      refine ⟨[], after, rfl, rfl, rfl, fun d hd => ?_⟩
      obtain ⟨rest, rfl⟩ := List.head?_eq_some_iff.mp (Option.mem_def.mp hd)
      by_cases he : d = '='
      · simp [he, Symbol.spelling] at hs
      · simp [Token.endsBefore, he]
    all_goals
      obtain ⟨rfl, rfl⟩ := List.cons.inj hcs
      exact ⟨_, after, rfl, rfl, rfl, fun d hd => rfl⟩
  · simp at h

/-- What follows the word at the front of a text does not belong to it. -/
theorem leadingWord_ends (cs : List Char) : ∃ after, cs = leadingWord cs ++ after ∧
    ∀ d ∈ after.head?, (if leadingWord cs = [] then isWordStart d else isWordChar d) = false := by
  cases cs with
  | nil => exact ⟨[], rfl, by simp⟩
  | cons c cs =>
    by_cases hc : isWordStart c = true
    · refine ⟨cs.dropWhile isWordChar, by simp [leadingWord, hc], fun d hd => ?_⟩
      simp [leadingWord, hc, head?_dropWhile _ _ d hd]
    · exact ⟨c :: cs, by simp [leadingWord, hc], by simp [leadingWord, hc]⟩

theorem placeholder?_cuts {p : Placeholder} (h : placeholder? cs = some (p, n)) :
    Cuts operand '%' cs (.placeholder p) n := by
  unfold placeholder? at h
  split at h
  · next cs =>
    split at h
    · cases h
    · next hword =>
      obtain ⟨⟨⟩, rfl⟩ := Prod.mk.inj (Option.some.inj h)
      refine ⟨['s'], cs, rfl, rfl, rfl, fun d hd => ?_⟩
      rw [Option.mem_def.mp hd, Option.any_some] at hword
      simp [Token.endsBefore, hword]
  · next cs =>
    simp only at h
    split at h
    · next hn =>
      obtain ⟨⟨⟩, rfl⟩ := Prod.mk.inj (Option.some.inj h)
      obtain ⟨after, hcs, -⟩ := leadingWord_ends cs
      obtain ⟨rest, hrest⟩ := List.isPrefixOf_iff_prefix.mp hn.2
      have hdrop : cs.drop (leadingWord cs).length = after := by
        conv_lhs => rw [hcs]
        rw [List.drop_left']
        rw [← hcs]
      rw [hdrop] at hrest
      refine ⟨'(' :: (leadingWord cs ++ [')', 's']), rest, ?_, by simp, by simp [Token.text, Placeholder.text],
        fun d hd => rfl⟩
      conv_lhs => rw [hcs, ← hrest]
      simp
    · cases h
  · cases h

/-- What is read as a token is a beginning of the text, and the token stops there. -/
theorem front_cuts (h : front operand c cs = (.token t, n)) : Cuts operand c cs t n := by
  unfold front at h
  split at h
  · simp at h
  split at h
  · obtain ⟨⟨⟩, rfl⟩ := Prod.mk.inj h
    exact cuts_ofWord
  split at h
  · exact frontNumber_cuts h
  split at h
  · exact (frontString_cuts h : Cuts operand QuoteStyle.single.char cs t n)
  · exact (frontString_cuts h : Cuts operand QuoteStyle.double.char cs t n)
  · obtain ⟨⟨⟩, rfl⟩ := Prod.mk.inj h
    obtain ⟨after, hcs, hend⟩ := leadingWord_ends cs
    exact ⟨leadingWord cs, after, hcs, rfl, by simp [Token.text], by simpa [Token.Apart] using hend⟩
  · simp at h
  · unfold frontComment at h
    split at h <;> simp at h
  · split at h
    · next d cs hd =>
      obtain ⟨⟨⟩, rfl⟩ := Prod.mk.inj h
      refine ⟨_, _, (List.takeWhile_append_dropWhile (p := Char.isDigit)).symm, rfl,
        by simp [Token.text], fun d hd => by simp [Token.endsBefore, head?_dropWhile _ _ d hd]⟩
    · next hd => exact frontSymbol_cuts h (by simpa using hd) (by simp) (by simp)
  · next cs =>
    split at h
    · next hp =>
      obtain ⟨⟨⟩, rfl⟩ := Prod.mk.inj h
      split at hp
      · cases hp
      · exact placeholder?_cuts hp
    · next hp =>
      refine frontSymbol_cuts h (by simp) (by simp) fun _ => ?_
      cases operand with
      | true => exact .inl rfl
      | false => exact .inr (by simpa using hp)
  · next hpercent hslash hdot =>
    refine frontSymbol_cuts h ?_ ?_ fun hc => absurd hc hpercent
    · rintro rfl d hd
      obtain ⟨rest, rfl⟩ := List.head?_eq_some_iff.mp (Option.mem_def.mp hd)
      exact (hdot d rest rfl rfl).elim
    · rintro rfl d hd rfl
      obtain ⟨rest, rfl⟩ := List.head?_eq_some_iff.mp (Option.mem_def.mp hd)
      exact hslash rest rfl rfl

theorem front_integer_of_apart {digits : String} (hw : digits.toList = c :: cs)
    (hl : (Token.integer digits).Legal) (ha : (Token.integer digits).Apart operand ds) :
    front operand c (cs ++ ds) = (.token (.integer digits), cs.length) := by
  obtain ⟨hend, hdate⟩ := ha
  obtain ⟨hc, hcs⟩ : c.isDigit = true ∧ cs.all Char.isDigit = true := by simpa [hw] using hl.2
  obtain ⟨htake, hdrop⟩ := takeWhile_append_of_stop _ hcs fun d hm => (hend d hm).1
  rw [front_number hc, frontNumber]
  simp only [htake, hdrop]
  rw [if_neg (by simpa [hw] using hdate)]
  cases ds with
  | nil => simp [← hw]
  | cons d ds =>
    have hdot := (hend d rfl).2
    split
    · next heq => exact absurd (List.cons.inj heq).1 hdot
    · simp [← hw]

theorem front_table_of_apart {name : String} (hw : ("#" ++ name).toList = c :: cs)
    (hl : (Token.table name).Legal) (ha : (Token.table name).Apart operand ds) :
    front operand c (cs ++ ds) = (.token (.table name), cs.length) := by
  have htext : ("#" ++ name).toList = '#' :: name.toList := by simp
  rw [htext] at hw
  obtain ⟨rfl, rfl⟩ := List.cons.inj hw
  have hword : leadingWord (name.toList ++ ds) = name.toList := by
    rcases hl with hnil | hword
    · rw [hnil, List.nil_append]
      cases ds with
      | nil => rfl
      | cons d ds =>
        have hd : ¬ isWordStart d = true := by simpa [hnil] using ha d rfl
        rw [leadingWord, if_neg hd]
    · refine leadingWord_append hword fun d hd => ?_
      have hne : name.toList ≠ [] := by rintro he; simp [he, isWord] at hword
      simpa only [if_neg hne] using ha d hd
  show (Content.token (.table (String.ofList (leadingWord _))), _) = _
  rw [hword, String.ofList_toList]

theorem front_percent_of_apart (ha : (Token.symbol .percent).Apart operand ds) :
    front operand '%' ds = (.token (.symbol .percent), 0) := by
  have hnone : (if operand then none else placeholder? ds) = none := by
    rcases ha with rfl | h
    · rfl
    · rw [h, ite_self]
  rw [front_percent, hnone]
  cases ds <;> rfl

/-- A legal token is read from its text, if it does not go on in what follows. -/
theorem front_of_apart (hw : t.text.toList = c :: cs) (hl : t.Legal) (ha : t.Apart operand ds)
    (hp : t.isPlaceholder = true → operand = false) :
    front operand c (cs ++ ds) = (.token t, cs.length) := by
  cases t
  case integer digits => exact front_integer_of_apart hw hl ha
  case table name => exact front_table_of_apart hw hl ha
  case symbol s =>
    cases s
    case percent =>
      obtain ⟨rfl, rfl⟩ : '%' = c ∧ [] = cs := List.cons.inj hw
      exact front_percent_of_apart ha
    all_goals exact front_eq hw hl ha hp
  all_goals exact front_eq hw hl ha hp

/-! ## Separators -/

/-- A block comment ends at the first end mark. -/
theorem commentLength?_eq_some_iff : commentLength? cs = some n ↔
    ∃ body rest, cs = body ++ '*' :: '/' :: rest ∧ ¬ ['*', '/'] <:+: body ∧ n = body.length + 2 := by
  fun_induction commentLength? cs generalizing n with
  | case1 cs =>
    constructor
    · rintro ⟨⟩
      exact ⟨[], cs, rfl, by simp, rfl⟩
    · rintro ⟨body, rest, hcs, hbody, rfl⟩
      match body, hcs with
      | [], _ => rfl
      | [d], hcs => simp at hcs
      | d :: e :: body, hcs =>
        obtain ⟨rfl, rfl, -⟩ : '*' = d ∧ '/' = e ∧ _ := by simpa using hcs
        exact absurd ⟨[], body, rfl⟩ hbody
  | case2 d cs hstop ih =>
    rw [Option.map_eq_some_iff]
    constructor
    · rintro ⟨m, hm, rfl⟩
      obtain ⟨body, rest, rfl, hbody, rfl⟩ := ih.mp hm
      refine ⟨d :: body, rest, rfl, ?_, rfl⟩
      rw [List.infix_cons_iff]
      rintro (⟨after, he⟩ | h)
      · obtain ⟨rfl, rfl⟩ := List.cons.inj he
        exact hstop _ rfl rfl
      · exact hbody h
    · rintro ⟨body, rest, hcs, hbody, rfl⟩
      cases body with
      | nil =>
        obtain ⟨rfl, rfl⟩ := List.cons.inj hcs
        exact (hstop rest rfl rfl).elim
      | cons e body =>
        obtain ⟨rfl, rfl⟩ := List.cons.inj hcs
        exact ⟨body.length + 2, ih.mpr ⟨body, rest, rfl, fun h => hbody (List.infix_cons h), rfl⟩, rfl⟩
  | case3 => simp

/-- Some characters that only separate tokens, and what follows them. -/
inductive Separator : List Char → List Char → Prop
  /-- A blank. -/
  | blank {c : Char} {ds : List Char} (h : isBlank c) : Separator [c] ds
  /-- A closed block comment. -/
  | block {body ds : List Char} (h : ¬ ['*', '/'] <:+: body) :
    Separator ('/' :: '*' :: (body ++ ['*', '/'])) ds
  /-- A line comment, up to a line feed or the end. -/
  | line {body ds : List Char} (h : '\n' ∉ body) (hd : ∀ d ∈ ds.head?, d = '\n') :
    Separator (';' :: body) ds

theorem front_semicolon (cs : List Char) :
    front operand ';' cs = (.trivia, (cs.takeWhile (· ≠ '\n')).length) := rfl

theorem front_block (body : List Char) : front operand '/' ('*' :: body) = frontComment body := rfl

theorem frontNumber_ne_trivia : frontNumber c cs ≠ (.trivia, n) := by
  unfold frontNumber
  simp only
  split
  · simp
  · split <;> simp

theorem frontString_ne_trivia {quote : QuoteStyle} : frontString quote cs ≠ (.trivia, n) := by
  unfold frontString
  simp only
  split <;> simp

theorem frontSymbol_ne_trivia : frontSymbol c cs ≠ (.trivia, n) := by
  unfold frontSymbol
  split <;> simp

/-- What is read as a separator is one. -/
theorem front_separator (h : front operand c cs = (.trivia, n)) :
    ∃ before after, cs = before ++ after ∧ before.length = n ∧ Separator (c :: before) after := by
  unfold front at h
  split at h
  · next hc =>
    obtain ⟨-, rfl⟩ := Prod.mk.inj h
    exact ⟨[], cs, rfl, rfl, .blank hc⟩
  split at h
  · simp at h
  split at h
  · exact absurd h frontNumber_ne_trivia
  split at h
  · exact absurd h frontString_ne_trivia
  · exact absurd h frontString_ne_trivia
  · simp at h
  · obtain ⟨-, rfl⟩ := Prod.mk.inj h
    refine ⟨_, _, (List.takeWhile_append_dropWhile (p := (· ≠ '\n'))).symm, rfl, .line ?_ fun d hd => ?_⟩
    · intro hmem
      have := List.mem_takeWhile_imp hmem
      simp at this
    · simpa using head?_dropWhile _ _ d hd
  · next body =>
    unfold frontComment at h
    split at h
    · next hm =>
      obtain ⟨-, rfl⟩ := Prod.mk.inj h
      obtain ⟨inner, rest, rfl, hinner, rfl⟩ := commentLength?_eq_some_iff.mp hm
      exact ⟨'*' :: (inner ++ ['*', '/']), rest, by simp, by simp, .block hinner⟩
    · simp at h
  · split at h
    · simp at h
    · exact absurd h frontSymbol_ne_trivia
  · split at h
    · simp at h
    · exact absurd h frontSymbol_ne_trivia
  · exact absurd h frontSymbol_ne_trivia

/-- A separator is read as one, and whole. -/
theorem Separator.front_eq {w : List Char} (h : Separator w ds) (hw : w = c :: cs) :
    front operand c (cs ++ ds) = (.trivia, cs.length) := by
  cases h with
  | blank hc =>
    obtain ⟨rfl, rfl⟩ := List.cons.inj hw
    exact if_pos hc
  | @block body _ hbody =>
    obtain ⟨rfl, rfl⟩ := List.cons.inj hw
    have hlen : commentLength? (body ++ ['*', '/'] ++ ds) = some (body.length + 2) :=
      commentLength?_eq_some_iff.mpr ⟨body, ds, by simp, hbody, rfl⟩
    rw [List.cons_append, front_block, frontComment, hlen]
    simp
  | line hbody hd =>
    obtain ⟨rfl, rfl⟩ := List.cons.inj hw
    rw [front_semicolon]
    refine Prod.ext rfl (congrArg List.length (takeWhile_append_of_stop ds ?_ ?_).1)
    · rw [List.all_eq_true]
      rintro d hmem
      have : d ≠ '\n' := by rintro rfl; exact hbody hmem
      simpa using this
    · intro d hm
      simp [hd d hm]

end

end LedgerQuery
