import LedgerQuery.Proofs.Reading.Insertion
import LedgerQuery.Proofs.Reading.Placeholders

/-!
# Blanks after a percent sign

Blanks after a percent sign that is an operator make no difference where the sign can be nothing else: after a token
that ends an operand, and before a text that does not begin like the rest of a placeholder.

Elsewhere they do (`parse_percent`).  Some tokens that the last operand may end with do not count as its end, a
keyword that is a name among them.  After such a token a percent sign and an `s` become a placeholder, and what is
read has one parameter more than before.
-/

namespace LedgerQuery

open Segment

section
variable {operand : Bool} {w y ds : List Char} {ss qs rs : List Segment} {t : Token}

/-- Blanks at the front of a text are its first segments. -/
theorem Segmented.eq_blanks (h : Segmented operand ss ds) (hw : ∀ c ∈ w, isBlank c = true)
    (hjoin : join ss = w ++ y) : ∃ rs, ss = (w.map fun c => trivia [c]) ++ rs ∧ join rs = y := by
  induction w generalizing operand ss with
  | nil => exact ⟨ss, rfl, hjoin⟩
  | cons d w ih =>
    obtain ⟨hd, hblanks⟩ := List.forall_mem_cons.mp hw
    cases ss with
    | nil => cases hjoin
    | cons s ss =>
      obtain ⟨⟨c, cs, hchars, hf⟩, hss⟩ := h
      rw [join_cons, hchars, List.cons_append, List.cons_append] at hjoin
      obtain ⟨rfl, htail⟩ := List.cons.inj hjoin
      have hblank : front operand c (cs ++ (join ss ++ ds)) = (.trivia, 0) := if_pos hd
      obtain ⟨hcontent, hlen⟩ := Prod.mk.inj (hblank.symm.trans hf)
      obtain rfl : cs = [] := List.eq_nil_of_length_eq_zero hlen.symm
      obtain rfl : s = trivia [c] := by
        cases s with
        | token t => cases hcontent
        | trivia v => exact congrArg trivia hchars
      obtain ⟨rs, rfl, hrs⟩ := ih hss hblanks htail
      exact ⟨rs, rfl, hrs⟩

/-- Another token that fits can stand in the place of one, before other segments. -/
theorem Segmented.change {u : Token} {us : List Segment} (h : Segmented operand (qs ++ token t :: rs) [])
    (hdivides : Separated (u.text.toList ++ join us)) (hfits : (token u).Fits (qs.foldl operandAfter operand) (join us))
    (hus : Segmented u.endsOperand us []) : Segmented operand (qs ++ token u :: us) [] := by
  obtain ⟨hqs, -⟩ := segmented_append.mp h
  refine segmented_append.mpr ⟨?_, by simpa using hfits, hus⟩
  rw [join_cons, List.append_nil]
  exact hqs.replace hdivides fun hend => absurd hend h.not_endInComment

theorem separated_percent (cs : List Char) : Separated ('%' :: cs) := by
  intro d hd
  obtain rfl : '%' = d := by simpa using hd
  decide

/-- Without the blanks after it a percent sign is still one, unless it begins a placeholder. -/
theorem Segmented.percent_join (h : Segmented operand (qs ++ token (.symbol .percent) :: (w.map (fun c => trivia [c]) ++ rs)) [])
    (hapart : qs.foldl operandAfter operand = true ∨ placeholder? (join rs) = none) :
    Segmented operand (qs ++ token (.symbol .percent) :: rs) [] := by
  refine h.change (separated_percent _) (fits_token_iff.mpr ⟨trivial, nofun, hapart⟩) ?_
  obtain ⟨-, -, hrest⟩ := segmented_append.mp h
  obtain ⟨-, hrs⟩ := segmented_append.mp hrest
  rwa [foldl_operandAfter _ 0, lexemes_blanks] at hrs

/-- Without the blanks between them a percent sign and an `s` are a placeholder, where the sign does not follow an
operand. -/
theorem Segmented.placeholder_join {n : Nat}
    (h : Segmented operand (qs ++ token (.symbol .percent) :: (w.map (fun c => trivia [c]) ++ rs)) [])
    (hoperand : qs.foldl operandAfter operand = false) (hp : placeholder? (join rs) = some (.positional, n)) :
    ∃ us, rs = token (.ident "s") :: us ∧
      Segmented operand (qs ++ token (.placeholder .positional) :: us) [] := by
  obtain ⟨-, -, hrest⟩ := segmented_append.mp h
  obtain ⟨-, hrs⟩ := segmented_append.mp hrest
  obtain ⟨cs, hjoin, hends⟩ : ∃ cs, join rs = 's' :: cs ∧ ∀ d ∈ cs.head?, isWordChar d = false := by
    unfold LedgerQuery.placeholder? at hp
    split at hp
    · next cs hcs =>
      split at hp
      · cases hp
      · next hword =>
        refine ⟨cs, hcs, fun d hd => ?_⟩
        rw [Option.mem_def.mp hd, Option.any_some] at hword
        simpa using hword
    · simp only at hp
      split at hp <;> simp at hp
    · cases hp
  cases rs with
  | nil => cases hjoin
  | cons s us =>
    obtain ⟨⟨c, cs', hchars, hf⟩, hus⟩ := hrs
    rw [join_cons, hchars, List.cons_append] at hjoin
    obtain ⟨rfl, rfl⟩ := List.cons.inj hjoin
    -- the `s` is a word of its own
    have hident : Token.ofWord "s" = .ident "s" := by decide
    have hword : ∀ o, front o 's' ([] ++ (cs' ++ join us)) = (.token (.ofWord "s"), [].length) := fun o =>
      front_word (w := "s") rfl (by decide) hends
    rw [List.append_nil, ← List.nil_append (cs' ++ join us), hword, hident] at hf
    obtain ⟨hcontent, hlen⟩ := Prod.mk.inj hf
    obtain rfl : cs' = [] := List.eq_nil_of_length_eq_zero hlen.symm
    obtain rfl : s = token (.ident "s") := by
      cases s with
      | token t => exact congrArg token (Content.token.inj hcontent).symm
      | trivia v => cases hcontent
    refine ⟨us, rfl, h.change (separated_percent _) (fits_token_iff.mpr ⟨trivial, fun _ => hoperand, ?_⟩) hus⟩
    intro d hd
    simp [Token.endsBefore, hends d hd]

end

/-! ## Parsing without the blanks -/

theorem tokens_blanks (w : List Char) : tokens (w.map fun c => trivia [c]) = [] := by
  rw [← map_token_lexemes 0, lexemes_blanks]
  rfl

theorem placeholdersIn_lexemes (offset : Nat) (ss : List Segment) :
    placeholdersIn (Segment.lexemes offset ss) = (tokens ss).filterMap Token.placeholder? := by
  rw [← map_token_lexemes offset, List.filterMap_map]
  rfl

/-- The segments of a text around one of its percent signs, and the blanks after it. -/
theorem exists_segments_of_percent {source : String} {before after : List Lexeme} {span : Span} {x w y : List Char}
    (h : tokenize source = .ok (before ++ ⟨.symbol .percent, span⟩ :: after))
    (htext : source.toList = x ++ '%' :: (w ++ y)) (hx : byteLength x = span.start)
    (hw : ∀ c ∈ w, isBlank c = true) : ∃ qs rs, join qs = x ∧ join rs = y ∧
      qs.foldl operandAfter false = endsOperand before ∧
      Segmented false (qs ++ token (.symbol .percent) :: (w.map (fun c => trivia [c]) ++ rs)) [] ∧
      scan source = .ok (Segment.lexemes 0 (qs ++ token (.symbol .percent) :: (w.map (fun c => trivia [c]) ++ rs))) := by
  obtain ⟨lexemes, hscan, htokens⟩ := exists_scan_of_tokenize h
  obtain ⟨ss, hjoin, hss, rfl⟩ := scanFrom_eq_ok_iff.mp (scan_ok_iff.mp hscan)
  obtain ⟨rest, hrest, hlast⟩ := append_eq_append_concat htokens.symm
  cases rest with
  | nil => cases hlast
  | cons l rest =>
    obtain ⟨rfl, -⟩ := List.cons.inj hlast
    obtain ⟨qs, t, rs, rfl, rfl, hl, -⟩ := exists_eq_of_lexemes hrest
    obtain ⟨rfl, rfl⟩ := Lexeme.mk.inj hl
    have hparts : join qs ++ '%' :: join rs = x ++ '%' :: (w ++ y) := by
      rw [← htext, ← hjoin]
      simp [Token.text, Symbol.spelling]
    obtain ⟨rfl, htail⟩ := append_inj_of_byteLength hparts (by simpa using hx.symm)
    obtain ⟨-, -, hrs⟩ := segmented_append.mp hss
    obtain ⟨rs, rfl, rfl⟩ := hrs.eq_blanks hw (List.cons.inj htail).2
    exact ⟨qs, rs, rfl, rfl, foldl_operandAfter_false qs, hss, hscan⟩

/-- Blanks after a percent sign that is an operator can be left out, if the sign follows a token that counts as the
end of an operand or the text after it does not begin like the rest of a placeholder.  If the sign does not follow such
a token and an `s` alone follows, these become a placeholder, and there is one parameter more. -/
theorem parse_percent {source : String} {limit : Nat} {t : Statement} {before after : List Lexeme} {span : Span}
    {x w y : List Char} (h : tokenize source = .ok (before ++ ⟨.symbol .percent, span⟩ :: after))
    (htext : source.toList = x ++ '%' :: (w ++ y)) (hx : byteLength x = span.start)
    (hw : ∀ c ∈ w, isBlank c = true) (hparse : parse source limit = .ok t) :
    (endsOperand before = true ∨ placeholder? y = none →
      ∃ t', parse (String.ofList (x ++ '%' :: y)) limit = .ok t' ∧ t.Same t') ∧
    (endsOperand before = false → placeholder? y = some (.positional, 1) →
      ∀ limit' t', parse (String.ofList (x ++ '%' :: y)) limit' = .ok t' →
        t'.placeholders.length = t.placeholders.length + 1) := by
  obtain ⟨qs, rs, rfl, rfl, hoperand, hss, hscan⟩ := exists_segments_of_percent h htext hx hw
  rw [← hoperand]
  refine ⟨fun hapart => ?_, fun hfalse hp limit' t' hparse' => ?_⟩
  · have hscan' := scan_join (hss.percent_join hapart) (show _ = join qs ++ '%' :: join rs by simp [Token.text, Symbol.spelling])
    have hsame := parse_sameOutcome hscan hscan' (by simp [map_token_lexemes, tokens_blanks]) limit
    rw [hparse] at hsame
    generalize parse (String.ofList (join qs ++ '%' :: join rs)) limit = outcome at hsame ⊢
    cases hsame with
    | ok hsame => exact ⟨_, rfl, hsame⟩
  · obtain ⟨us, rfl, hus⟩ := hss.placeholder_join hfalse hp
    have hscan' := scan_join hus (show _ = join qs ++ '%' :: join (token (.ident "s") :: us) by
      simp [Token.text, Placeholder.text])
    obtain ⟨lexemes, hlexemes, hcount⟩ := placeholders_of_parse hparse
    obtain ⟨lexemes', hlexemes', hcount'⟩ := placeholders_of_parse hparse'
    obtain rfl := Except.ok.inj (hscan.symm.trans hlexemes)
    obtain rfl := Except.ok.inj (hscan'.symm.trans hlexemes')
    rw [hcount, hcount']
    have hs : Token.placeholder? (.ident "s") = none := rfl
    have hpercent : Token.placeholder? (.symbol .percent) = none := rfl
    have hplaceholder : Token.placeholder? (.placeholder .positional) = some .positional := rfl
    simp [placeholdersIn_lexemes, tokens_blanks, hs, hpercent, hplaceholder, Nat.add_assoc]

/-- A blank between a percent sign and a name that could be the rest of a placeholder. -/
theorem parse_percent_column :
    let before : List Lexeme := [⟨.keyword .select "SELECT", ⟨0, 6⟩⟩, ⟨.ident "a", ⟨7, 8⟩⟩]
    let after : List Lexeme := [⟨.ident "s", ⟨11, 12⟩⟩, ⟨.eof, ⟨12, 12⟩⟩]
    ∃ t, tokenize "SELECT a % s" = .ok (before ++ ⟨.symbol .percent, ⟨9, 10⟩⟩ :: after) ∧
      "SELECT a % s".toList = "SELECT a ".toList ++ '%' :: ([' '] ++ ['s']) ∧ byteLength "SELECT a ".toList = 9 ∧
      (∀ c ∈ [' '], isBlank c = true) ∧ parse "SELECT a % s" 2 = .ok t ∧
      ∃ t', parse (String.ofList ("SELECT a ".toList ++ '%' :: ['s'])) 2 = .ok t' ∧ t.Same t' := by
  intro before after
  have htokens : tokenize "SELECT a % s" = .ok (before ++ ⟨.symbol .percent, ⟨9, 10⟩⟩ :: after) := by cbv
  have hread : (parse "SELECT a % s" 2).toOption.isSome = true := by cbv
  obtain ⟨t, ht⟩ := Option.isSome_iff_exists.mp hread
  have hparse := Phrase.toOption_eq_some_iff.mp ht
  have hblank : ∀ c ∈ [' '], isBlank c = true := by simp [isBlank]
  exact ⟨t, htokens, rfl, rfl, hblank, hparse, (parse_percent htokens rfl rfl hblank hparse).1 (.inl rfl)⟩

/-- After the column `open` the blank makes a difference. -/
theorem not_parse_percent : ¬ ∀ (source : String) (limit : Nat) (t : Statement) (before after : List Lexeme)
    (span : Span) (x w y : List Char), tokenize source = .ok (before ++ ⟨.symbol .percent, span⟩ :: after) →
    source.toList = x ++ '%' :: (w ++ y) → byteLength x = span.start → (∀ c ∈ w, isBlank c = true) →
    parse source limit = .ok t →
    ∃ t', parse (String.ofList (x ++ '%' :: y)) limit = .ok t' ∧ t.Same t' := by
  intro hall
  have hread : (parse "SELECT open % s" 2).toOption.isSome = true := by cbv
  obtain ⟨t, ht⟩ := Option.isSome_iff_exists.mp hread
  obtain ⟨t', ht', -⟩ := hall "SELECT open % s" 2 t
    [⟨.keyword .select "SELECT", ⟨0, 6⟩⟩, ⟨.keyword .open "open", ⟨7, 11⟩⟩] [⟨.ident "s", ⟨14, 15⟩⟩, ⟨.eof, ⟨15, 15⟩⟩]
    ⟨12, 13⟩ "SELECT open ".toList [' '] ['s'] (by cbv) rfl rfl (by simp [isBlank])
    (Phrase.toOption_eq_some_iff.mp ht)
  have hrefused : (parse (String.ofList ("SELECT open ".toList ++ '%' :: ['s'])) 2).toOption.isSome = false := by cbv
  rw [ht'] at hrefused
  cases hrefused

end LedgerQuery
