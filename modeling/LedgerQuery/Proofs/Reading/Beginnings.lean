import LedgerQuery.Proofs.Reading.CoherentGrammar
import LedgerQuery.Proofs.Reading.Excerpts
import LedgerQuery.Proofs.Reading.WindowGrammar
import LedgerQuery.Proofs.Text.Location

/-!
# Errors do not depend on what follows

An error stays the same if the text changes more than two tokens after it (`parse_error_of_agree`).  The two
texts have to be the same up to the end of the token that the error is at, and in the two tokens after it,
keywords up to spelling.

Tokens have different spans, so the token that an error is at is known by its span (`span_injective`).
Tokens that stand in a common beginning of two texts are the very same (`eq_of_respelled_of_common`).
-/

namespace LedgerQuery

open Token LedgerQuery.Parser

section
variable {tokens : List Lexeme}

/-- A token is determined by what it is up to spelling and by its text. -/
theorem Token.eq_of_respelled {t t' : Token} (h : t.respelled = t'.respelled) (htext : t.text = t'.text) :
    t = t' := by
  cases t <;> cases t' <;> simp_all [respelled, text]

variable {source : String} {i j : Nat} {l m : Lexeme}

/-- A token that another token follows is not empty and stands before it. -/
theorem stop_le_start_of_lt (h : tokenize source = .ok tokens) (hi : tokens[i]? = some l)
    (hj : tokens[j]? = some m) (hij : i < j) : l.span.start < l.span.stop ∧ l.span.stop ≤ m.span.start := by
  obtain ⟨x, y, hx, hspan⟩ := exists_text_of_tokenize h (List.mem_of_getElem? hi)
  obtain ⟨lexemes, hscan, rfl⟩ := exists_scan_of_tokenize h
  obtain ⟨hpair, hnonempty⟩ := scan_ordered hscan
  have hjlt := (List.getElem?_eq_some_iff.mp hj).1
  rw [List.length_append, List.length_singleton] at hjlt
  rw [List.getElem?_append_left (by omega)] at hi
  refine ⟨hnonempty l (List.mem_of_getElem? hi), ?_⟩
  by_cases hend : j < lexemes.length
  · rw [List.getElem?_append_left hend] at hj
    obtain ⟨_, rfl⟩ := List.getElem?_eq_some_iff.mp hi
    obtain ⟨_, rfl⟩ := List.getElem?_eq_some_iff.mp hj
    exact List.pairwise_iff_getElem.mp hpair i j ‹_› ‹_› hij
  · obtain rfl : j = lexemes.length := by omega
    obtain rfl : Lexeme.mk .eof (endOfText source) = m := by simpa using hj
    rw [hspan, endOfText, hx, byteLength_append _ y]
    exact Nat.le_add_right ..

/-- No token stops before an earlier one. -/
theorem stop_le_stop_of_le (h : tokenize source = .ok tokens) (hi : tokens[i]? = some l)
    (hj : tokens[j]? = some m) (hij : i ≤ j) : l.span.stop ≤ m.span.stop := by
  rcases Nat.eq_or_lt_of_le hij with rfl | hlt
  · rw [Option.some.inj (hi.symm.trans hj)]
  · obtain ⟨x, y, -, hspan⟩ := exists_text_of_tokenize h (List.mem_of_getElem? hj)
    refine (stop_le_start_of_lt h hi hj hlt).2.trans ?_
    rw [hspan, byteLength_append]
    exact Nat.le_add_right ..

/-- Different tokens of a text have different spans. -/
theorem span_injective (h : tokenize source = .ok tokens) (hi : tokens[i]? = some l)
    (hj : tokens[j]? = some m) (hlm : l.span = m.span) : i = j := by
  rcases Nat.lt_trichotomy i j with hij | hij | hij
  · have := stop_le_start_of_lt h hi hj hij
    rw [hlm] at this
    omega
  · exact hij
  · have := stop_le_start_of_lt h hj hi hij
    rw [hlm] at this
    omega

end

/-! ## Common beginnings -/

section
variable {source source' : String} {limit p : Nat} {tokens tokens' : List Lexeme} {l m m' : Lexeme}
  {common rest rest' : List Char} {e : ParseError}

/-- A beginning of a text that is not longer than another one is a beginning of it. -/
theorem exists_eq_append_of_byteLength_le {x y : List Char} (h : x ++ y = common ++ rest)
    (hle : byteLength x ≤ byteLength common) : ∃ mid, common = x ++ mid := by
  rcases List.append_eq_append_iff.mp h with ⟨mid, hmid, -⟩ | ⟨mid, hmid, -⟩
  · exact ⟨mid, hmid⟩
  · rw [hmid, byteLength_append] at hle
    obtain rfl : mid = [] := byteLength_eq_zero_iff.mp (by omega)
    exact ⟨[], by simpa using hmid.symm⟩

/-- Tokens that stand in a common beginning of two texts and are the same up to spelling are the same. -/
theorem eq_of_respelled_of_common (h : tokenize source = .ok tokens) (h' : tokenize source' = .ok tokens')
    (hs : source.toList = common ++ rest) (hs' : source'.toList = common ++ rest') (hm : m ∈ tokens)
    (hm' : m' ∈ tokens') (hstop : m.span.stop ≤ byteLength common) (hmm : m'.respelled = m.respelled) : m' = m := by
  obtain ⟨x, y, hx, hspan⟩ := exists_text_of_tokenize h hm
  obtain ⟨x', y', hx', hspan'⟩ := exists_text_of_tokenize h' hm'
  have heq : m'.span = m.span := (Lexeme.mk.inj hmm).2
  obtain ⟨hstart, hend⟩ := Span.mk.inj ((hspan'.symm.trans heq).trans hspan)
  obtain ⟨mid, rfl⟩ := exists_eq_append_of_byteLength_le (hx.symm.trans hs) (by rwa [hspan] at hstop)
  obtain ⟨hxt, -⟩ := append_inj_of_byteLength
    (show x ++ m.token.text.toList ++ (mid ++ rest') = x' ++ m'.token.text.toList ++ y' by
      rw [← hx', hs', List.append_assoc, List.append_assoc, List.append_assoc]) hend.symm
  obtain ⟨-, htext⟩ := append_inj_of_byteLength hxt hstart.symm
  have htoken : m'.token = m.token :=
    Token.eq_of_respelled (Lexeme.mk.inj hmm).1 (String.toList_inj.mp htext.symm)
  obtain ⟨_, _⟩ := m
  obtain ⟨_, _⟩ := m'
  simp_all

/-- Where the tokens of two texts are the same up to spelling, they are the end of both texts or of neither. -/
theorem lexeme_of_agree {lexemes lexemes' : List Lexeme} {i : Nat} (hscan : scan source = .ok lexemes)
    (hscan' : scan source' = .ok lexemes') (hi : i ≤ lexemes.length)
    (h : ∀ m, (lexemes ++ [⟨.eof, endOfText source⟩])[i]? = some m →
      ∃ m', (lexemes' ++ [⟨.eof, endOfText source'⟩])[i]? = some m' ∧ m'.respelled = m.respelled) :
    (∃ m m', lexemes[i]? = some m ∧ lexemes'[i]? = some m' ∧ m'.respelled = m.respelled) ∨
      i = lexemes.length ∧ i = lexemes'.length := by
  obtain ⟨-, hnonempty⟩ := scan_ordered hscan
  obtain ⟨-, hnonempty'⟩ := scan_ordered hscan'
  by_cases hlt : i < lexemes.length
  · obtain ⟨m', hm', hmm⟩ := h lexemes[i] (by rw [List.getElem?_append_left hlt, List.getElem?_eq_getElem hlt])
    have hspan : m'.span = lexemes[i].span := (Lexeme.mk.inj hmm).2
    have hm := hnonempty _ (List.getElem_mem hlt)
    refine .inl ⟨_, m', List.getElem?_eq_getElem hlt, ?_, hmm⟩
    rw [List.getElem?_append] at hm'
    split at hm'
    · exact hm'
    · obtain ⟨_, rfl⟩ := List.getElem?_eq_some_iff.mp hm'
      rw [← hspan] at hm
      simp [endOfText] at hm
  · obtain rfl : i = lexemes.length := by omega
    obtain ⟨m', hm', hmm⟩ := h ⟨.eof, endOfText source⟩ (by simp)
    have hspan : m'.span = endOfText source := (Lexeme.mk.inj hmm).2
    rw [List.getElem?_append] at hm'
    split at hm'
    · have hm := hnonempty' m' (List.mem_of_getElem? hm')
      rw [hspan] at hm
      exact absurd hm (Nat.lt_irrefl _)
    · have hlen := (List.getElem?_eq_some_iff.mp hm').1
      rw [List.length_singleton] at hlen
      exact .inr ⟨rfl, by omega⟩

/-- Some items have the same beginning if they are the same one by one. -/
theorem take_map_eq {α β : Type} {f : α → β} {xs ys : List α} {n : Nat}
    (h : ∀ k < n, xs[k]?.map f = ys[k]?.map f) : (xs.map f).take n = (ys.map f).take n := by
  refine List.ext_getElem? fun k => ?_
  rw [List.getElem?_take, List.getElem?_take]
  split
  · next hk => rw [List.getElem?_map, List.getElem?_map, h k hk]
  · rfl

/-- Texts that go on alike for three tokens, and with the same token, meet. -/
theorem meets_of_agree {u v v' : List Lexeme} (hscan : scan source = .ok (u ++ v))
    (hscan' : scan source' = .ok (u ++ v'))
    (hagree : ∀ i m, i ≤ u.length + 2 → (u ++ v ++ [⟨.eof, endOfText source⟩])[i]? = some m →
      ∃ m', (u ++ v' ++ [⟨.eof, endOfText source'⟩])[i]? = some m' ∧ m'.respelled = m.respelled)
    (hnext : (u ++ v ++ [⟨.eof, endOfText source⟩])[u.length]? =
      (u ++ v' ++ [⟨.eof, endOfText source'⟩])[u.length]?) : Meets v v' := by
  have hat : ∀ k ≤ v.length, k ≤ 2 → (∃ m m', v[k]? = some m ∧ v'[k]? = some m' ∧ m'.respelled = m.respelled) ∨
      k = v.length ∧ k = v'.length := by
    intro k hk hk2
    have h := lexeme_of_agree hscan hscan' (i := u.length + k) (by rw [List.length_append]; omega)
      fun m hm => hagree _ m (by omega) hm
    simpa [List.getElem?_append_right] using h
  have hahead : ∀ k < 3, v[k]?.map Lexeme.respelled = v'[k]?.map Lexeme.respelled := by
    intro k hk
    rcases Nat.lt_or_ge v.length k with hlt | hle
    · rcases hat v.length (Nat.le_refl _) (by omega) with ⟨m, m', hm, -⟩ | ⟨-, hlen⟩
      · simp at hm
      · rw [List.getElem?_eq_none (by omega), List.getElem?_eq_none (by omega)]
    · rcases hat k hle (by omega) with ⟨m, m', hm, hm', hmm⟩ | ⟨hv, hv'⟩
      · rw [hm, hm', Option.map_some, Option.map_some, hmm]
      · rw [List.getElem?_eq_none (by omega), List.getElem?_eq_none (by omega)]
  refine ⟨take_map_eq fun k hk => ?_, take_map_eq hahead⟩
  obtain rfl : k = 0 := by omega
  rcases hat 0 (Nat.zero_le _) (Nat.zero_le _) with ⟨m, m', hm, hm', -⟩ | ⟨hv, hv'⟩
  · cases v <;> cases v' <;> simp_all
  · rw [List.getElem?_eq_none (by omega), List.getElem?_eq_none (by omega)]

/-- An error stays the same in another text, if the texts are the same up to the end of the token it is at, and
the two tokens after this token are the same as well, unless the first text ends before. -/
theorem parse_error_of_agree (h : tokenize source = .ok tokens) (h' : tokenize source' = .ok tokens')
    (he : parse source limit = .error e) (hp : tokens[p]? = some l) (hspan : e.span = l.span)
    (hs : source.toList = common ++ rest) (hs' : source'.toList = common ++ rest')
    (hcommon : l.span.stop = byteLength common)
    (hagree : ∀ i m, i ≤ p + 2 → tokens[i]? = some m → ∃ m', tokens'[i]? = some m' ∧ m'.respelled = m.respelled) :
    parse source' limit = .error e := by
  obtain ⟨lexemes, hscan, rfl⟩ := exists_scan_of_tokenize h
  obtain ⟨lexemes', hscan', rfl⟩ := exists_scan_of_tokenize h'
  obtain ⟨⟨fault, v⟩, hstop, rfl⟩ := (parse_eq_error_iff hscan).mp he
  obtain ⟨u, rfl, -⟩ := parseLexemes_coherent hstop
  -- the error is at the first lexeme that remains
  obtain ⟨m, after, hm, hmspan⟩ := Stop.exists_eq_cons ⟨fault, v⟩ source
  have hget : (u ++ v ++ [⟨.eof, endOfText source⟩])[u.length]? = some m := by
    rw [List.append_assoc, hm]
    simp
  obtain rfl : p = u.length := span_injective h hp hget (hspan.symm.trans hmspan)
  obtain rfl : l = m := Option.some.inj (hp.symm.trans hget)
  -- up to this lexeme the lexemes of the other text are the very same
  have hsame : ∀ i m, i ≤ u.length → (u ++ v ++ [⟨.eof, endOfText source⟩])[i]? = some m →
      (lexemes' ++ [⟨.eof, endOfText source'⟩])[i]? = some m := by
    intro i m hi hm
    obtain ⟨m', hm', hmm⟩ := hagree i m (by omega) hm
    have hle : m.span.stop ≤ byteLength common := hcommon ▸ stop_le_stop_of_le h hm hp hi
    rw [hm', eq_of_respelled_of_common h h' hs hs' (List.mem_of_getElem? hm) (List.mem_of_getElem? hm') hle hmm]
  have hlen : u.length ≤ lexemes'.length := by
    have hlt := (List.getElem?_eq_some_iff.mp (hsame _ l (Nat.le_refl _) hp)).1
    rw [List.length_append, List.length_singleton] at hlt
    omega
  obtain ⟨v', rfl⟩ : ∃ v', lexemes' = u ++ v' := by
    refine ⟨lexemes'.drop u.length, ?_⟩
    have htake : lexemes'.take u.length = u := by
      refine List.ext_getElem (by simpa using hlen) fun i hi hi' => ?_
      have hgi := hsame i u[i] (Nat.le_of_lt hi') (by simp [List.getElem?_append, hi'])
      rw [List.getElem?_append_left (by omega)] at hgi
      obtain ⟨_, hgi⟩ := List.getElem?_eq_some_iff.mp hgi
      rw [List.getElem_take, hgi]
    conv_lhs => rw [← List.take_append_drop u.length lexemes', htake]
  have hmeets : Meets v v' := meets_of_agree hscan hscan' hagree (by rw [hp, hsame _ l (Nat.le_refl _) hp])
  refine (parse_eq_error_iff hscan').mpr ⟨⟨fault, v'⟩, parseLexemes_tracks hmeets ⟨u, u, rfl, rfl, rfl⟩ hstop, ?_⟩
  obtain ⟨l', after', hl', hl'span⟩ := Stop.exists_eq_cons ⟨fault, v'⟩ source'
  obtain rfl : l' = l := by
    have h := hsame _ l (Nat.le_refl _) hp
    rw [List.append_assoc, hl'] at h
    simpa using h
  have hspans : (Stop.toError ⟨fault, v'⟩ source').span = (Stop.toError ⟨fault, v⟩ source).span :=
    hl'span.trans hspan.symm
  have hloc : Location.ofOffset source'.toList l'.span.start = Location.ofOffset source.toList l'.span.start := by
    obtain ⟨x, y, hx, hl⟩ := exists_text_of_tokenize h (List.mem_of_getElem? hp)
    obtain ⟨mid, rfl⟩ := exists_eq_append_of_byteLength_le (hx.symm.trans hs) (by rw [← hcommon, hl])
    rw [hs, hs', hl]
    simp only [List.append_assoc, Location.ofOffset_append]
  show ParseError.mk fault (Stop.toError ⟨fault, v'⟩ source').span
      (Location.ofOffset _ (Stop.toError ⟨fault, v'⟩ source').span.start) =
    ParseError.mk fault (Stop.toError ⟨fault, v⟩ source).span
      (Location.ofOffset _ (Stop.toError ⟨fault, v⟩ source).span.start)
  rw [hspans, hspan, hloc]

/-- The `IN` after the `NOT` that an error is at has to stay, but its spelling and what follows may change. -/
theorem parse_error_of_agree_notIn :
    let e : ParseError := ⟨.chainedComparison, ⟨13, 16⟩, ⟨1, 14, 13⟩⟩
    parse "SELECT a = b NOT IN c" 8 = .error e ∧ parse "SELECT a = b NOT in c )" 8 = .error e := by
  intro e
  let tokens : List Lexeme := [⟨.keyword .select "SELECT", ⟨0, 6⟩⟩, ⟨.ident "a", ⟨7, 8⟩⟩, ⟨.symbol .equal, ⟨9, 10⟩⟩,
    ⟨.ident "b", ⟨11, 12⟩⟩, ⟨.keyword .not "NOT", ⟨13, 16⟩⟩, ⟨.keyword .in "IN", ⟨17, 19⟩⟩, ⟨.ident "c", ⟨20, 21⟩⟩,
    ⟨.eof, ⟨21, 21⟩⟩]
  let tokens' : List Lexeme := [⟨.keyword .select "SELECT", ⟨0, 6⟩⟩, ⟨.ident "a", ⟨7, 8⟩⟩, ⟨.symbol .equal, ⟨9, 10⟩⟩,
    ⟨.ident "b", ⟨11, 12⟩⟩, ⟨.keyword .not "NOT", ⟨13, 16⟩⟩, ⟨.keyword .in "in", ⟨17, 19⟩⟩, ⟨.ident "c", ⟨20, 21⟩⟩,
    ⟨.symbol .rightParen, ⟨22, 23⟩⟩, ⟨.eof, ⟨23, 23⟩⟩]
  have h : tokenize "SELECT a = b NOT IN c" = .ok tokens := by cbv
  have h' : tokenize "SELECT a = b NOT in c )" = .ok tokens' := by cbv
  have he : parse "SELECT a = b NOT IN c" 8 = .error e := by cbv
  have hs : "SELECT a = b NOT IN c".toList = "SELECT a = b NOT".toList ++ " IN c".toList := by decide
  have hs' : "SELECT a = b NOT in c )".toList = "SELECT a = b NOT".toList ++ " in c )".toList := by decide
  refine ⟨he, parse_error_of_agree h h' he (p := 4) rfl rfl hs hs' (by decide) fun i m hi hm => ?_⟩
  interval_cases i <;>
    · obtain rfl := Option.some.inj hm
      exact ⟨_, rfl, rfl⟩

end

end LedgerQuery
