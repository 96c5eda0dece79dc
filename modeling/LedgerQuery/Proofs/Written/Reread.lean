import LedgerQuery.Proofs.Reading.Valid
import LedgerQuery.Proofs.Written.CoversSelect
import LedgerQuery.Proofs.Written.DerivedSelect

/-!
# Written forms read again

The written form of a well-formed statement is parsed as the same statement if the statement rereads and
the limit allows its levels, and not otherwise (`Statement.WellFormed.parse_text_iff`).

* If it rereads, its tokens derive it, and the parser finds what the grammar derives.
* If the written form is parsed as the same statement, its tokens derive the statement.  A run that derives
  it has as many tokens as were written, so it is the written form token by token, and this is put
  together in the way it was written.

Both are so for every statement that is parsed from any text, since it is valid.  The trees that do not
reread are those that the written form lacks parentheses for.
-/

namespace LedgerQuery

/-! ## Integers with attributes -/

/-- A tree that rereads has no attribute of an integer. -/
theorem rereads_allApart_inductive :
    Inductive (fun e => e.Rereads → e.AllApart) (fun s => s.Rereads → s.AllApart) :=
  all_imp_inductive (fun e h => by
    cases e with
    | «attribute» x n => exact h.2
    | _ => trivial) fun _ _ => trivial

theorem Statement.Rereads.allApart {t : Statement} (h : t.Rereads) : t.AllApart := by
  have hexpr : ∀ {e : Expr}, e.Rereads → e.AllApart := rereads_allApart_inductive.all.1 _
  cases t with
  | select s => exact rereads_allApart_inductive.all.2 s h
  | balances b => exact ⟨fun f hf e he => hexpr ((h.1 f hf).2 e he), fun e he => hexpr (h.2 e he)⟩
  | journal j => exact fun f hf e he => hexpr ((h f hf).2 e he)
  | print p => exact fun f hf e he => hexpr ((h f hf).2 e he)

/-! ## Reading a written form -/

section
variable {t : Statement} {lexemes : List Lexeme} {limit : Nat}

/-- If the written form is parsed as the same statement, the statement rereads and the limit allows its
levels. -/
theorem Statement.WellFormed.rereads_of_parse_text (hw : t.WellFormed) {t' : Statement}
    (h : parse t.text limit = .ok t') (hs : t'.Same t) : t.Rereads ∧ t.levels ≤ limit := by
  obtain ⟨lexemes, hscan, hapart, hlost⟩ := Statement.scan_text hw
  obtain ⟨lexemes', hscan', -, ht⟩ := derived_of_parse h
  obtain rfl : lexemes = lexemes' := Except.ok.inj (hscan.symm.trans hscan')
  have hcovers := Statement.covered hs ht
  have ha : t.AllApart := by
    by_contra ha
    have hle : weight (Piece.tokens t.pieces) ≤ weight (lexemes.map Lexeme.token) := hcovers.weight_le
    have hlt := hlost ha
    omega
  obtain ⟨hr, hlevels⟩ := hcovers.exact (hapart ha)
  exact ⟨hr ha, hlevels⟩

/-- If a statement rereads, its written form is parsed as the same statement, under a limit that allows
its levels or as many levels as there are tokens. -/
theorem Statement.WellFormed.parse_text_of_rereads (hw : t.WellFormed) (hscan : scan t.text = .ok lexemes)
    (hr : t.Rereads) (hl : t.levels ≤ limit ∨ lexemes.length ≤ limit) :
    ∃ t', parse t.text limit = .ok t' ∧ t'.Same t := by
  obtain ⟨lexemes', hscan', hapart, -⟩ := Statement.scan_text hw
  obtain rfl : lexemes = lexemes' := Except.ok.inj (hscan.symm.trans hscan')
  obtain ⟨t', hs, ht⟩ := Statement.derived hw hr (Nat.le_refl _) (hapart hr.allApart)
  exact ⟨t', (parse_eq_ok_iff hscan).mpr (parseLexemes_of_statement (by decide) ht hl), hs⟩

/-- The written form of a well-formed statement is parsed as the same statement exactly if the statement
rereads and the limit allows its levels. -/
theorem Statement.WellFormed.parse_text_iff (hw : t.WellFormed) :
    (∃ t', parse t.text limit = .ok t' ∧ t'.Same t) ↔ t.Rereads ∧ t.levels ≤ limit := by
  constructor
  · rintro ⟨t', h, hs⟩
    exact hw.rereads_of_parse_text h hs
  · rintro ⟨hr, hlevels⟩
    obtain ⟨lexemes, hscan, -⟩ := Statement.scan_text hw
    exact hw.parse_text_of_rereads hscan hr (.inl hlevels)

/-- A written form has a token for every level at least, so under a limit of twice as many levels
whether it is parsed as the same statement does not depend on the limit. -/
theorem Statement.WellFormed.parse_text_iff_rereads (hw : t.WellFormed) :
    ∃ lexemes, scan t.text = .ok lexemes ∧ ∀ limit, 2 * lexemes.length ≤ limit →
      ((∃ t', parse t.text limit = .ok t' ∧ t'.Same t) ↔ t.Rereads) := by
  obtain ⟨lexemes, hscan, -⟩ := Statement.scan_text hw
  refine ⟨lexemes, hscan, fun limit hl => ⟨?_, fun hr => ?_⟩⟩
  · rintro ⟨t', h, hs⟩
    exact (hw.rereads_of_parse_text h hs).1
  · exact hw.parse_text_of_rereads hscan hr (.inr (by omega))

end

/-- The written form of what is parsed is parsed as the same statement under the same limit, exactly if
the statement rereads and the limit allows its levels. -/
theorem parse_text_of_parse_iff {source : String} {limit : Nat} {t : Statement}
    (h : parse source limit = .ok t) :
    (∃ t', parse t.text limit = .ok t' ∧ t'.Same t) ↔ t.Rereads ∧ t.levels ≤ limit := by
  obtain ⟨lexemes, -, hu, ht⟩ := derived_of_parse h
  exact (statement_valid hu ht).wellFormed.parse_text_iff

/-! ## Filters of a column -/

/-- The query whose filter is a single column. -/
def filteredBy (column : String) : Select :=
  ⟨.all, false, some (.entries ⟨some (.column column), none, none, false⟩), none, none, none, none, none⟩

section
variable {n : String}

theorem filteredBy_parts : (filteredBy n).parts = [.column n] := rfl

theorem filteredBy_wellFormed (hn : IsName n) : (Statement.select (filteredBy n)).WellFormed := by
  have hcolumn : (Expr.column n).WellFormed := .mk hn (by simp [Expr.parts]) (by simp)
  have hsource : ∀ a ∈ (filteredBy n).source, a.Writable := by
    simp [filteredBy, Source.Writable, EntryFilter.Writable]
  refine .mk ⟨trivial, hsource, by simp [filteredBy], by simp [filteredBy], by simp [filteredBy], ?_⟩ ?_
    (by simp [filteredBy])
  · simp [filteredBy_parts]
  · rw [filteredBy_parts, List.forall_mem_singleton]
    exact hcolumn

theorem startsWith_ofWord {m : Keyword} :
    StartsWith [.keyword m] [Token.ofWord n] ↔ Keyword.lookup? n = some m := by
  unfold Token.ofWord
  split
  · next k hk => simp [StartsWith, Token.terminal?, hk]
  · next hk => simp [StartsWith, Token.terminal?, hk]

/-- A filter of a single column rereads exactly if the column is not called like a modifier. -/
theorem filteredBy_rereads_iff : (Statement.select (filteredBy n)).Rereads ↔
    ∀ m ∈ [Keyword.open, .close, .clear], Keyword.lookup? n ≠ some m := by
  have hcolumn : (Expr.column n).Rereads := .mk trivial (by simp [Expr.parts]) (by simp)
  have htokens : Piece.tokens (Expr.column n).pieces = [Token.ofWord n] := rfl
  have hquery : ¬ StartsWith queryStart [Token.ofWord n] := fun h => by
    simpa [StartsWith, queryStart] using congrArg List.length h
  have hfilter : (filteredBy n).Separates ↔ ∀ m ∈ [Keyword.open, .close, .clear], Keyword.lookup? n ≠ some m := by
    simp [Select.Separates, filteredBy, EntryFilter.Separates, htokens, hquery, modifierStarts,
      startsWith_ofWord]
  rw [Statement.Rereads, Select.Rereads, Select.all_iff, filteredBy_parts, List.forall_mem_singleton]
  exact ⟨fun h => hfilter.mp h.1, fun h => ⟨hfilter.mpr h, hcolumn, by simp [filteredBy]⟩⟩

theorem IsName.of_lookup {k : Option Keyword} (hw : isWord n.toList = true) (hk : Keyword.lookup? n = k)
    (hr : ∀ k' ∈ k, k'.isReserved = false) : IsName n := ⟨hw, fun k' hk' => hr k' (hk ▸ hk')⟩

end

theorem isName_open : IsName "open" := .of_lookup (k := some .open) (by decide) (by decide) (by simp; decide)

theorem parse_text_iff_rereads_year : (Statement.select (filteredBy "year")).Rereads ∧ ∃ lexemes,
    scan (Statement.select (filteredBy "year")).text = .ok lexemes ∧ ∀ limit, 2 * lexemes.length ≤ limit →
      ((∃ t', parse (Statement.select (filteredBy "year")).text limit = .ok t' ∧
        t'.Same (.select (filteredBy "year"))) ↔ (Statement.select (filteredBy "year")).Rereads) := by
  have hlookup : Keyword.lookup? "year" = none := by decide
  have hname : IsName "year" := .of_lookup (by decide) hlookup (by simp)
  exact ⟨filteredBy_rereads_iff.mpr (by simp [hlookup]),
    (filteredBy_wellFormed hname).parse_text_iff_rereads⟩

/-- `OPEN` as the only column of a filter is a name, and the written form lacks the parentheses that would
tell it from the modifier. -/
theorem text_not_reread_open : (Statement.select (filteredBy "open")).WellFormed ∧
    ∀ limit, ¬ ∃ t', parse (Statement.select (filteredBy "open")).text limit = .ok t' ∧
      t'.Same (.select (filteredBy "open")) := by
  have hw := filteredBy_wellFormed isName_open
  exact ⟨hw, fun limit h => filteredBy_rereads_iff.mp (hw.parse_text_iff.mp h).1 .open (by simp) (by decide)⟩

theorem parse_text_of_parse_iff_year : parse "SELECT * FROM (year)" 3 = .ok (.select (filteredBy "year")) ∧
    ((∃ t', parse (Statement.select (filteredBy "year")).text 3 = .ok t' ∧
      t'.Same (.select (filteredBy "year"))) ↔
        (Statement.select (filteredBy "year")).Rereads ∧ (Statement.select (filteredBy "year")).levels ≤ 3) := by
  have h : parse "SELECT * FROM (year)" 3 = .ok (.select (filteredBy "year")) := by cbv
  exact ⟨h, parse_text_of_parse_iff h⟩

/-- The column `OPEN` is read from parentheses, and the written form is not read back. -/
theorem parsed_text_not_reread_open : parse "SELECT * FROM (open)" 64 = .ok (.select (filteredBy "open")) ∧
    ¬ ∃ t', parse (Statement.select (filteredBy "open")).text 64 = .ok t' ∧
      t'.Same (.select (filteredBy "open")) := by
  have hw := filteredBy_wellFormed isName_open
  exact ⟨by cbv, fun h => filteredBy_rereads_iff.mp (hw.parse_text_iff.mp h).1 .open (by simp) (by decide)⟩

end LedgerQuery
