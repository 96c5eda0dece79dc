import LedgerQuery.Proofs.Reading.Exact

/-!
# What is parsed is derived

A statement that is parsed is derived by the grammar with subselects anywhere.  Its tokens are legal,
since they are scanned.  That grammar is ambiguous, and so this is all that is said here of which tree
it is.
-/

namespace LedgerQuery

/-- Whether every lexeme of a run is legal. -/
def LegalRun (u : List Lexeme) : Prop := ∀ l ∈ u, l.token.Legal

theorem LegalRun.mono {u v : List Lexeme} (h : LegalRun u) (hv : v ⊆ u) : LegalRun v :=
  fun l hl => h l (hv hl)

theorem legalRun_append {u v : List Lexeme} : LegalRun (u ++ v) ↔ LegalRun u ∧ LegalRun v := by
  simp only [LegalRun, List.mem_append, or_imp, forall_and]

/-- What is parsed is derived by the grammar from legal tokens. -/
theorem derived_of_parse {source : String} {limit : Nat} {t : Statement} (h : parse source limit = .ok t) :
    ∃ lexemes, scan source = .ok lexemes ∧ LegalRun lexemes ∧
      Phrase.statement (phrases .anywhere limit) lexemes t := by
  cases hs : scan source with
  | error e => simp [parse, parseSpanned, hs, bind, Except.bind, Except.map] at h
  | ok lexemes =>
    obtain ⟨span, h⟩ := (parse_eq_ok_iff hs).mp h
    have htrue : Invariant fun _ => True := ⟨fun _ _ => trivial, fun _ _ _ => trivial, fun _ _ _ _ => trivial⟩
    exact ⟨lexemes, rfl, scan_legal hs, statement_of_parseLexemes (Q := Never) htrue htrue
      (fun _ _ _ => trivial) (.inl ⟨rfl, rfl⟩) (fun _ => trivial) (fun _ _ _ _ => trivial)
      (fun l hl => (scan_legal hs l hl).ne_eof) h⟩

end LedgerQuery
