import LedgerQuery.Proofs.Limit.CurtailedGrammar

/-!
# The threshold of the nesting limit

A text that can be scanned has a threshold.  Under every limit below it parsing is cut off by that
limit, and under every other limit the outcome is one and the same, and is not that the nesting is too
deep (`exists_threshold`).  The threshold is at most twice the number of lexemes.

A lower limit only cuts off (`parseLexemes_curtailed`), so the threshold is the least limit under which
parsing is not cut off.
-/

namespace LedgerQuery

/-- Whether parsing lexemes is cut off by a limit. -/
def CutOff (lexemes : List Lexeme) (limit : Nat) : Prop :=
  ∃ rest, parseLexemes lexemes limit = .error ⟨.tooDeep limit, rest⟩

section
variable {source : String} {lexemes : List Lexeme} {limit limit' : Nat}

/-- A lower limit changes nothing but that parsing may be cut off, for want of levels. -/
theorem parseLexemes_curtailed (lexemes : List Lexeme) (hle : limit ≤ limit') :
    (parseLexemes lexemes limit = parseLexemes lexemes limit' ∧
      ∀ stop, parseLexemes lexemes limit = .error stop → ¬ stop.fault.IsTooDeep) ∨
      CutOff lexemes limit ∧ limit < 2 * lexemes.length := by
  have hnested : (Parser.nested limit limit).Curtails limit limit
      (Parser.nested limit' limit') := nested_curtails hle
  rcases Curtails.wholeText hnested (Input.start lexemes) with ⟨heq, -, huncut⟩ | ⟨⟨rest, hcut⟩, hlt⟩
  · have hsame : parseLexemes lexemes limit = parseLexemes lexemes limit' :=
      congrArg (Except.map Prod.fst) heq
    refine .inl ⟨hsame, fun stop hstop => huncut stop ?_⟩
    rw [hsame, parseLexemes] at hstop
    cases hq : Parser.wholeText (Parser.nested limit' limit') (Input.start lexemes) with
    | ok r => rw [hq] at hstop; cases hstop
    | error stop' => rw [hq] at hstop; cases hstop; rfl
  · exact .inr ⟨⟨rest, congrArg (Except.map Prod.fst) hcut⟩, by simpa [Input.start] using hlt⟩

/-- A limit of two levels for each lexeme does not cut off. -/
theorem not_cutOff_of_le (h : 2 * lexemes.length ≤ limit) : ¬ CutOff lexemes limit := by
  rintro ⟨rest, hcut⟩
  rcases parseLexemes_curtailed lexemes (Nat.le_refl limit) with ⟨-, huncut⟩ | ⟨-, hlt⟩
  · exact huncut _ hcut ⟨limit, rfl⟩
  · omega

/-- The lexemes of a text have a least limit that does not cut off. -/
theorem exists_least (lexemes : List Lexeme) : ∃ threshold ≤ 2 * lexemes.length,
    ¬ CutOff lexemes threshold ∧ ∀ limit < threshold, CutOff lexemes limit := by
  classical
  have hex : ∃ limit, ¬ CutOff lexemes limit := ⟨_, not_cutOff_of_le (Nat.le_refl _)⟩
  exact ⟨Nat.find hex, Nat.find_min' hex (not_cutOff_of_le (Nat.le_refl _)), Nat.find_spec hex,
    fun limit hlt => Classical.not_not.mp (Nat.find_min hex hlt)⟩

/-- The error of parsing is that of where reading the lexemes stops. -/
theorem parseSpanned_eq (hs : scan source = .ok lexemes) :
    parseSpanned source limit = (parseLexemes lexemes limit).mapError (Stop.toError · source) := by
  simp only [parseSpanned, hs, bind, Except.bind]
  cases parseLexemes lexemes limit <;> rfl

/-- The nesting limit only cuts off and never changes a result. -/
theorem exists_threshold (hs : scan source = .ok lexemes) : ∃ threshold ≤ 2 * lexemes.length,
    (∀ limit < threshold, ∃ e, parseSpanned source limit = .error e ∧ e.fault = .tooDeep limit) ∧
      ∃ outcome, (∀ limit ≥ threshold, parseSpanned source limit = outcome) ∧
        ∀ e, outcome = .error e → ¬ e.fault.IsTooDeep := by
  obtain ⟨threshold, hle, hspec, hmin⟩ := exists_least lexemes
  refine ⟨threshold, hle, fun limit hlt => ?_, parseSpanned source threshold, fun limit hge => ?_,
    fun e he => ?_⟩
  · obtain ⟨rest, hcut⟩ := hmin limit hlt
    exact ⟨_, by rw [parseSpanned_eq hs, hcut]; rfl, rfl⟩
  · rcases parseLexemes_curtailed lexemes hge with ⟨hsame, -⟩ | ⟨hcut, -⟩
    · rw [parseSpanned_eq hs, parseSpanned_eq hs, hsame]
    · exact absurd hcut hspec
  · rw [parseSpanned_eq hs] at he
    rcases parseLexemes_curtailed lexemes (Nat.le_refl threshold) with ⟨-, huncut⟩ | ⟨hcut, -⟩
    · cases hp : parseLexemes lexemes threshold with
      | ok r => rw [hp] at he; cases he
      | error stop =>
        rw [hp] at he
        cases he
        exact huncut stop hp
    · exact absurd hcut hspec

/-- A text with an error in its third level. -/
theorem exists_threshold_unclosed : ∃ lexemes, scan "SELECT (a" = .ok lexemes ∧
    ∃ threshold ≤ 2 * lexemes.length,
      (∀ limit < threshold, ∃ e, parseSpanned "SELECT (a" limit = .error e ∧ e.fault = .tooDeep limit) ∧
        ∃ outcome, (∀ limit ≥ threshold, parseSpanned "SELECT (a" limit = outcome) ∧
          ∀ e, outcome = .error e → ¬ e.fault.IsTooDeep := by
  have hs : scan "SELECT (a" = .ok [⟨.keyword .select "SELECT", ⟨0, 6⟩⟩, ⟨.symbol .leftParen, ⟨7, 8⟩⟩,
      ⟨.ident "a", ⟨8, 9⟩⟩] := rfl
  exact ⟨_, hs, exists_threshold hs⟩

end

end LedgerQuery
