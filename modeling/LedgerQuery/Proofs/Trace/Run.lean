import LedgerQuery.Proofs.Lexing.Longest
import LedgerQuery.Proofs.Trace.ErasesGrammar
import LedgerQuery.Proofs.Trace.SoundGrammar

/-!
# The course of parsing

Every text that is scanned is parsed as the traced reader of the grammar reads it, and what this one writes down
is sound (`tokenize_traced`).  So while a text is parsed

* the cursor is never after the end of input nor deeper than the limit, and never goes back,
* every call ends on the level where it began, with a fault or without,
* every call that finds something has read something, and so has every round of a loop before another one,
* no item that is tried is left out of the record, and none of another place is in it,
* every lexeme is read at most once.
-/

namespace LedgerQuery

namespace Traced

/-- The statement or the error that the run over a sheet comes to in a source. -/
def outcome (source : String) (sheet : Sheet) : Except ParseError (Statement × Span) :=
  match run sheet with
  | .ok result _ => .ok result
  | .error halt _ => .error (.locate source halt.fault halt.span)

/-- What is written down in the run over a sheet, whether it comes to a statement or not. -/
def recording (sheet : Sheet) : Recording :=
  match run sheet with
  | .ok _ r => r
  | .error _ r => r

section
variable {α : Type} {routine : Routine} {p : Traced α} {sheet : Sheet} {r t : Recording}

/-- A call that finds something is written down when it ends. -/
theorem call_found {a : α} (h : call routine p sheet r = .ok a t) :
    t.trace.head? = some ⟨.call routine .found, r.cursor, t.cursor⟩ := by
  unfold call noting at h
  generalize p sheet r = x at h
  cases x <;> cases h
  rfl

/-- A call that fails is written down when it ends. -/
theorem call_failed {halt : Halt} (h : call routine p sheet r = .error halt t) :
    t.trace.head? = some ⟨.call routine .failed, r.cursor, t.cursor⟩ := by
  unfold call noting at h
  generalize p sheet r = x at h
  cases x <;> cases h
  rfl

end

/-- The last event is the call for the whole text, which began at the start. -/
theorem recording_last (source : String) (sheet : Sheet) : (recording sheet).trace.head? =
    some ⟨.call .text (if (outcome source sheet).isOk then .found else .failed), .start, (recording sheet).cursor⟩ := by
  unfold recording outcome
  cases h : run sheet with
  | ok result t => exact call_found h
  | error halt t => exact call_failed h

/-- What is written down is sound, and no level is left open. -/
theorem recording_sound (sheet : Sheet) : (recording sheet).Sound sheet sheet.limit := by
  have hrun := Goes.wholeText (W := .anywhere) (nested_sound sheet.limit) sheet _ (.start sheet) trivial
  unfold recording run
  generalize wholeText (nested sheet.limit) sheet ⟨.start, []⟩ = x at hrun ⊢
  cases hrun with
  | ok hr _ _ => exact hr
  | error hr _ => exact hr

example : (recording ⟨[⟨.keyword .select "SELECT", ⟨0, 6⟩⟩, ⟨.ident "a", ⟨7, 8⟩⟩], ⟨8, 8⟩, 2, by decide⟩).reads =
    [0, 1] := by cbv

/-- A plain reader of a whole text starts with no last lexeme if there is none, which makes no difference. -/
theorem wholeText_start (sheet : Sheet) (H : LedgerQuery.Nested) :
    Parser.wholeText H ⟨sheet.lexemes, [], sheet.spanAt 0⟩ = Parser.wholeText H (Input.start sheet.lexemes) := by
  obtain ⟨lexemes, stop, limit, hne⟩ := sheet
  cases lexemes <;> rfl

/-- The run over a sheet comes to what its lexemes are parsed as. -/
theorem run_sameEnd (sheet : Sheet) : SameEnd sheet sheet.limit (run sheet)
    (Parser.wholeText (Parser.nested sheet.limit sheet.limit) (Input.start sheet.lexemes)) := by
  rw [← wholeText_start]
  refine Erases.wholeText (W := .anywhere) (nested_erases sheet sheet.limit) _ _ ?_ trivial
  exact ⟨rfl, fun e => Iff.rfl, Nat.le_refl _, Nat.zero_add _, rfl⟩

/-- The run over the lexemes of a source comes to what the source is parsed as. -/
theorem outcome_eq {source : String} {sheet : Sheet} (h : scan source = .ok sheet.lexemes)
    (hstop : sheet.stop = endOfText source) : outcome source sheet = parseSpanned source sheet.limit := by
  have hparsed : parseSpanned source sheet.limit =
      (parseLexemes sheet.lexemes sheet.limit).mapError (·.toError source) := by
    simp only [parseSpanned, h, bind, Except.bind]
    cases parseLexemes sheet.lexemes sheet.limit <;> rfl
  have hrun := run_sameEnd sheet
  rw [hparsed]
  unfold outcome parseLexemes
  generalize run sheet = x at hrun ⊢
  generalize Parser.wholeText _ _ = y at hrun ⊢
  cases hrun with
  | ok _ => rfl
  | @error fault span r rest hspan =>
    show Except.error (ParseError.locate source fault span) = .error (Stop.toError ⟨fault, rest⟩ source)
    rw [hspan, Sheet.spanOf, hstop]
    rfl

end Traced

/-- A text that is cut into tokens is parsed as it is read with a cursor over these tokens, and what is written
down from the start to the end of this is sound.  Fewer lexemes are read than there are tokens. -/
theorem tokenize_traced {source : String} {tokens : List Lexeme} (h : tokenize source = .ok tokens) (limit : Nat) :
    ∃ sheet : Sheet, sheet.tokens = tokens ∧ sheet.limit = limit ∧
      Traced.outcome source sheet = parseSpanned source limit ∧
      (Traced.recording sheet).Sound sheet limit ∧
      (Traced.recording sheet).trace.head? = some ⟨.call .text
        (if (parseSpanned source limit).isOk then .found else .failed), .start, (Traced.recording sheet).cursor⟩ ∧
      (Traced.recording sheet).reads.length < tokens.length := by
  obtain ⟨lexemes, hscan, rfl⟩ := exists_scan_of_tokenize h
  let sheet : Sheet := ⟨lexemes, endOfText source, limit, fun l hl => (scan_legal hscan l hl).ne_eof⟩
  have hsound := Traced.recording_sound sheet
  have houtcome : Traced.outcome source sheet = parseSpanned source limit := Traced.outcome_eq hscan rfl
  refine ⟨sheet, rfl, rfl, houtcome, hsound, houtcome ▸ Traced.recording_last source sheet, ?_⟩
  rw [hsound.reads, List.length_range, List.length_append]
  exact Nat.lt_succ_of_le hsound.inRange.pos

/-- A list with items left out is read on the last level there is, and a sign after it goes too deep. -/
theorem tokenize_traced_deep :
    let source := "SELECT (1,,) + - - a"
    let tokens : List Lexeme := [⟨.keyword .select "SELECT", ⟨0, 6⟩⟩, ⟨.symbol .leftParen, ⟨7, 8⟩⟩,
      ⟨.integer "1", ⟨8, 9⟩⟩, ⟨.symbol .comma, ⟨9, 10⟩⟩, ⟨.symbol .comma, ⟨10, 11⟩⟩,
      ⟨.symbol .rightParen, ⟨11, 12⟩⟩, ⟨.symbol .plus, ⟨13, 14⟩⟩, ⟨.symbol .minus, ⟨15, 16⟩⟩,
      ⟨.symbol .minus, ⟨17, 18⟩⟩, ⟨.ident "a", ⟨19, 20⟩⟩, ⟨.eof, ⟨20, 20⟩⟩]
    tokenize source = .ok tokens ∧ ∃ sheet : Sheet, sheet.tokens = tokens ∧ sheet.limit = 3 ∧
      Traced.outcome source sheet = parseSpanned source 3 ∧ (Traced.recording sheet).Sound sheet 3 ∧
      (Traced.recording sheet).trace.head? = some ⟨.call .text
        (if (parseSpanned source 3).isOk then .found else .failed), .start, (Traced.recording sheet).cursor⟩ ∧
      (Traced.recording sheet).reads.length < tokens.length := by
  intro source tokens
  have h : tokenize source = .ok tokens := by cbv
  exact ⟨h, tokenize_traced h 3⟩

end LedgerQuery
