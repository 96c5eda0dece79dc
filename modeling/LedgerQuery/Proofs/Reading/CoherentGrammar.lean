import LedgerQuery.Proofs.Lexing.Longest
import LedgerQuery.Proofs.Limit.Threshold
import LedgerQuery.Proofs.Reading.Coherent

/-!
# Errors fit the place they are at

Every reader of the grammar is coherent (`nested_coherent`), and so an error is at a token of its text and
its fault fits this token and those before it (`parse_error_coherent`).

Most readers only put others together.  Those that try an item have looked at the next token before, and know
that it is not of this kind.  A wrong number of keys of a pivot is the one fault about what was read, and it
needs the keyword `PIVOT`, which is read before (`Coherent.pivotBy`).
-/

namespace LedgerQuery

open Token LedgerQuery.Parser

variable {α : Type}

section
variable {limit : Nat} {before : List Token} {s : Input}

/-! ## Values -/

section
variable {rest : List Lexeme} {f : Fault} {text : String}

theorem integerOf_fits (ht : nextOf rest = .integer text) (h : integerOf text = .error f) :
    f.Fits limit before rest := by
  simp only [integerOf] at h
  split at h
  · cases h
  · obtain rfl := Except.error.inj h
    exact .invalidNumber (.inl ht)

theorem countOf_fits (ht : nextOf rest = .integer text) (h : countOf text = .error f) :
    f.Fits limit before rest := by
  simp only [countOf] at h
  split at h
  · cases h
  · obtain rfl := Except.error.inj h
    exact .invalidNumber (.inl ht)

theorem decimalOf_fits (ht : nextOf rest = .decimal text) (h : decimalOf text = .error f) :
    f.Fits limit before rest := by
  simp only [decimalOf] at h
  split at h
  · cases h
  · obtain rfl := Except.error.inj h
    exact .invalidNumber (.inr ht)

theorem dateOf_fits (ht : nextOf rest = .date text) (h : dateOf text = .error f) :
    f.Fits limit before rest := by
  simp only [dateOf] at h
  split at h
  · cases h
  · obtain rfl := Except.error.inj h
    exact .invalidDate ht

/-- A literal is refused at its token. -/
theorem literal?_fits {r : Except Fault Literal} (ht : (nextOf rest).literal? = some r)
    (h : r = .error f) : f.Fits limit before rest := by
  subst h
  unfold Token.literal? at ht
  split at ht
  · next hn => exact integerOf_fits hn (Except.map_eq_error (Option.some.inj ht))
  · next hn => exact decimalOf_fits hn (Except.map_eq_error (Option.some.inj ht))
  · next hn => exact dateOf_fits hn (Except.map_eq_error (Option.some.inj ht))
  all_goals cases ht

end

/-- No literal is found only where none is next. -/
theorem Parser.literal?_none {t : Input} (h : literal? s = .ok (none, t)) :
    t = s ∧ (nextOf s.rest).isLiteral = false := by
  unfold literal? at h
  rw [Parser.peek_bind] at h
  cases hl : (nextOf s.rest).literal? with
  | none =>
    rw [hl] at h
    obtain ⟨-, rfl⟩ := pure_eq_ok.mp h
    exact ⟨rfl, by rw [isLiteral_eq, hl]; rfl⟩
  | some r =>
    rw [hl] at h
    obtain ⟨_, _, ha⟩ := map_eq_ok.mp h
    cases ha

namespace Coherent

theorem literal? : Coherent limit Parser.literal? := by
  refine fun before s hs => .peek_bind ?_
  split
  · next r hr => exact .bind (take hs fun f hf => literal?_fits hr hf) fun _ _ _ _ ht _ => .pure _ ht
  · exact .pure _ hs

theorem name : Coherent limit Parser.name := by
  refine fun before s hs => .peek_bind ?_
  split
  · exact take_ok _ before s hs
  · next hn => exact .missing hs (by rw [Expected.matches, isName, hn]; rfl)

theorem date : Coherent limit Parser.date := by
  refine fun before s hs => .peek_bind ?_
  split
  · next hn => exact take hs fun f hf => dateOf_fits hn hf
  · next hn =>
    refine .missing hs ?_
    cases ht : nextOf s.rest <;> first | rfl | exact absurd ht (hn _)

theorem stringValue : Coherent limit Parser.stringValue := by
  refine fun before s hs => .peek_bind ?_
  split
  · exact take_ok _ before s hs
  · next hn =>
    refine .missing hs ?_
    cases ht : nextOf s.rest <;> first | rfl | exact absurd ht (hn _)

theorem count : Coherent limit Parser.count := by
  refine fun before s hs => .peek_bind ?_
  split
  · next hn => exact take hs fun f hf => countOf_fits hn hf
  · next hn =>
    refine .missing hs ?_
    cases ht : nextOf s.rest <;> first | rfl | exact absurd ht (hn _)

theorem listItem : Coherent limit Parser.listItem := by
  intro before s hs
  refine (literal? before s hs).bind fun o t u h ht _ => ?_
  cases o with
  | some a => exact .pure _ ht
  | none =>
    obtain ⟨rfl, hl⟩ := Parser.literal?_none h
    exact .record_bind (.pure _ (ht.record hl))

theorem literalList : Coherent limit Parser.literalList := by
  refine bind (expect _) fun _ before s hs => (literal? before s hs).bind fun o t u h ht _ => ?_
  cases o with
  | some a => exact bind (many (after _ listItem)) (fun _ => bind (expect _) fun _ => pure _) _ t ht
  | none =>
    obtain ⟨rfl, hl⟩ := Parser.literal?_none h
    exact .missing ht hl

theorem suffix? : Coherent limit Parser.suffix? := by
  refine bind (acceptQuietly _) fun b => ?_
  split
  · exact bind name fun _ => pure _
  · refine bind (acceptQuietly _) fun b => ?_
    split
    · exact bind stringValue fun _ => bind (expect _) fun _ => pure _
    · exact pure _

theorem atList : Coherent limit Parser.atList :=
  bind peek fun _ => bind (peekNth 1) fun _ => bind (peekNth 2) fun _ => pure _

theorem nullTest : Coherent limit Parser.nullTest :=
  bind (accept _) fun _ => bind (expect _) fun _ => pure _

theorem comparison? : Coherent limit Parser.comparison? := by
  refine bind peek fun t => ?_
  split
  · split
    · exact bind advance fun _ => pure _
    · exact pure _
  · exact bind advance fun _ => pure _
  · refine bind (peekNth 1) fun _ => ?_
    split
    · exact bind advance fun _ => bind advance fun _ => pure _
    · exact pure _
  · exact bind advance fun _ => bind nullTest fun _ => pure _
  · exact bind advance fun _ => pure _
  · exact pure _

theorem openDate : Coherent limit Parser.openDate := bind (expect _) fun _ => date

theorem closing : Coherent limit Parser.closing := by
  refine bind (accept _) fun b => ?_
  split
  · exact bind date fun _ => pure _
  · exact pure _

theorem atQuery : Coherent limit Parser.atQuery :=
  bind peek fun _ => bind (peekNth 1) fun _ => pure _

theorem sortDirection : Coherent limit Parser.sortDirection := by
  refine bind (accept _) fun b => ?_
  split
  · exact pure _
  · exact bind (accept _) fun _ => pure _

theorem accountPattern : Coherent limit Parser.accountPattern := by
  refine fun before s hs => .peek_bind ?_
  split
  · exact take_ok _ before s hs
  · next hn =>
    refine .record_bind (.pure _ (hs.record ?_))
    cases ht : nextOf s.rest <;> first | rfl | exact absurd ht (hn _)

theorem endOfInput : Coherent limit Parser.endOfInput := by
  refine fun before s hs => .peek_bind ?_
  split
  · exact .pure _ hs
  · next hn =>
    refine .missing hs ?_
    cases ht : nextOf s.rest <;> first | rfl | exact absurd ht hn

/-! ## Pivots -/

theorem pivotKey : Coherent limit Parser.pivotKey := by
  refine fun before s hs => .peek_bind ?_
  split
  · next hn => exact .bind (take hs fun f hf => countOf_fits hn hf) fun _ _ _ _ ht _ => .pure _ ht
  · next hn =>
    refine .record_bind (bind name (fun _ => pure _) _ _ (hs.record ?_))
    cases ht : nextOf s.rest <;> first | rfl | exact absurd ht (hn _)

end Coherent

/-- A key of a pivot is one token. -/
theorem Parser.pivotKey_eq_ok {t : Input} {k : PivotKey} (h : pivotKey s = .ok (k, t)) :
    ∃ l, s.rest = l :: t.rest ∧ l.token.isPivotKey = true := by
  obtain ⟨u, m, -, hu⟩ := (Finds.pivotKey invariant_true).exact trivial h
  simp only [Phrase.pivotKey, Phrase.oneOf_cons, Phrase.oneOf_nil, or_false] at hu
  rcases hu with ⟨v, _, n, rfl, hv, rfl, -⟩ | ⟨v, _, n, rfl, hv, rfl, -⟩
  · obtain ⟨l, digits, rfl, hl, -⟩ := Phrase.count_iff.mp hv
    exact ⟨l, by simpa using m.rest, by rw [hl]; rfl⟩
  · obtain ⟨l, rfl, hl⟩ := Phrase.name_iff.mp hv
    refine ⟨l, by simpa using m.rest, ?_⟩
    unfold isPivotKey
    split
    · rfl
    · rw [isName, hl]
      rfl

/-- A terminal is a keyword or a symbol. -/
theorem Token.eq_of_is {t : Token} {x : Terminal} (h : t.is x = true) :
    (∃ k w, x = .keyword k ∧ t = .keyword k w) ∨ ∃ y, x = .symbol y ∧ t = .symbol y := by
  cases t <;> cases x <;> simp_all [is, terminal?]

namespace Coherent

/-- What follows the keyword `PIVOT`.  The keys before it are needed for the fault of a wrong number of keys. -/
theorem pivotBy {l : Lexeme} (hl : l.token.is (.keyword .pivot) = true) (hs : s.Settled) :
    CoherentAt limit (before ++ [l.token]) s Parser.pivotBy := by
  obtain ⟨_, w, ⟨⟩, hl⟩ | ⟨_, ⟨⟩, -⟩ := eq_of_is hl
  refine (expect _ _ s hs).bind fun _ s₁ u₁ h₁ hs₁ hu₁ => ?_
  obtain ⟨m, rest, hr, hm, rfl⟩ := expect_eq_ok h₁
  obtain ⟨_, v, ⟨⟩, hm⟩ | ⟨_, ⟨⟩, -⟩ := eq_of_is hm
  obtain rfl : u₁ = [m] := List.append_cancel_right (hu₁.symm.trans hr)
  refine (pivotKey _ _ hs₁).bind fun row s₂ u₂ h₂ hs₂ hu₂ => .peek_bind ?_
  obtain ⟨k, hk, hkey⟩ := Parser.pivotKey_eq_ok h₂
  obtain rfl : u₂ = [k] := List.append_cancel_right (hu₂.symm.trans hk)
  split
  · next hc =>
    refine (advance _ s₂ hs₂).bind fun _ s₃ u₃ h₃ hs₃ hu₃ => ?_
    obtain ⟨rest₂, tried₂, last₂⟩ := s₂
    cases rest₂ with
    | nil => cases hc
    | cons c rest₂ =>
      cases h₃
      obtain ⟨_, _, ⟨⟩, -⟩ | ⟨_, ⟨⟩, hc⟩ := eq_of_is (show c.token.is (.symbol .comma) = true from hc)
      obtain rfl : u₃ = [c] := List.append_cancel_right hu₃.symm
      refine (pivotKey _ _ hs₃).bind fun column s₄ u₄ h₄ hs₄ hu₄ => .peek_bind ?_
      obtain ⟨k', hk', hkey'⟩ := Parser.pivotKey_eq_ok h₄
      obtain rfl : u₄ = [k'] := List.append_cancel_right (hu₄.symm.trans hk')
      split
      · exact .of_stops rfl (.pivotArity (by simpa [hl, hm, hc] using .second hkey hkey'))
      · exact .pure _ hs₄
  · exact .of_stops rfl (.pivotArity (by simpa [hl, hm] using .first hkey))

theorem pivot : Coherent limit (Parser.after (.keyword .pivot) Parser.pivotBy) := by
  refine fun before s hs => (accept _ before s hs).bind fun b t u h ht hu => ?_
  rcases accept_eq_ok h with ⟨rfl, l, rest, hr, hl, rfl⟩ | ⟨rfl, -⟩
  · obtain rfl : u = [l] := List.append_cancel_right (hu.symm.trans hr)
    exact (pivotBy hl ht).bind fun _ _ _ _ ht' _ => .pure _ ht'
  · exact .pure _ ht

/-! ## The grammar -/

section
variable {p : Parser Expr} (hp : Coherent limit p)
include hp

theorem operation? (family : Symbol → Option BinaryOp) : Coherent limit (Parser.operation? family p) := by
  refine bind peek fun t => ?_
  split
  · split
    · exact bind advance fun _ => bind hp fun _ => pure _
    · exact pure _
  · exact pure _

theorem leftGrouped (family : Symbol → Option BinaryOp) : Coherent limit (Parser.leftGrouped family p) :=
  bind hp fun _ => bind (many (operation? hp family)) fun _ => pure _

theorem connected (op : BoolOp) : Coherent limit (Parser.connected op p) := by
  refine bind hp fun _ => bind (many (afterQuietly _ hp)) fun es => ?_
  split <;> exact pure _

end

section
variable {G : Nested} (hG : G.Coherent limit)
include hG

theorem arguments : Coherent limit (Parser.arguments G) := by
  refine bind (expect _) fun _ => bind (accept _) fun b => ?_
  split
  · exact bind (expect _) fun _ => pure _
  · refine bind (accept _) fun b => ?_
    split
    · exact pure _
    · exact bind (commaList hG.expr) fun _ => bind (expect _) fun _ => pure _

theorem nameOrCall : Coherent limit (Parser.nameOrCall G) := by
  refine bind (peekNth 1) fun _ => bind name fun n => ?_
  split
  · exact bind (arguments hG) fun _ => pure _
  · exact pure _

/-- An expression is missing only where none of its first tokens is next. -/
theorem atom : Coherent limit (Parser.atom G) := by
  refine fun before s hs => .peek_bind ?_
  split
  · exact bind hG.select (fun _ => pure _) before s hs
  · next hselect =>
    split
    · exact nameOrCall hG before s hs
    · next hname =>
      split
      · exact take_ok _ before s hs
      · exact literalList before s hs
      · next hplaceholder hparen =>
        refine (literal? before s hs).bind fun o t u h ht _ => ?_
        cases o with
        | some a => exact .pure _ ht
        | none =>
          obtain ⟨rfl, hl⟩ := Parser.literal?_none h
          refine .missing ht ?_
          have hp : (nextOf t.rest).is (.symbol .leftParen) = false := by
            rw [← Bool.not_eq_true]
            intro hp
            obtain ⟨_, _, ⟨⟩, -⟩ | ⟨_, ⟨⟩, hp⟩ := eq_of_is hp
            exact hparen hp
          show (nextOf t.rest).opensAtom = false
          unfold opensAtom
          split
          · next q hq => exact absurd hq (hplaceholder q)
          · simp only [hp, hl, hselect, hname, Bool.or_self]

theorem primary : Coherent limit (Parser.primary G) :=
  bind (atom hG) fun _ => bind (many suffix?) fun _ => pure _

theorem factor : Coherent limit (Parser.factor G) := by
  refine bind peek fun t => ?_
  split
  · refine bind atList fun b => ?_
    split
    · exact primary hG
    · exact bind advance fun _ => bind hG.expr fun _ => bind (expect _) fun _ => pure _
  · exact bind advance fun _ => bind hG.factor fun _ => pure _
  · exact bind advance fun _ => hG.factor
  · exact primary hG

theorem sum : Coherent limit (Parser.sum G) := leftGrouped (leftGrouped (factor hG) _) _

theorem compared (left : Expr) (c : Comparison) : Coherent limit (Parser.compared G left c) := by
  cases c with
  | binary op => exact bind (sum hG) fun _ => pure _
  | null op => exact pure _
  | between => exact bind (sum hG) fun _ => bind (expect _) fun _ => bind (sum hG) fun _ => pure _

/-- A comparison is chained only where another one begins. -/
theorem comparison : Coherent limit (Parser.comparison G) := by
  refine bind (sum hG) fun left => bind comparison? fun o => ?_
  split
  · exact pure _
  · refine bind (compared hG left _) fun e before s hs => ?_
    refine (CoherentAt.of_stays (atComparison_eq s) hs).bind fun b t u h ht _ => ?_
    obtain ⟨rfl, rfl⟩ := Prod.mk.inj (Except.ok.inj ((atComparison_eq s).symm.trans h))
    split
    · next hc => exact .of_stops rfl (.chainedComparison hc)
    · exact .pure _ ht

theorem inversion : Coherent limit (Parser.inversion G) := by
  refine bind (acceptQuietly _) fun b => ?_
  split
  · exact bind hG.inversion fun _ => pure _
  · exact comparison hG

theorem disjunction : Coherent limit (Parser.disjunction G) := connected (connected (inversion hG) _) _

/-! ## Clauses -/

theorem columnKey : Coherent limit (Parser.columnKey G) := by
  refine fun before s hs => .peek_bind ?_
  split
  · next hn =>
    refine (peekNth 1 before s hs).bind fun t s₁ u h hs₁ _ => ?_
    cases h
    split
    · exact bind hG.expr (fun _ => pure _) _ s hs
    · exact (take hs fun f hf => countOf_fits hn hf).bind fun _ _ _ _ ht _ => .pure _ ht
  · exact bind hG.expr (fun _ => pure _) before s hs

theorem target : Coherent limit (Parser.target G) :=
  bind nextSpan fun _ => bind hG.expr fun _ => bind (after _ name) fun _ => bind lastSpan fun _ => pure _

theorem targets : Coherent limit (Parser.targets G) := by
  refine bind (accept _) fun b => ?_
  split
  · exact pure _
  · exact bind (commaList (target hG)) fun _ => pure _

theorem entryFilter : Coherent limit (Parser.entryFilter G) := by
  refine bind (accept _) fun b => ?_
  split
  · exact bind openDate fun _ => bind (after _ closing) fun _ => bind (accept _) fun _ => pure _
  · refine bind (accept _) fun b => ?_
    split
    · exact bind closing fun _ => bind (accept _) fun _ => pure _
    · refine bind (accept _) fun b => ?_
      split
      · exact pure _
      · exact bind hG.expr fun _ => bind (after _ openDate) fun _ => bind (after _ closing) fun _ =>
          bind (accept _) fun _ => pure _

theorem source : Coherent limit (Parser.source G) := by
  refine fun before s hs => .peek_bind ?_
  split
  · exact take_ok _ before s hs
  · next hn =>
    refine (atQuery before s hs).bind fun b t u h ht _ => ?_
    cases h
    split
    · exact bind advance (fun _ => bind hG.select fun _ => bind (expect _) fun _ => pure _) _ s hs
    · refine .record_bind (bind (entryFilter hG) (fun _ => pure _) _ _ (hs.record ?_))
      cases ht : nextOf s.rest <;> first | rfl | exact absurd ht (hn _)

theorem groupBy : Coherent limit (Parser.groupBy G) :=
  bind (expect _) fun _ => bind (commaList (columnKey hG)) fun _ => bind (after _ hG.expr) fun _ => pure _

theorem sortKey : Coherent limit (Parser.sortKey G) :=
  bind (columnKey hG) fun _ => bind sortDirection fun _ => pure _

theorem orderBy : Coherent limit (Parser.orderBy G) :=
  bind (expect _) fun _ => commaList (sortKey hG)

theorem selectQuery : Coherent limit (Parser.selectQuery G) :=
  bind (expect _) fun _ => bind (accept _) fun _ => bind (targets hG) fun _ =>
    bind (after _ (source hG)) fun _ => bind (after _ hG.expr) fun _ => bind (after _ (groupBy hG)) fun _ =>
    bind (after _ (orderBy hG)) fun _ => bind pivot fun _ => bind (after _ count) fun _ => pure _

/-! ## Statements -/

theorem shorthandSource : Coherent limit (Parser.shorthandSource G) := after _ (entryFilter hG)

/-- No statement begins with a token that none of its first keywords is. -/
theorem statement : Coherent limit (Parser.statement G) := by
  refine fun before s hs => .peek_bind ?_
  split
  · exact bind hG.select (fun _ => pure _) before s hs
  · exact bind (bind (expect _) fun _ => bind (after _ name) fun _ => bind (shorthandSource hG) fun _ =>
      bind (after _ hG.expr) fun _ => pure _) (fun _ => pure _) before s hs
  · exact bind (bind (expect _) fun _ => bind accountPattern fun _ => bind (after _ name) fun _ =>
      bind (shorthandSource hG) fun _ => pure _) (fun _ => pure _) before s hs
  · exact bind (bind (expect _) fun _ => bind (shorthandSource hG) fun _ => pure _) (fun _ => pure _) before s hs
  · next h₁ h₂ h₃ h₄ =>
    have hmiss : ∀ k, (∀ w, nextOf s.rest ≠ .keyword k w) →
        (Expected.terminal (.keyword k)).matches (nextOf s.rest) = false := fun k hk => by
      rw [Expected.matches, ← Bool.not_eq_true]
      intro ht
      obtain ⟨_, w, ⟨⟩, ht⟩ | ⟨_, ⟨⟩, -⟩ := eq_of_is ht
      exact hk w ht
    refine .keywords hs (.inr (List.cons_ne_nil _ _)) ?_
    simp only [statementStarts, List.forall_mem_cons]
    exact ⟨hmiss _ h₁, hmiss _ h₂, hmiss _ h₃, hmiss _ h₄, List.forall_mem_nil _⟩

theorem wholeText : Coherent limit (Parser.wholeText G) :=
  bind nextSpan fun _ => bind (statement hG) fun _ => bind lastSpan fun _ => bind endOfInput fun _ => pure _

end

/-- A reader that may not go deeper stops with the limit. -/
theorem tooDeep : Coherent limit (Parser.fail (.tooDeep limit) : Parser α) :=
  fun _ _ _ => .of_stops rfl .tooDeep

end Coherent

/-- Readers under a limit are coherent. -/
theorem nested_coherent (limit : Nat) : ∀ levels, (nested limit levels).Coherent limit
  | 0 => ⟨.tooDeep, .tooDeep, .tooDeep, .tooDeep⟩
  | levels + 1 =>
    have h := nested_coherent limit levels
    ⟨Coherent.disjunction h, Coherent.inversion h, Coherent.factor h, Coherent.selectQuery h⟩

end

/-! ## Whole texts -/

/-- Whether a span lies in a text, between characters. -/
def Span.LiesIn (span : Span) (source : String) : Prop :=
  ∃ before covered after, source.toList = before ++ covered ++ after ∧
    span = ⟨byteLength before, byteLength (before ++ covered)⟩

section
variable {source : String} {limit : Nat} {lexemes tokens : List Lexeme} {l : Lexeme} {stop : Stop} {e : ParseError}

/-- A token stands in its text where its span says. -/
theorem exists_text_of_tokenize (h : tokenize source = .ok tokens) (hl : l ∈ tokens) : ∃ before after,
    source.toList = before ++ l.token.text.toList ++ after ∧
      l.span = ⟨byteLength before, byteLength (before ++ l.token.text.toList)⟩ := by
  obtain ⟨lexemes, hscan, rfl⟩ := exists_scan_of_tokenize h
  obtain ⟨ss, hjoin, -, rfl⟩ := scanFrom_eq_ok_iff.mp (scan_ok_iff.mp hscan)
  rw [← hjoin]
  rcases List.mem_append.mp hl with hl | hl
  · obtain ⟨before, after, hls⟩ := List.append_of_mem hl
    obtain ⟨qs, t, rs, rfl, -, rfl, -⟩ := exists_eq_of_lexemes hls
    exact ⟨Segment.join qs, Segment.join rs, by simp, by simp⟩
  · obtain rfl := List.mem_singleton.mp hl
    exact ⟨Segment.join ss, [], by simp [Token.text], by simp [Token.text, endOfText, hjoin]⟩

/-- A text that is scanned fails to parse where reading its lexemes stops. -/
theorem parse_eq_error_iff (hs : scan source = .ok lexemes) :
    parse source limit = .error e ↔ ∃ stop, parseLexemes lexemes limit = .error stop ∧ stop.toError source = e := by
  rw [parse, parseSpanned_eq hs]
  cases parseLexemes lexemes limit <;> simp [Except.map, Except.mapError]

/-- Reading stops at one of the lexemes or at their end, with a fault that fits. -/
theorem parseLexemes_coherent (h : parseLexemes lexemes limit = .error stop) :
    ∃ u, lexemes = u ++ stop.rest ∧ stop.fault.Fits limit (u.map Lexeme.token) stop.rest := by
  have hrun : wholeText (nested limit limit) (Input.start lexemes) = .error stop := by
    unfold parseLexemes at h
    cases hw : wholeText (nested limit limit) (Input.start lexemes) with
    | error stop' =>
      rw [hw] at h
      cases h
      rfl
    | ok r =>
      rw [hw] at h
      cases h
  have hstart : (Input.start lexemes).Settled := List.forall_mem_nil _
  exact (Coherent.wholeText (nested_coherent limit limit) [] _ hstart).error stop hrun

/-- The token a stop is at is that of its span. -/
theorem Stop.exists_eq_cons (stop : Stop) (source : String) : ∃ l after,
    stop.rest ++ [⟨.eof, endOfText source⟩] = l :: after ∧ (stop.toError source).span = l.span := by
  obtain ⟨fault, rest⟩ := stop
  cases rest with
  | nil => exact ⟨_, [], rfl, rfl⟩
  | cons l rest => exact ⟨l, _, rfl, rfl⟩

/-- An error is at a token of the text, and its fault fits this place. -/
theorem parse_error_coherent (h : tokenize source = .ok tokens) (he : parse source limit = .error e) :
    ∃ before l after, tokens = before ++ l :: after ∧ e.span = l.span ∧ e.span.LiesIn source ∧
      e.location = Location.ofOffset source.toList e.span.start ∧
      e.fault.Fits limit (before.map Lexeme.token) (l :: after) := by
  obtain ⟨lexemes, hscan, rfl⟩ := exists_scan_of_tokenize h
  obtain ⟨stop, hstop, rfl⟩ := (parse_eq_error_iff hscan).mp he
  obtain ⟨u, rfl, hfits⟩ := parseLexemes_coherent hstop
  obtain ⟨l, after, hl, hspan⟩ := stop.exists_eq_cons source
  have htokens : u ++ stop.rest ++ [⟨.eof, endOfText source⟩] = u ++ l :: after := by rw [List.append_assoc, hl]
  refine ⟨u, l, after, htokens, hspan, ?_, rfl, ?_⟩
  · rw [hspan]
    obtain ⟨x, y, hx, hl⟩ := exists_text_of_tokenize h (l := l) (by simp [htokens])
    exact ⟨x, _, y, hx, hl⟩
  · rw [← hl]
    exact hfits.append_eof _

/-- A pivot with one key, after a string of another length in bytes than in characters. -/
theorem parse_error_coherent_pivot :
    let source := "SELECT 'é' PIVOT BY 1 LIMIT 2"
    let tokens : List Lexeme := [⟨.keyword .select "SELECT", ⟨0, 6⟩⟩, ⟨.string ⟨"é", .single⟩, ⟨7, 11⟩⟩,
      ⟨.keyword .pivot "PIVOT", ⟨12, 17⟩⟩, ⟨.keyword .by "BY", ⟨18, 20⟩⟩, ⟨.integer "1", ⟨21, 22⟩⟩,
      ⟨.keyword .limit "LIMIT", ⟨23, 28⟩⟩, ⟨.integer "2", ⟨29, 30⟩⟩, ⟨.eof, ⟨30, 30⟩⟩]
    let e : ParseError := ⟨.pivotArity, ⟨23, 28⟩, ⟨1, 23, 23⟩⟩
    tokenize source = .ok tokens ∧ parse source 4 = .error e ∧
      ∃ before l after, tokens = before ++ l :: after ∧ e.span = l.span ∧ e.span.LiesIn source ∧
        e.location = Location.ofOffset source.toList e.span.start ∧
        e.fault.Fits 4 (before.map Lexeme.token) (l :: after) := by
  intro source tokens e
  have h : tokenize source = .ok tokens := by cbv
  have he : parse source 4 = .error e := by cbv
  exact ⟨h, he, parse_error_coherent h he⟩

end

end LedgerQuery
