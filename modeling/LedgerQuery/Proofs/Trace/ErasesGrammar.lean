import LedgerQuery.Proofs.Trace.Erases
import LedgerQuery.Proofs.Trace.Grammar

/-!
# The grammar without the record

Every traced reader of the grammar erases to the plain one of its name, if the readers one nesting level deeper
do (`Traced.nested_erases`).  Where the two are not put together alike, there is a reason why they still do
the same.

* The first item of a list is not left out, since a list is told by its first literal (`Place.opensList`).
* Which of `CLOSE` and `CLEAR` is tried first makes no difference to the set of what was tried.
* At the end of the text, the span of what comes next is never used, since a target or a statement needs a
  lexeme.
-/

namespace LedgerQuery

/-! ## Lists -/

/-- A left parenthesis here is followed by a literal. -/
def Place.opensList : Place := fun sheet n =>
  sheet.tokenAt n = .symbol .leftParen → (sheet.tokenAt (n + 1)).isLiteral = true

namespace Parser

/-- A list of literals, the first of which may be left out as well, if there is another one. -/
def listOfItems : Parser Expr := do
  expect (.symbol .leftParen)
  let items ← commaList listItem
  expect (.symbol .rightParen)
  match items.reduceOption with
  | [] => missing .literal
  | found => return .constant (.list found)

/-- Before a literal it makes no difference whether the first one may be left out. -/
theorem literalList_eq {s : Input} (h : s.nth 0 = .symbol .leftParen) (h' : (s.nth 1).isLiteral = true) :
    literalList s = listOfItems s := by
  obtain ⟨l, rest, hs, hl⟩ := exists_cons_of_next (nth_zero s ▸ h) (by simp)
  rw [nth_one, hs] at h'
  rw [literalList_hit hs (hl ▸ rfl)]
  have hlist : listOfItems s = _ := bind_of_ok (expect_hit hs (hl ▸ rfl))
  rw [hlist]
  obtain ⟨v, hv⟩ : ∃ v, (nextOf rest).literal? = some v :=
    Option.isSome_iff_exists.mp (Token.isLiteral_eq _ ▸ h')
  cases v with
  | error f =>
    have hliteral : Parser.literal? ⟨rest, [], l.span⟩ = .error ⟨f, rest⟩ := literal?_refused hv
    have hitems : commaList listItem ⟨rest, [], l.span⟩ = .error ⟨f, rest⟩ :=
      bind_of_error (bind_of_error hliteral)
    rw [bind_of_error hitems]
    exact bind_of_error hliteral
  | ok a =>
    obtain ⟨m, rest', rfl, hm⟩ := exists_cons_of_next rfl fun heof => by rw [heof] at hv; cases hv
    have hliteral : Parser.literal? ⟨m :: rest', [], l.span⟩ = .ok (some a, ⟨rest', [], m.span⟩) :=
      literal?_hit rfl hv
    have hitem : listItem ⟨m :: rest', [], l.span⟩ = .ok (some a, ⟨rest', [], m.span⟩) := bind_of_ok hliteral
    rw [commaList, bind_assoc, bind_of_ok hitem, bind_assoc]
    exact bind_of_ok hliteral

end Parser

namespace Traced

/-- Whether the readers one nesting level deeper erase to plain ones, which read something. -/
structure Nested.Erases (sheet : Sheet) (levels : Nat) (G : Nested) (H : LedgerQuery.Nested) : Prop where
  /-- Expressions. -/
  expr : ∀ {W}, Traced.Erases sheet levels W G.expr H.expr
  /-- Operands of `NOT`. -/
  inversion : ∀ {W}, Traced.Erases sheet levels W G.inversion H.inversion
  /-- Operands of signs. -/
  factor : ∀ {W}, Traced.Erases sheet levels W G.factor H.factor
  /-- Queries. -/
  select : ∀ {W}, Traced.Erases sheet levels W G.select H.select
  /-- The plain ones leave an end of what they are given. -/
  tidy : H.Tidy
  /-- An expression is not empty. -/
  moves : Moves H.expr

namespace Erases

variable {sheet : Sheet} {levels : Nat} {W : Place}

/-! ## Values -/

theorem literal? : Erases sheet levels W Traced.literal? Parser.literal? := by
  refine callOption (peek fun t => ?_)
  cases t.literal? with
  | some v => exact (take v).map _
  | none => exact pure _

theorem name : Erases sheet levels W Traced.name Parser.name := by
  refine call (peek fun t => ?_)
  cases t.name? with
  | some n => exact take _
  | none => exact missing _

theorem date : Erases sheet levels W Traced.date Parser.date := by
  refine call (peek fun t => ?_)
  cases t with
  | date written => exact take _
  | _ => exact missing _

theorem stringValue : Erases sheet levels W Traced.stringValue Parser.stringValue := by
  refine peek fun t => ?_
  cases t with
  | string s => exact take _
  | _ => exact missing _

theorem count : Erases sheet levels W Traced.count Parser.count := by
  refine call (peek fun t => ?_)
  cases t with
  | integer digits => exact takeAfter _
  | _ => exact missing _

/-! ## Atoms -/

theorem listItem : Erases sheet levels W Traced.listItem Parser.listItem := by
  refine literal?.bind fun o => ?_
  cases o with
  | some a => exact pure _
  | none => exact (record _).bind fun _ => pure _

theorem literalList : Erases sheet levels (Place.opensList.sees 0 (.symbol .leftParen)) Traced.literalList
    Parser.literalList := by
  have hitems : Erases sheet levels .anywhere Traced.literalList Parser.listOfItems := by
    refine call ((expect _).bind fun _ => (separated listItem Tidy.listItem).bind fun items =>
      (expect _).bind fun _ => ?_)
    cases items.reduceOption with
    | nil => exact missing _
    | cons a as => exact pure _
  intro r s hr ⟨hopens, hparen⟩
  rw [Parser.literalList_eq ((hr.nth 0).trans hparen) (by rw [hr.nth]; exact hopens hparen)]
  exact hitems r s hr trivial

theorem literalAtom : Erases sheet levels W Traced.literalAtom Parser.literalAtom := by
  refine literal?.bind fun o => ?_
  cases o with
  | some a => exact pure _
  | none => exact missing _

theorem suffix? : Erases sheet levels W Traced.suffix? Parser.suffix? :=
  (acceptQuietly _).ite (name.bind fun _ => pure _) ((acceptQuietly _).ite
    (stringValue.bind fun _ => (expect _).bind fun _ => pure _) (pure _))

section
variable {p : Traced Expr} {q : Parser Expr} (hp : ∀ {W}, Erases sheet levels W p q)
include hp

theorem operation? (family : Symbol → Option BinaryOp) :
    Erases sheet levels W (Traced.operation? family p) (Parser.operation? family q) := by
  refine peek fun t => ?_
  cases t with
  | symbol s =>
    dsimp only
    cases family s with
    | some op => exact advance.bind fun _ => hp.bind fun _ => pure _
    | none => exact pure _
  | _ => exact pure _

theorem leftGrouped (loop : Loop) (family : Symbol → Option BinaryOp) :
    Erases sheet levels W (Traced.leftGrouped loop family p) (Parser.leftGrouped family q) :=
  hp.bind fun _ => (many (operation? hp family)).bind fun _ => pure _

theorem connected (loop : Loop) (op : BoolOp) :
    Erases sheet levels W (Traced.connected loop op p) (Parser.connected op q) := by
  refine hp.bind fun _ => (many (afterQuietly _ hp)).bind fun others => ?_
  cases others with
  | nil => exact pure _
  | cons e es => exact pure _

end

section
variable {G : Nested} {H : LedgerQuery.Nested} (h : G.Erases sheet levels H)
include h

theorem arguments : Erases sheet levels W (Traced.arguments G) (Parser.arguments H) :=
  (expect _).bind fun _ => (accept _).ite ((expect _).bind fun _ => pure _)
    ((accept _).ite (pure _) ((separated h.expr h.tidy.expr).bind fun _ => (expect _).bind fun _ => pure _))

theorem nameOrCall : Erases sheet levels W (Traced.nameOrCall G) (Parser.nameOrCall H) := by
  refine peekNth fun t => ?_
  cases hcall : t.is (.symbol .leftParen) with
  | true => exact call (name.bind fun _ => (arguments h).bind fun _ => pure _)
  | false => exact name.bind fun _ => pure _

theorem atom : Erases sheet levels .opensList (Traced.atom G) (Parser.atom H) := by
  refine call (peek fun t => ?_)
  split
  · exact h.select.bind fun _ => pure _
  · split
    · exact nameOrCall h
    · cases t with
      | placeholder pl => exact take _
      | symbol x =>
        cases x with
        | leftParen => exact literalList
        | _ => exact literalAtom
      | _ => exact literalAtom

theorem primary : Erases sheet levels .opensList (Traced.primary G) (Parser.primary H) :=
  call ((atom h).bind fun _ => (many suffix?).bind fun _ => pure _)

theorem factor : Erases sheet levels W (Traced.factor G) (Parser.factor H) := by
  refine call (peek fun t => ?_)
  have hprimary {t : Token} (ht : t ≠ .symbol .leftParen) :
      Erases sheet levels (W.sees 0 t) (Traced.primary G) (Parser.primary H) :=
    (primary h).weaken fun _ _ hw hp => absurd (hw.2.symm.trans hp) ht
  cases t with
  | symbol x =>
    cases x with
    | leftParen =>
      refine looking (V := fun b sheet n => b = true → (sheet.tokenAt (n + 1)).isLiteral = true) (fun r s hr => ?_)
        fun b => ?_
      · refine ⟨_, rfl, ?_, fun hb => (Bool.and_eq_true_iff.mp (Bool.and_eq_true_iff.mp hb).1).2⟩
        rw [← hr.nth, ← hr.nth, ← hr.nth]
        rfl
      · split
        · next hb => exact (primary h).weaken fun _ _ hw _ => hw hb
        · exact advance.bind fun _ => h.expr.bind fun _ => (expect _).bind fun _ => pure _
    | minus => exact advance.bind fun _ => h.factor.bind fun _ => pure _
    | plus => exact advance.bind fun _ => h.factor
    | _ => exact hprimary (by simp)
  | _ => exact hprimary (by simp)

theorem term : Erases sheet levels W (Traced.term G) (Parser.term H) := call (leftGrouped (factor h) _ _)

theorem sum : Erases sheet levels W (Traced.sum G) (Parser.sum H) := call (leftGrouped (term h) _ _)

/-! ## Comparisons -/

omit h in
theorem atComparison : Erases sheet levels W Traced.atComparison Parser.atComparison := by
  refine peek fun t => ?_
  cases t with
  | keyword k w =>
    cases k with
    | not => exact peekNth fun _ => pure _
    | _ => exact pure _
  | _ => exact pure _

omit h in
theorem nullTest : Erases sheet levels W Traced.nullTest Parser.nullTest :=
  (accept _).bind fun _ => (expect _).bind fun _ => pure _

omit h in
theorem comparison? : Erases sheet levels W Traced.comparison? Parser.comparison? := by
  refine callOption (peek fun t => ?_)
  cases t with
  | symbol s =>
    dsimp only
    cases BinaryOp.ofComparison? s with
    | some op => exact advance.bind fun _ => pure _
    | none => exact pure _
  | keyword k w =>
    cases k with
    | «in» => exact advance.bind fun _ => pure _
    | not =>
      refine peekNth fun t => ?_
      split
      · exact advance.bind fun _ => advance.bind fun _ => pure _
      · exact pure _
    | is => exact advance.bind fun _ => nullTest.bind fun _ => pure _
    | between => exact advance.bind fun _ => pure _
    | _ => exact pure _
  | _ => exact pure _

theorem compared (left : Expr) (c : Parser.Comparison) :
    Erases sheet levels W (Traced.compared G left c) (Parser.compared H left c) := by
  cases c with
  | binary op => exact (sum h).bind fun _ => pure _
  | null op => exact pure _
  | between => exact (sum h).bind fun _ => (expect _).bind fun _ => (sum h).bind fun _ => pure _

theorem comparison : Erases sheet levels W (Traced.comparison G) (Parser.comparison H) := by
  refine call ((sum h).bind fun left => comparison?.bind fun o => ?_)
  cases o with
  | none => exact pure _
  | some c =>
    refine (compared h _ _).bind fun e => atComparison.bind fun b => ?_
    split
    · exact fail _
    · exact pure _

/-! ## Truth values -/

theorem inversion : Erases sheet levels W (Traced.inversion G) (Parser.inversion H) :=
  call ((acceptQuietly _).ite (h.inversion.bind fun _ => pure _) (comparison h))

theorem conjunction : Erases sheet levels W (Traced.conjunction G) (Parser.conjunction H) :=
  call (connected (inversion h) _ _)

theorem disjunction : Erases sheet levels W (Traced.disjunction G) (Parser.disjunction H) :=
  call (connected (conjunction h) _ _)

/-! ## Clauses -/

theorem columnKey : Erases sheet levels W (Traced.columnKey G) (Parser.columnKey H) := by
  refine call (peek fun t => ?_)
  cases t with
  | integer digits =>
    refine peekNth fun t => ?_
    split
    · exact h.expr.bind fun _ => pure _
    · exact (takeAfter _).bind fun _ => pure _
  | _ => exact h.expr.bind fun _ => pure _

theorem target : Erases sheet levels W (Traced.target G) (Parser.target H) := by
  refine call (nextSpan (fun _ => h.expr.bind fun _ => (after _ name).bind fun _ => lastSpan.bind fun _ => pure _)
    fun s span span' hs => ?_)
  -- an expression is not empty, so it is missing here
  cases hexpr : H.expr s with
  | error stop => rw [Parser.bind_of_error hexpr, Parser.bind_of_error hexpr]
  | ok x =>
    have hlt := h.moves s x.1 x.2 hexpr
    rw [hs] at hlt
    exact absurd hlt (Nat.not_lt_zero _)

theorem targets : Erases sheet levels W (Traced.targets G) (Parser.targets H) :=
  (accept _).ite (pure _) ((call (commaList (target h))).bind fun _ => pure _)

omit h in
theorem openDate : Erases sheet levels W Traced.openDate Parser.openDate := call ((expect _).bind fun _ => date)

omit h in
theorem closing? : Erases sheet levels W Traced.closing? (Parser.after (.keyword .close) Parser.closing) :=
  callOption (after _ ((accept _).ite (date.bind fun _ => pure _) (pure _)))

theorem entryFilter : Erases sheet levels W (Traced.entryFilter G) (Parser.entryFilter H) := by
  have hend (e : Option Expr) (openOn : Option Date) (close : Option Closing) : Erases sheet levels .anywhere
      (do return (⟨e, openOn, close, ← Traced.accept (.keyword .clear)⟩ : EntryFilter))
      (do return ⟨e, openOn, close, ← Parser.accept (.keyword .clear)⟩) := (accept _).bind fun _ => pure _
  exact call ((accept _).ite (openDate.bind fun _ => closing?.bind fun _ => hend _ _ _)
    (swap (G := fun close => do return ⟨none, none, close, ← Parser.accept (.keyword .clear)⟩) closing? (hend _ _)
      (pure _) (h.expr.bind fun _ => (after _ openDate).bind fun _ => closing?.bind fun _ => hend _ _ _)))

theorem source : Erases sheet levels W (Traced.source G) (Parser.source H) := by
  refine call (peek fun t => ?_)
  cases t with
  | table name => exact take _
  | _ =>
    refine (peek fun _ => peekNth fun _ => pure _ : Erases sheet levels _ Traced.atQuery Parser.atQuery).bind
      fun b => ?_
    split
    · exact advance.bind fun _ => h.select.bind fun _ => (expect _).bind fun _ => pure _
    · exact (record _).bind fun _ => (entryFilter h).bind fun _ => pure _

theorem groupBy : Erases sheet levels W (Traced.groupBy G) (Parser.groupBy H) :=
  (expect _).bind fun _ => call ((commaList (columnKey h)).bind fun _ => (after _ h.expr).bind fun _ => pure _)

omit h in
theorem sortDirection : Erases sheet levels W Traced.sortDirection Parser.sortDirection :=
  (accept _).ite (pure _) ((accept _).bind fun _ => pure _)

theorem sortKey : Erases sheet levels W (Traced.sortKey G) (Parser.sortKey H) :=
  (columnKey h).bind fun _ => sortDirection.bind fun _ => pure _

theorem orderBy : Erases sheet levels W (Traced.orderBy G) (Parser.orderBy H) :=
  (expect _).bind fun _ => call (separated (sortKey h) (Tidy.sortKey h.tidy))

omit h in
theorem pivotKey : Erases sheet levels W Traced.pivotKey Parser.pivotKey := by
  refine call (peek fun t => ?_)
  cases t with
  | integer digits => exact (takeAfter _).bind fun _ => pure _
  | _ => exact (record _).bind fun _ => name.bind fun _ => pure _

omit h in
theorem pivotBy : Erases sheet levels W Traced.pivotBy Parser.pivotBy := by
  refine (expect _).bind fun _ => call (pivotKey.bind fun _ => peek fun t => ?_)
  split
  · refine advance.bind fun _ => pivotKey.bind fun _ => peek fun t => ?_
    split
    · exact fail _
    · exact pure _
  · exact fail _

theorem selectQuery : Erases sheet levels W (Traced.selectQuery G) (Parser.selectQuery H) :=
  (expect _).bind fun _ => (accept _).bind fun _ => (targets h).bind fun _ => (after _ (source h)).bind fun _ =>
    (after _ h.expr).bind fun _ => (after _ (groupBy h)).bind fun _ => (after _ (orderBy h)).bind fun _ =>
    (after _ pivotBy).bind fun _ => (after _ count).bind fun _ => pure _

/-! ## Statements -/

omit h in
theorem summary : Erases sheet levels W Traced.summary Parser.summary := callOption (after _ name)

theorem shorthandSource :
    Erases sheet levels W (Traced.shorthandSource G) (Parser.shorthandSource H) :=
  callOption (after _ (entryFilter h))

theorem balances : Erases sheet levels W (Traced.balances G) (Parser.balances H) :=
  call ((expect _).bind fun _ => summary.bind fun _ => (shorthandSource h).bind fun _ =>
    (after _ h.expr).bind fun _ => pure _)

omit h in
theorem accountPattern : Erases sheet levels W Traced.accountPattern Parser.accountPattern := by
  refine peek fun t => ?_
  cases t with
  | string s => exact take _
  | _ => exact (record _).bind fun _ => pure _

theorem journal : Erases sheet levels W (Traced.journal G) (Parser.journal H) :=
  call ((expect _).bind fun _ => accountPattern.bind fun _ => summary.bind fun _ =>
    (shorthandSource h).bind fun _ => pure _)

theorem print : Erases sheet levels W (Traced.print G) (Parser.print H) :=
  call ((expect _).bind fun _ => (shorthandSource h).bind fun _ => pure _)

theorem statement : Erases sheet levels W (Traced.statement G) (Parser.statement H) := by
  have hstarts {W : Place} : Erases sheet levels W
      (Parser.statementStarts.forM fun k => Traced.record (.terminal (.keyword k)))
      (Parser.statementStarts.forM fun k => Parser.record (.terminal (.keyword k))) :=
    (record _).bind fun _ => (record _).bind fun _ => (record _).bind fun _ => (record _).bind fun _ => pure _
  refine call (peek fun t => ?_)
  cases t with
  | keyword k w =>
    cases k with
    | select => exact h.select.bind fun _ => pure _
    | balances => exact (balances h).bind fun _ => pure _
    | journal => exact (journal h).bind fun _ => pure _
    | print => exact (print h).bind fun _ => pure _
    | _ => exact hstarts.bind fun _ => unexpected
  | _ => exact hstarts.bind fun _ => unexpected

omit h in
theorem endOfInput : Erases sheet levels W Traced.endOfInput Parser.endOfInput := by
  refine peek fun t => ?_
  cases t with
  | eof => exact pure _
  | _ => exact missing _

theorem wholeText : Erases sheet levels W (Traced.wholeText G) (Parser.wholeText H) := by
  refine call (nextSpan (fun _ => (statement h).bind fun _ => lastSpan.bind fun _ => endOfInput.bind fun _ => pure _)
    fun s span span' hs => ?_)
  -- no statement begins here
  obtain ⟨stop, hstop⟩ : ∃ stop, Parser.statement H s = .error stop := by
    unfold Parser.statement
    rw [Parser.peek_bind, hs]
    exact ⟨_, rfl⟩
  rw [Parser.bind_of_error hstop, Parser.bind_of_error hstop]

end

end Erases

/-- An expression one level deeper is not empty. -/
theorem nested_moves (limit levels : Nat) : Moves (Parser.nested limit levels).expr :=
  (nested_sees False limit levels (Nat.le_refl levels)).exprMoves

/-- With no level left, every reader of the next level refuses. -/
theorem Nested.Erases.zero (sheet : Sheet) (e i f : Traced Expr) (q : Traced Select) :
    (Nested.ofReaders e i f q).Erases sheet 0 (Parser.nested sheet.limit 0) where
  expr := .call (.deeper_zero e)
  inversion := .deeper_zero i
  factor := .deeper_zero f
  select := .call (.deeper_zero q)
  tidy := nested_tidy _ _
  moves := nested_moves _ _

/-- Traced readers erase to plain ones on every level. -/
theorem nested_erases (sheet : Sheet) : ∀ levels,
    (nested levels).Erases sheet levels (Parser.nested sheet.limit levels)
  | 0 => .zero sheet _ _ _ _
  | levels + 1 =>
    have h := nested_erases sheet levels
    { expr := .call (.deeper (Erases.disjunction h))
      inversion := .deeper (Erases.inversion h)
      factor := .deeper (Erases.factor h)
      select := .call (.deeper (Erases.selectQuery h))
      tidy := nested_tidy _ _
      moves := nested_moves _ _ }

end Traced

end LedgerQuery
