import LedgerQuery.Proofs.Limit.Curtailed
import LedgerQuery.Proofs.Reading.SoundSelect

/-!
# The grammar under two limits

Each reader of the grammar, with inner readers that a limit curtails, is curtailed itself.  Readers
without inner readers are never cut off.  The last section ties this together over the levels
that are left (`nested_curtails`).
-/

namespace LedgerQuery

open Token LedgerQuery.Parser

variable {α : Type} {limit levels k : Nat} {G H : Nested}

namespace Curtails

/-! ## Readers that go no deeper -/

theorem listItem : Curtails limit levels k Parser.listItem Parser.listItem := by
  refine bind literal? fun o => ?_
  cases o with
  | none => exact bind (record _) fun _ => pure none
  | some value => exact pure (some value)

theorem literalList : Curtails limit levels k Parser.literalList Parser.literalList := by
  refine expect_bind (bind literal? fun o => ?_)
  cases o with
  | none => exact missing .literal
  | some first => exact bind (many (after listItem)) fun _ => bind (expect _) fun _ => pure _

theorem suffix? : Curtails limit levels k Parser.suffix? Parser.suffix? := by
  refine acceptQuietly_bind (bind name fun _ => pure _) (acceptQuietly_bind ?_ (pure none))
  exact bind stringValue fun _ => bind (expect _) fun _ => pure _

theorem atList : Curtails limit levels k Parser.atList Parser.atList :=
  bind peek fun _ => bind (peekNth 1) fun _ => bind (peekNth 2) fun _ => pure _

theorem nullTest : Curtails limit levels k Parser.nullTest Parser.nullTest :=
  bind (accept _) fun _ => bind (expect _) fun _ => pure _

theorem comparison? : Curtails limit levels k Parser.comparison? Parser.comparison? := by
  refine bind peek fun t => ?_
  split
  · split
    · exact bind advance fun _ => pure _
    · exact pure none
  · exact bind advance fun _ => pure _
  · refine bind (peekNth 1) fun _ => ?_
    split
    · exact bind advance fun _ => bind advance fun _ => pure _
    · exact pure none
  · exact bind advance fun _ => bind nullTest fun _ => pure _
  · exact bind advance fun _ => pure _
  · exact pure none

theorem atComparison : Curtails limit levels k Parser.atComparison Parser.atComparison := by
  refine bind peek fun t => ?_
  split <;> first | exact pure _ | exact bind (peekNth 1) fun _ => pure _

theorem openDate : Curtails limit levels k Parser.openDate Parser.openDate :=
  bind (expect _) fun _ => date

theorem closing : Curtails limit levels k Parser.closing Parser.closing :=
  accept_bind (bind date fun _ => pure _) (pure _)

theorem atQuery : Curtails limit levels k Parser.atQuery Parser.atQuery :=
  bind peek fun _ => bind (peekNth 1) fun _ => pure _

theorem sortDirection : Curtails limit levels k Parser.sortDirection Parser.sortDirection :=
  accept_bind (pure _) (bind (accept _) fun _ => pure _)

theorem pivotKey : Curtails limit levels k Parser.pivotKey Parser.pivotKey := by
  refine bind peek fun t => ?_
  split
  · exact bind (takeCount _) fun _ => pure _
  · exact bind (record _) fun _ => bind name fun _ => pure _

theorem pivotBy : Curtails limit levels k Parser.pivotBy Parser.pivotBy := by
  refine bind (expect _) fun _ => bind pivotKey fun _ => bind peek fun _ => ?_
  split
  · refine bind advance fun _ => bind pivotKey fun _ => bind peek fun _ => ?_
    split
    · exact fail fun ⟨_, h⟩ => by cases h
    · exact pure _
  · exact fail fun ⟨_, h⟩ => by cases h

theorem summary : Curtails limit levels k Parser.summary Parser.summary := after name

theorem accountPattern : Curtails limit levels k Parser.accountPattern Parser.accountPattern := by
  refine bind peek fun t => ?_
  split
  · exact take_ok _
  · exact bind (record _) fun _ => pure none

theorem endOfInput : Curtails limit levels k Parser.endOfInput Parser.endOfInput := by
  refine bind peek fun t => ?_
  split
  · exact pure ()
  · exact missing _

/-! ## Operands and operators -/

section
variable {p q : Parser Expr}

theorem operation? {family : Symbol → Option BinaryOp} (hp : Curtails limit levels k p q) :
    Curtails limit levels k (Parser.operation? family p) (Parser.operation? family q) := by
  refine bind peek fun t => ?_
  split
  · split
    · exact bind advance fun _ => bind hp fun _ => pure _
    · exact pure none
  · exact pure none

theorem leftGrouped {family : Symbol → Option BinaryOp} (hp : Curtails limit levels k p q) :
    Curtails limit levels k (Parser.leftGrouped family p) (Parser.leftGrouped family q) :=
  bind hp fun _ => bind (many (operation? hp)) fun _ => pure _

theorem connected {op : BoolOp} (hp : Curtails limit levels k p q) :
    Curtails limit levels k (Parser.connected op p) (Parser.connected op q) := by
  refine bind hp fun _ => bind (many (afterQuietly (hp.mono (by omega)))) fun others => ?_
  cases others with
  | nil => exact pure _
  | cons e es => exact pure _

end

/-! ## Expressions -/

section
variable (h : G.Curtails limit levels H)
include h

theorem arguments : Curtails limit levels k (Parser.arguments G) (Parser.arguments H) := by
  have hexpr : Curtails limit levels (k + 2) G.expr H.expr := h.expr.mono (by omega)
  refine expect_bind (accept_bind (bind (expect _) fun _ => pure _) (accept_bind (pure _) ?_))
  exact bind (commaList hexpr) fun _ => bind (expect _) fun _ => pure _

theorem nameOrCall : Curtails limit levels k (Parser.nameOrCall G) (Parser.nameOrCall H) := by
  refine bind (peekNth 1) fun _ => bind name fun _ => ?_
  split
  · exact bind (arguments h) fun _ => pure _
  · exact pure _

theorem atom : Curtails limit levels k (Parser.atom G) (Parser.atom H) := by
  refine fun s => .peek_bind ?_
  split
  · next hselect =>
    have hquery : CurtailsAt limit levels k s G.select H.select :=
      (h.select s hselect).mono (by omega)
    exact hquery.bind fun _ s' _ => pure _ s'
  · split
    · exact nameOrCall h s
    · split
      · exact take_ok _ s
      · exact literalList s
      · refine literal?.bind (fun o => ?_) s
        cases o with
        | none => exact missing _
        | some value => exact pure _

theorem primary : Curtails limit levels k (Parser.primary G) (Parser.primary H) :=
  bind (atom h) fun _ => bind (many suffix?) fun _ => pure _

theorem factor : Curtails limit levels k (Parser.factor G) (Parser.factor H) := by
  have hexpr : Curtails limit levels (k + 2) G.expr H.expr := h.expr.mono (by omega)
  have hfactor : Curtails limit levels (k + 2) G.factor H.factor := h.factor.mono (by omega)
  refine fun s => .peek_bind ?_
  cases ht : nextOf s.rest with
  | symbol x =>
    have hs : nextOf s.rest ≠ .eof := by simp [ht]
    cases x with
    | leftParen =>
      refine (atList s).bind fun b s' hb => ?_
      split
      · exact primary h s'
      · obtain ⟨rfl, -⟩ := Finds.listAhead_of_atList hb
        exact .advance_bind hs fun _ _ _ => bind hexpr (fun _ => bind (expect _) fun _ => pure _) _
    | minus => exact .advance_bind hs fun _ _ _ => bind hfactor (fun _ => pure _) _
    | plus => exact .advance_bind hs fun _ _ _ => hfactor _
    | _ => exact primary h s
  | _ => exact primary h s

theorem sum : Curtails limit levels k (Parser.sum G) (Parser.sum H) :=
  leftGrouped (leftGrouped (factor h))

theorem compared (left : Expr) (c : Comparison) :
    Curtails limit levels k (Parser.compared G left c) (Parser.compared H left c) := by
  cases c with
  | binary op => exact bind (sum h) fun _ => pure _
  | null op => exact pure _
  | between => exact bind (sum h) fun _ => bind (expect _) fun _ => bind (sum h) fun _ => pure _

theorem comparison : Curtails limit levels k (Parser.comparison G) (Parser.comparison H) := by
  refine bind (sum h) fun left => bind comparison? fun o => ?_
  cases o with
  | none => exact pure _
  | some c =>
    refine bind (compared h left c) fun _ => bind atComparison fun _ => ?_
    split
    · exact fail fun ⟨_, h⟩ => by cases h
    · exact pure _

theorem inversion : Curtails limit levels k (Parser.inversion G) (Parser.inversion H) :=
  acceptQuietly_bind (bind (h.inversion.mono (by omega)) fun _ => pure _) (comparison h)

theorem disjunction : Curtails limit levels k (Parser.disjunction G) (Parser.disjunction H) :=
  connected (connected (inversion h))

/-! ## Clauses -/

theorem columnKey : Curtails limit levels (k + 1) (Parser.columnKey G) (Parser.columnKey H) := by
  have hexpr : Curtails limit levels (k + 1) (do return ColumnKey.expr (← G.expr))
      (do return ColumnKey.expr (← H.expr)) := bind (h.expr.mono (by omega)) fun e => pure (ColumnKey.expr e)
  refine bind peek fun t => ?_
  split
  · refine bind (peekNth 1) fun _ => ?_
    split
    · exact hexpr
    · exact bind (takeCount _) fun _ => pure _
  · exact hexpr

theorem target : Curtails limit levels (k + 1) (Parser.target G) (Parser.target H) :=
  bind nextSpan fun _ => bind (h.expr.mono (by omega)) fun _ => bind (after name) fun _ =>
    bind lastSpan fun _ => pure _

theorem targets : Curtails limit levels (k + 1) (Parser.targets G) (Parser.targets H) :=
  accept_bind (pure _) (bind (commaList (target h)) fun _ => pure _)

theorem entryFilter : Curtails limit levels (k + 1) (Parser.entryFilter G) (Parser.entryFilter H) := by
  refine accept_bind ?_ (accept_bind ?_ (accept_bind (pure _) ?_))
  · exact bind openDate fun _ => bind (after closing) fun _ => bind (accept _) fun _ => pure _
  · exact bind closing fun _ => bind (accept _) fun _ => pure _
  · exact bind (h.expr.mono (by omega)) fun _ => bind (after openDate) fun _ =>
      bind (after closing) fun _ => bind (accept _) fun _ => pure _

theorem source : Curtails limit levels (k + 1) (Parser.source G) (Parser.source H) := by
  refine bind peek fun t => ?_
  split
  · exact take_ok _
  · intro s
    refine (atQuery s).bind fun b s' hb => ?_
    obtain ⟨rfl, hquery⟩ := Finds.atQuery_eq_ok hb
    cases b with
    | true =>
      obtain ⟨l, m, v, hs, hl, hm⟩ := hquery.mp rfl
      refine .advance_bind (fun he => ?_) fun l' rest hs' => ?_
      · rw [hs] at he
        rw [show l.token = .eof from he] at hl
        cases hl
      · obtain ⟨rfl, rfl⟩ := List.cons.inj (hs.symm.trans hs')
        have hselect := h.select ⟨m :: v, [], l.span⟩ hm
        refine (hselect.mono (by omega)).bind fun _ s₁ _ => ?_
        exact bind (expect _) (fun _ => pure _) s₁
    | false => exact bind (record _) (fun _ => bind (entryFilter h) fun _ => pure _) s

theorem groupBy : Curtails limit levels k (Parser.groupBy G) (Parser.groupBy H) :=
  expect_bind (bind (commaList (columnKey h)) fun _ =>
    bind (after (h.expr.mono (by omega))) fun _ => pure _)

theorem sortKey : Curtails limit levels (k + 1) (Parser.sortKey G) (Parser.sortKey H) :=
  bind (columnKey h) fun _ => bind sortDirection fun _ => pure _

theorem orderBy : Curtails limit levels k (Parser.orderBy G) (Parser.orderBy H) :=
  expect_bind (commaList (sortKey h))

/-- A query spends a level, and reads `SELECT` before it goes deeper. -/
theorem selectQuery :
    Curtails limit (levels + 1) 0 (Parser.selectQuery G) (Parser.selectQuery H) := by
  refine expect_bind (@mono _ _ levels 1 _ _ _ _ ?_ (by omega))
  exact bind (accept _) fun _ => bind (targets h) fun _ => bind (after (source h)) fun _ =>
    bind (after (h.expr.mono (by omega))) fun _ => bind (after (groupBy h)) fun _ =>
      bind (after (orderBy h)) fun _ => bind (after pivotBy) fun _ => bind (after count) fun _ => pure _

/-! ## Statements -/

theorem shorthandSource : Curtails limit levels k (Parser.shorthandSource G)
    (Parser.shorthandSource H) := after (entryFilter h)

theorem balances : Curtails limit levels k (Parser.balances G) (Parser.balances H) :=
  expect_bind (bind summary fun _ => bind (shorthandSource h) fun _ =>
    bind (after (h.expr.mono (by omega))) fun _ => pure _)

theorem journal : Curtails limit levels k (Parser.journal G) (Parser.journal H) :=
  expect_bind (bind accountPattern fun _ => bind summary fun _ => bind (shorthandSource h) fun _ => pure _)

theorem print : Curtails limit levels k (Parser.print G) (Parser.print H) :=
  expect_bind (bind (shorthandSource h) fun _ => pure _)

theorem statement : Curtails limit levels 0 (Parser.statement G) (Parser.statement H) := by
  refine fun s => .peek_bind ?_
  split
  · next ht =>
    exact (h.select s (by rw [ht]; rfl)).bind fun _ s' _ => pure _ s'
  · exact bind (balances h) (fun _ => pure _) s
  · exact bind (journal h) (fun _ => pure _) s
  · exact bind (print h) (fun _ => pure _) s
  · exact bind (record _) (fun _ => bind (record _) fun _ => bind (record _) fun _ =>
      bind (record _) fun _ => unexpected) s

theorem wholeText : Curtails limit levels 0 (Parser.wholeText G) (Parser.wholeText H) :=
  bind nextSpan fun _ => bind (statement h) fun _ => bind lastSpan fun _ =>
    bind endOfInput fun _ => pure _

end

end Curtails

/-! ## Nesting -/

/-- Readers that may go no deeper are cut off at once. -/
theorem curtails_fail {q : Parser α} (limit k : Nat) :
    Curtails limit 0 (k + 1) (fail (.tooDeep limit)) q :=
  fun s => .inr ⟨⟨s.rest, rfl⟩, by omega⟩

/-- Readers under a limit are curtailed versions of those under a limit that is no less. -/
theorem nested_curtails {limit' : Nat} : ∀ {levels levels' : Nat}, levels ≤ levels' →
    (nested limit levels).Curtails limit levels (nested limit' levels')
  | 0, _, _ =>
    { expr := curtails_fail limit 0
      inversion := curtails_fail limit 0
      factor := curtails_fail limit 0
      select := fun s hs => .inr ⟨⟨s.rest, rfl⟩, by
        cases hr : s.rest with
        | nil => rw [hr] at hs; cases hs
        | cons l rest => simp⟩ }
  | levels + 1, levels' + 1, hle =>
    have h := nested_curtails (Nat.le_of_succ_le_succ hle)
    { expr := (Curtails.disjunction (k := 0) h).mono (by omega)
      inversion := (Curtails.inversion (k := 0) h).mono (by omega)
      factor := (Curtails.factor (k := 0) h).mono (by omega)
      select := fun s _ => Curtails.selectQuery h s }

end LedgerQuery
