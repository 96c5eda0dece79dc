import LedgerQuery.Proofs.Trace.Grammar
import LedgerQuery.Proofs.Trace.Sound

/-!
# The grammar leaves sound recordings

Every reader of the grammar keeps recordings sound, if the readers one nesting level deeper do, and reads
something before it finds anything.  The exceptions are those that may find nothing, which have then read
nothing, and an item of a list, which may be left out; around it there is a parenthesis or a comma.
-/

namespace LedgerQuery

namespace Traced

/-- Whether the readers one nesting level deeper keep recordings sound and read something. -/
structure Nested.Sound (levels : Nat) (G : Nested) : Prop where
  /-- Expressions. -/
  expr : ∀ {W}, Advances levels W G.expr
  /-- Operands of `NOT`. -/
  inversion : ∀ {W}, Advances levels W G.inversion
  /-- Operands of signs. -/
  factor : ∀ {W}, Advances levels W G.factor
  /-- Queries. -/
  select : ∀ {W}, Advances levels W G.select

namespace Goes

variable {levels : Nat} {W : Place}

/-! ## Values -/

theorem literal? : AdvancesIf Option.isSome levels W Traced.literal? := by
  refine callOption rfl (peek fun t => ?_) fun _ _ _ h => h
  split
  · next v hv => exact (take (.sees (by rintro rfl; cases hv)) v).aheadIf fun _ => pure fun _ => rfl
  · exact pure fun _ => rfl

theorem name : Advances levels W Traced.name := by
  refine call _ (peek fun t => ?_)
  split
  · next n hn => exact take (.sees (by rintro rfl; cases hn)) _
  · exact missing _

theorem date : Advances levels W Traced.date := by
  refine call _ (peek fun t => ?_)
  split
  · exact take (.sees (by simp)) _
  · exact missing _

theorem stringValue : Advances levels W Traced.stringValue := by
  refine peek fun t => ?_
  split
  · exact take (.sees (by simp)) _
  · exact missing _

theorem count : Advances levels W Traced.count := by
  refine call _ (peek fun t => ?_)
  split
  · exact takeAfter (.sees (by simp)) _
  · exact missing _

/-! ## Atoms -/

theorem listItem : Proceeds levels W Traced.listItem := by
  refine literal?.on.andThen fun o => ?_
  split
  · exact pureOn _
  · exact recordThen (pureOn _)

theorem literalList : Advances levels W Traced.literalList := by
  refine call _ ((expect _).ahead fun _ => (separatedOn listItem).andThen fun items =>
    (expect _).on.andThen fun _ => ?_)
  split
  · exact missing _
  · exact pureOn _

theorem literalAtom : Advances levels W Traced.literalAtom := by
  refine literal?.seq (S := fun o _ _ _ => o.isSome = true) (fun o => ?_) fun l o m _ n _ hle ho hn => ?_
  · split
    · exact pure fun _ => rfl
    · exact missing _
  · rw [if_pos hn] at ho
    exact Nat.lt_of_lt_of_le ho hle

theorem suffix? : AdvancesIf Option.isSome levels W Traced.suffix? :=
  (acceptQuietly _).iteIf (name.on.thenFinds fun _ => pure fun _ => rfl) ((acceptQuietly _).iteIf
    (stringValue.on.thenFinds fun _ => (expect _).on.thenFinds fun _ => pure fun _ => rfl) (pure fun _ => rfl))

section
variable {p : Traced Expr} (hp : ∀ {W}, Advances levels W p)
include hp

theorem operation? (family : Symbol → Option BinaryOp) :
    AdvancesIf Option.isSome levels W (Traced.operation? family p) := by
  refine peek fun t => ?_
  split
  · split
    · exact (advances (.sees (by simp))).aheadIf fun _ => hp.on.thenFinds fun _ => pure fun _ => rfl
    · exact pure fun _ => rfl
  · exact pure fun _ => rfl

theorem leftGrouped (loop : Loop) (family : Symbol → Option BinaryOp) :
    Advances levels W (Traced.leftGrouped loop family p) :=
  hp.ahead fun _ => (many (operation? hp family)).andThen fun _ => pureOn _

theorem connected (loop : Loop) (op : BoolOp) : Advances levels W (Traced.connected loop op p) := by
  refine hp.ahead fun _ => (many (afterQuietly _ hp.on)).andThen fun others => ?_
  split <;> exact pureOn _

end

section
variable {G : Nested} (h : G.Sound levels)
include h

theorem arguments : Advances levels W (Traced.arguments G) :=
  (expect _).ahead fun _ => (accept _).iteOn ((expect _).on.andThen fun _ => pureOn _)
    ((accept _).iteOn (pureOn _) ((separatedAhead h.expr).on.andThen fun _ =>
      (expect _).on.andThen fun _ => pureOn _))

theorem function : Advances levels W (Traced.function G) :=
  call _ (name.ahead fun _ => (arguments h).on.andThen fun _ => pureOn _)

theorem nameOrCall : Advances levels W (Traced.nameOrCall G) := by
  refine peekNth fun t => ?_
  split
  · exact function h
  · exact name.ahead fun _ => pureOn _

theorem atom : Advances levels W (Traced.atom G) := by
  refine call _ (peek fun t => ?_)
  split
  · exact h.select.ahead fun _ => pureOn _
  · split
    · exact nameOrCall h
    · split
      · exact take (.sees (by simp)) _
      · exact literalList
      · exact literalAtom

theorem primary : Advances levels W (Traced.primary G) :=
  call _ ((atom h).ahead fun _ => (many suffix?).andThen fun _ => pureOn _)

theorem factor : Advances levels W (Traced.factor G) := by
  refine call _ (peek fun t => ?_)
  split
  · refine looking (V := fun _ => W.sees 0 (.symbol .leftParen)) (fun _ _ hw => ⟨_, rfl, hw⟩) fun b => ?_
    split
    · exact primary h
    · exact (advances (.sees (by simp))).ahead fun _ => h.expr.on.andThen fun _ =>
        (expect _).on.andThen fun _ => pureOn _
  · exact (advances (.sees (by simp))).ahead fun _ => h.factor.on.andThen fun _ => pureOn _
  · exact (advances (.sees (by simp))).ahead fun _ => h.factor.on
  · exact primary h

theorem term : Advances levels W (Traced.term G) := call _ (leftGrouped (factor h) _ _)

theorem sum : Advances levels W (Traced.sum G) := call _ (leftGrouped (term h) _ _)

/-! ## Comparisons -/

omit h in
theorem nullTest : Proceeds levels W Traced.nullTest :=
  (accept _).on.andThen fun _ => (expect _).on.andThen fun _ => pureOn _

omit h in
theorem comparison? : AdvancesIf Option.isSome levels W Traced.comparison? := by
  have hone {W : Place} {t : Token} (ht : t ≠ .eof) (c : Parser.Comparison) :
      AdvancesIf Option.isSome levels (W.sees 0 t) (Traced.advance >>= fun _ => Pure.pure (some c)) :=
    (advances (.sees ht)).aheadIf fun _ => pure fun _ => rfl
  refine callOption rfl (peek fun t => ?_) fun _ _ _ h => h
  split
  · split
    · exact hone (by simp) _
    · exact pure fun _ => rfl
  · exact hone (by simp) _
  · refine peekNth fun t => ?_
    split
    · next hin =>
      refine (advance (.mono (.sees (by simp)) fun _ _ => And.left)).bind (S := fun _ _ o _ => o.isSome = true)
        (fun _ => (advances ?_).on.thenFinds fun _ => pure fun _ => rfl) fun l _ m o n _ hle hm ho => ?_
      · -- the second lexeme is the one that was seen before the first one was read
        rintro sheet n ⟨m, ⟨-, ht⟩, rfl⟩
        exact ht ▸ ne_eof_of_is hin
      · rw [if_pos ho]
        omega
    · exact pure fun _ => rfl
  · exact (advances (.sees (by simp))).aheadIf fun _ => nullTest.thenFinds fun _ => pure fun _ => rfl
  · exact hone (by simp) _
  · exact pure fun _ => rfl

omit h in
theorem atComparison_looks (sheet : Sheet) (r : Recording) (hw : W sheet r.cursor.pos) :
    ∃ b, Traced.atComparison sheet r = .ok b r ∧ W sheet r.cursor.pos := by
  unfold Traced.atComparison
  rw [Traced.bind_apply]
  show ∃ b, (match sheet.tokenAt r.cursor.pos with | _ => _ : Traced Bool) sheet r = _ ∧ _
  split <;> exact ⟨_, rfl, hw⟩

theorem compared (left : Expr) (c : Parser.Comparison) : Proceeds levels W (Traced.compared G left c) := by
  cases c with
  | binary op => exact (sum h).on.andThen fun _ => pureOn _
  | null op => exact pureOn _
  | between =>
    exact (sum h).on.andThen fun _ => (expect _).on.andThen fun _ => (sum h).on.andThen fun _ => pureOn _

theorem comparison : Advances levels W (Traced.comparison G) := by
  refine call _ ((sum h).ahead fun left => comparison?.on.andThen fun o => ?_)
  split
  · exact pureOn _
  · refine (compared h _ _).andThen fun e => looking atComparison_looks fun b => ?_
    split
    · exact fail _
    · exact pureOn _

/-! ## Truth values -/

theorem inversion : Advances levels W (Traced.inversion G) :=
  call _ ((acceptQuietly _).iteAhead (h.inversion.on.andThen fun _ => pureOn _) (comparison h))

theorem conjunction : Advances levels W (Traced.conjunction G) := call _ (connected (inversion h) _ _)

theorem disjunction : Advances levels W (Traced.disjunction G) := call _ (connected (conjunction h) _ _)

/-! ## Clauses -/

theorem columnKey : Advances levels W (Traced.columnKey G) := by
  refine call _ (peek fun t => ?_)
  split
  · refine peekNth fun t => ?_
    split
    · exact h.expr.ahead fun _ => pureOn _
    · exact (takeAfter (.mono (.sees (by simp)) fun _ _ => And.left) _).ahead fun _ => pureOn _
  · exact h.expr.ahead fun _ => pureOn _

theorem target : Advances levels W (Traced.target G) :=
  call _ (nextSpan fun _ => h.expr.ahead fun _ => (after _ name.on).on.andThen fun _ => lastSpan fun _ => pureOn _)

theorem targets : Advances levels W (Traced.targets G) :=
  (accept _).iteAhead (pureOn _) ((call _ (commaList (target h))).ahead fun _ => pureOn _)

omit h in
theorem openDate : Advances levels W Traced.openDate := call _ ((expect _).ahead fun _ => date.on)

omit h in
theorem closing? : AdvancesIf Option.isSome levels W Traced.closing? :=
  callOption rfl (after _ ((accept _).iteOn (date.on.andThen fun _ => pureOn _) (pureOn _))) fun _ _ _ h => h

omit h in
/-- There is a date, or none, where `CLOSE` is next. -/
theorem closing?_seen {t : Token} (ht : t.is (.keyword .close) = true) :
    Advances levels (W.sees 0 t) Traced.closing? :=
  (callOption rfl (after_seen ht ((accept _).iteOn (date.on.andThen fun _ => pureOn _) (pureOn _)))
    fun _ _ _ ⟨ho, hlt⟩ => by rwa [if_pos ho]).mono fun _ _ _ _ h => h.2

theorem entryFilter : Advances levels W (Traced.entryFilter G) := by
  have hend {W : Place} (e : Option Expr) (openOn : Option Date) :
      Proceeds levels W (do
        let close ← Traced.closing?
        return (⟨e, openOn, close, ← Traced.accept (.keyword .clear)⟩ : EntryFilter)) :=
    closing?.on.andThen fun _ => (accept _).on.andThen fun _ => pureOn _
  refine call _ ((accept _).iteAhead (openDate.on.andThen fun _ => hend _ _) (peek fun t => ?_))
  split
  · next hclose => exact (closing?_seen hclose).ahead fun _ => (accept _).on.andThen fun _ => pureOn _
  · exact (accept _).iteAhead (pureOn _) (recordThen (h.expr.ahead fun _ =>
      (after _ openDate.on).on.andThen fun _ => hend _ _))

theorem source : Advances levels W (Traced.source G) := by
  refine call _ (peek fun t => ?_)
  split
  · exact take (.sees (by simp)) _
  · refine looking (V := fun b sheet n => b = true → sheet.tokenAt n ≠ .eof) (fun sheet r _ =>
      ⟨_, rfl, fun hb => ne_eof_of_is (Bool.and_eq_true_iff.mp hb).1⟩) fun b => ?_
    split
    · next hb =>
      exact (advances fun _ _ hw => hw hb).ahead fun _ => h.select.on.andThen fun _ => (expect _).on.andThen fun _ =>
        pureOn _
    · exact recordThen ((entryFilter h).ahead fun _ => pureOn _)

theorem groupBy : Advances levels W (Traced.groupBy G) :=
  (expect _).ahead fun _ => (call _ ((commaList (columnKey h)).ahead fun _ => (after _ h.expr.on).on.andThen fun _ =>
    pureOn _)).on

omit h in
theorem sortDirection : Proceeds levels W Traced.sortDirection :=
  (accept _).iteOn (pureOn _) ((accept _).on.andThen fun _ => pureOn _)

theorem sortKey : Advances levels W (Traced.sortKey G) :=
  (columnKey h).ahead fun _ => sortDirection.andThen fun _ => pureOn _

theorem orderBy : Advances levels W (Traced.orderBy G) :=
  (expect _).ahead fun _ => (call _ (separatedAhead (sortKey h))).on

omit h in
theorem pivotKey : Advances levels W Traced.pivotKey := by
  refine call _ (peek fun t => ?_)
  split
  · exact (takeAfter (.sees (by simp)) _).ahead fun _ => pureOn _
  · exact recordThen (name.ahead fun _ => pureOn _)

omit h in
theorem pivotBy : Advances levels W Traced.pivotBy := by
  refine (expect _).ahead fun _ => (call _ (pivotKey.ahead fun _ => peek fun t => ?_)).on
  split
  · next hx =>
    refine (advances (.sees (ne_eof_of_is hx))).on.andThen fun _ => pivotKey.on.andThen fun _ => peek fun t => ?_
    split
    · exact fail _
    · exact pureOn _
  · exact fail _

theorem selectQuery : Advances levels W (Traced.selectQuery G) :=
  (expect _).ahead fun _ => (accept _).on.andThen fun _ => (targets h).on.andThen fun _ =>
    (after _ (source h).on).on.andThen fun _ => (after _ h.expr.on).on.andThen fun _ =>
    (after _ (groupBy h).on).on.andThen fun _ => (after _ (orderBy h).on).on.andThen fun _ =>
    (after _ pivotBy.on).on.andThen fun _ => (after _ count.on).on.andThen fun _ => pureOn _

/-! ## Statements -/

omit h in
theorem summary : AdvancesIf Option.isSome levels W Traced.summary :=
  callOption rfl (after _ name.on) fun _ _ _ h => h

theorem shorthandSource : AdvancesIf Option.isSome levels W (Traced.shorthandSource G) :=
  callOption rfl (after _ (entryFilter h).on) fun _ _ _ h => h

theorem balances : Advances levels W (Traced.balances G) :=
  call _ ((expect _).ahead fun _ => summary.on.andThen fun _ => (shorthandSource h).on.andThen fun _ =>
    (after _ h.expr.on).on.andThen fun _ => pureOn _)

omit h in
theorem accountPattern : Proceeds levels W Traced.accountPattern := by
  refine peek fun t => ?_
  split
  · exact (take (.sees (by simp)) _).on
  · exact recordThen (pureOn _)

theorem journal : Advances levels W (Traced.journal G) :=
  call _ ((expect _).ahead fun _ => accountPattern.andThen fun _ => summary.on.andThen fun _ =>
    (shorthandSource h).on.andThen fun _ => pureOn _)

theorem print : Advances levels W (Traced.print G) :=
  call _ ((expect _).ahead fun _ => (shorthandSource h).on.andThen fun _ => pureOn _)

theorem statement : Advances levels W (Traced.statement G) := by
  refine call _ (peek fun t => ?_)
  split
  · exact h.select.ahead fun _ => pureOn _
  · exact (balances h).ahead fun _ => pureOn _
  · exact (journal h).ahead fun _ => pureOn _
  · exact (print h).ahead fun _ => pureOn _
  · refine thenAhead ?_ fun _ => unexpected
    exact recordThen (recordThen (recordThen (recordThen (pureOn _))))

omit h in
theorem endOfInput : Proceeds levels W Traced.endOfInput := by
  refine peek fun t => ?_
  split
  · exact pureOn _
  · exact missing _

theorem wholeText : Advances levels W (Traced.wholeText G) :=
  call _ (nextSpan fun _ => (statement h).ahead fun _ => lastSpan fun _ => endOfInput.andThen fun _ => pureOn _)

end

end Goes

/-- With no level left, every reader of the next level refuses. -/
theorem Nested.Sound.zero (e i f : Traced Expr) (q : Traced Select) : (Nested.ofReaders e i f q).Sound 0 :=
  ⟨.call _ (.deeper_zero e), .deeper_zero i, .deeper_zero f, .call _ (.deeper_zero q)⟩

/-- Readers keep recordings sound on every level. -/
theorem nested_sound : ∀ levels, (nested levels).Sound levels
  | 0 => .zero _ _ _ _
  | levels + 1 =>
    have h := nested_sound levels
    ⟨.call _ (.deeper (Goes.disjunction h)), .deeper (Goes.inversion h), .deeper (Goes.factor h),
      .call _ (.deeper (Goes.selectQuery h))⟩

end Traced

end LedgerQuery
