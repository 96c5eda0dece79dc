import LedgerQuery.Proofs.Reading.Window

/-!
# What the readers of the grammar do not see

Every reader of the grammar does the same in two texts, unless it reads the first token that they end with
(`nested_tracks`).  So where reading stops before this token, it stops in both texts alike
(`parseLexemes_tracks`).

The readers that look ahead look at the tokens only, and of a keyword only at which one it is.
-/

namespace LedgerQuery

open Token LedgerQuery.Parser

namespace Tracks

variable {v v' : List Lexeme} (hv : Meets v v')
include hv

/-! ## Values -/

theorem commaList {α : Type} {p : Parser α} (hp : Tracks v v' p) : Tracks v v' (Parser.commaList p) :=
  bind hp fun _ => bind (many (after hv _ hp) (.after fun _ _ _ => hp.length_le)) fun _ => pure _

theorem literal? : Tracks v v' Parser.literal? := by
  refine peek_bind hv (fun t => ?_) fun t => by rw [literal?_folded]
  split
  · exact map (take hv _)
  · exact pure _

theorem name : Tracks v v' Parser.name := by
  refine peek_bind hv (fun t => ?_) fun t => by rw [name?_folded]
  split
  · exact take hv _
  · exact missing hv _

theorem date : Tracks v v' Parser.date := by
  refine peek_bind_keyword hv (fun t => ?_) fun _ _ _ => rfl
  split
  · exact take hv _
  · exact missing hv _

theorem stringValue : Tracks v v' Parser.stringValue := by
  refine peek_bind_keyword hv (fun t => ?_) fun _ _ _ => rfl
  split
  · exact take hv _
  · exact missing hv _

theorem count : Tracks v v' Parser.count := by
  refine peek_bind_keyword hv (fun t => ?_) fun _ _ _ => rfl
  split
  · exact take hv _
  · exact missing hv _

theorem listItem : Tracks v v' Parser.listItem := by
  refine bind (literal? hv) fun o => ?_
  split
  · exact pure _
  · exact bind (record _) fun _ => pure _

theorem literalList : Tracks v v' Parser.literalList := by
  refine bind (expect hv _) fun _ => bind (literal? hv) fun o => ?_
  split
  · exact bind (many (after hv _ (listItem hv)) (.after fun _ _ _ => (listItem hv).length_le)) fun _ =>
      bind (expect hv _) fun _ => pure _
  · exact missing hv _

theorem suffix? : Tracks v v' Parser.suffix? := by
  refine bind (acceptQuietly hv _) fun b => ?_
  split
  · exact bind (name hv) fun _ => pure _
  · refine bind (acceptQuietly hv _) fun b => ?_
    split
    · exact bind (stringValue hv) fun _ => bind (expect hv _) fun _ => pure _
    · exact pure _

theorem atList : Tracks v v' Parser.atList :=
  peek_bind hv (fun _ => peekNth_bind hv (by decide) (fun _ => peekNth_bind hv (by decide) (fun _ => pure _)
    fun t => by rw [is_respelled]) fun t => by rw [isLiteral_respelled]) fun t => by rw [is_folded]

theorem nullTest : Tracks v v' Parser.nullTest :=
  bind (accept hv _) fun _ => bind (expect hv _) fun _ => pure _

theorem comparison? : Tracks v v' Parser.comparison? := by
  refine peek_bind_keyword hv (fun t => ?_) fun k _ _ => by cases k <;> rfl
  split
  · split
    · exact bind (advance hv) fun _ => pure _
    · exact pure _
  · exact bind (advance hv) fun _ => pure _
  · refine peekNth_bind hv (by decide) (fun _ => ?_) fun t => by simp only [is_respelled]
    split
    · exact bind (advance hv) fun _ => bind (advance hv) fun _ => pure _
    · exact pure _
  · exact bind (advance hv) fun _ => bind (nullTest hv) fun _ => pure _
  · exact bind (advance hv) fun _ => pure _
  · exact pure _

theorem atComparison : Tracks v v' Parser.atComparison := by
  refine peek_bind_keyword hv (fun t => ?_) fun k _ _ => by cases k <;> rfl
  split <;> first
    | exact pure _
    | exact peekNth_bind hv (by decide) (fun _ => pure _) fun t => by rw [is_respelled]

theorem openDate : Tracks v v' Parser.openDate := bind (expect hv _) fun _ => date hv

theorem closing : Tracks v v' Parser.closing := by
  refine bind (accept hv _) fun b => ?_
  split
  · exact bind (date hv) fun _ => pure _
  · exact pure _

theorem atQuery : Tracks v v' Parser.atQuery :=
  peek_bind hv (fun _ => peekNth_bind hv (by decide) (fun _ => pure _) fun t => by rw [is_respelled])
    fun t => by rw [is_folded]

theorem sortDirection : Tracks v v' Parser.sortDirection := by
  refine bind (accept hv _) fun b => ?_
  split
  · exact pure _
  · exact bind (accept hv _) fun _ => pure _

theorem pivotKey : Tracks v v' Parser.pivotKey := by
  refine peek_bind_keyword hv (fun t => ?_) fun _ _ _ => rfl
  split
  · exact bind (take hv _) fun _ => pure _
  · exact bind (record _) fun _ => bind (name hv) fun _ => pure _

theorem pivotBy : Tracks v v' Parser.pivotBy := by
  refine bind (expect hv _) fun _ => bind (pivotKey hv) fun _ => peek_bind hv (fun t => ?_) fun t => by
    simp only [is_folded]
  split
  · refine bind (advance hv) fun _ => bind (pivotKey hv) fun _ => peek_bind hv (fun t => ?_) fun t => by
      simp only [is_folded]
    split
    · exact fail _
    · exact pure _
  · exact fail _

theorem accountPattern : Tracks v v' Parser.accountPattern := by
  refine peek_bind_keyword hv (fun t => ?_) fun _ _ _ => rfl
  split
  · exact take hv _
  · exact bind (record _) fun _ => pure _

theorem endOfInput : Tracks v v' Parser.endOfInput := by
  refine peek_bind_keyword hv (fun t => ?_) fun _ _ _ => rfl
  split
  · exact pure _
  · exact missing hv _

/-! ## Expressions -/

section
variable {p : Parser Expr} (hp : Tracks v v' p)
include hp

theorem operation? (family : Symbol → Option BinaryOp) : Tracks v v' (Parser.operation? family p) := by
  refine peek_bind_keyword hv (fun t => ?_) fun _ _ _ => rfl
  split
  · split
    · exact bind (advance hv) fun _ => bind hp fun _ => pure _
    · exact pure _
  · exact pure _

theorem leftGrouped (family : Symbol → Option BinaryOp) : Tracks v v' (Parser.leftGrouped family p) :=
  bind hp fun _ => bind (many (operation? hv hp family) (.operation fun _ _ _ => hp.length_le)) fun _ => pure _

theorem connected (op : BoolOp) : Tracks v v' (Parser.connected op p) := by
  refine bind hp fun _ => bind (many (afterQuietly hv _ hp) (.afterQuietly fun _ _ _ => hp.length_le)) fun es => ?_
  split <;> exact pure _

end

section
variable {G : Nested} (hG : G.Tracks v v')
include hG

theorem arguments : Tracks v v' (Parser.arguments G) := by
  refine bind (expect hv _) fun _ => bind (accept hv _) fun b => ?_
  split
  · exact bind (expect hv _) fun _ => pure _
  · refine bind (accept hv _) fun b => ?_
    split
    · exact pure _
    · exact bind (commaList hv hG.expr) fun _ => bind (expect hv _) fun _ => pure _

theorem nameOrCall : Tracks v v' (Parser.nameOrCall G) := by
  refine peekNth_bind hv (by decide) (fun _ => bind (name hv) fun n => ?_) fun t => by simp only [is_respelled]
  split
  · exact bind (arguments hv hG) fun _ => pure _
  · exact pure _

theorem atom : Tracks v v' (Parser.atom G) := by
  refine peek_bind hv (fun t => ?_) fun t => ?_
  · split
    · exact bind hG.select fun _ => pure _
    · split
      · exact nameOrCall hv hG
      · split
        · exact take hv _
        · exact literalList hv
        · refine bind (literal? hv) fun o => ?_
          split
          · exact pure _
          · exact missing hv _
  · rw [is_folded, isName_folded]
    cases t <;> rfl

theorem primary : Tracks v v' (Parser.primary G) :=
  bind (atom hv hG) fun _ => bind (many (suffix? hv) Sees.suffix?_moves) fun _ => pure _

theorem factor : Tracks v v' (Parser.factor G) := by
  refine peek_bind_keyword hv (fun t => ?_) fun _ _ _ => rfl
  split
  · refine bind (atList hv) fun b => ?_
    split
    · exact primary hv hG
    · exact bind (advance hv) fun _ => bind hG.expr fun _ => bind (expect hv _) fun _ => pure _
  · exact bind (advance hv) fun _ => bind hG.factor fun _ => pure _
  · exact bind (advance hv) fun _ => hG.factor
  · exact primary hv hG

theorem sum : Tracks v v' (Parser.sum G) := leftGrouped hv (leftGrouped hv (factor hv hG) _) _

theorem compared (left : Expr) (c : Comparison) : Tracks v v' (Parser.compared G left c) := by
  cases c with
  | binary op => exact bind (sum hv hG) fun _ => pure _
  | null op => exact pure _
  | between => exact bind (sum hv hG) fun _ => bind (expect hv _) fun _ => bind (sum hv hG) fun _ => pure _

theorem comparison : Tracks v v' (Parser.comparison G) := by
  refine bind (sum hv hG) fun left => bind (comparison? hv) fun o => ?_
  split
  · exact pure _
  · refine bind (compared hv hG left _) fun e => bind (atComparison hv) fun b => ?_
    split
    · exact fail _
    · exact pure _

theorem inversion : Tracks v v' (Parser.inversion G) := by
  refine bind (acceptQuietly hv _) fun b => ?_
  split
  · exact bind hG.inversion fun _ => pure _
  · exact comparison hv hG

theorem disjunction : Tracks v v' (Parser.disjunction G) := connected hv (connected hv (inversion hv hG) _) _

/-! ## Clauses -/

theorem columnKey : Tracks v v' (Parser.columnKey G) := by
  refine peek_bind_keyword hv (fun t => ?_) fun _ _ _ => rfl
  split
  · refine peekNth_bind hv (by decide) (fun t => ?_) fun t => by rw [continuesExpression_respelled]
    split
    · exact bind hG.expr fun _ => pure _
    · exact bind (take hv _) fun _ => pure _
  · exact bind hG.expr fun _ => pure _

theorem target : Tracks v v' (Parser.target G) :=
  bind (nextSpan hv) fun _ => bind hG.expr fun _ => bind (after hv _ (name hv)) fun _ => bind lastSpan fun _ =>
    pure _

theorem targets : Tracks v v' (Parser.targets G) := by
  refine bind (accept hv _) fun b => ?_
  split
  · exact pure _
  · exact bind (commaList hv (target hv hG)) fun _ => pure _

theorem entryFilter : Tracks v v' (Parser.entryFilter G) := by
  refine bind (accept hv _) fun b => ?_
  split
  · exact bind (openDate hv) fun _ => bind (after hv _ (closing hv)) fun _ => bind (accept hv _) fun _ => pure _
  · refine bind (accept hv _) fun b => ?_
    split
    · exact bind (closing hv) fun _ => bind (accept hv _) fun _ => pure _
    · refine bind (accept hv _) fun b => ?_
      split
      · exact pure _
      · exact bind hG.expr fun _ => bind (after hv _ (openDate hv)) fun _ => bind (after hv _ (closing hv)) fun _ =>
          bind (accept hv _) fun _ => pure _

theorem source : Tracks v v' (Parser.source G) := by
  refine peek_bind_keyword hv (fun t => ?_) fun _ _ _ => rfl
  split
  · exact take hv _
  · refine bind (atQuery hv) fun b => ?_
    split
    · exact bind (advance hv) fun _ => bind hG.select fun _ => bind (expect hv _) fun _ => pure _
    · exact bind (record _) fun _ => bind (entryFilter hv hG) fun _ => pure _

theorem groupBy : Tracks v v' (Parser.groupBy G) :=
  bind (expect hv _) fun _ => bind (commaList hv (columnKey hv hG)) fun _ => bind (after hv _ hG.expr) fun _ =>
    pure _

theorem sortKey : Tracks v v' (Parser.sortKey G) :=
  bind (columnKey hv hG) fun _ => bind (sortDirection hv) fun _ => pure _

theorem orderBy : Tracks v v' (Parser.orderBy G) :=
  bind (expect hv _) fun _ => commaList hv (sortKey hv hG)

theorem selectQuery : Tracks v v' (Parser.selectQuery G) :=
  bind (expect hv _) fun _ => bind (accept hv _) fun _ => bind (targets hv hG) fun _ =>
    bind (after hv _ (source hv hG)) fun _ => bind (after hv _ hG.expr) fun _ =>
    bind (after hv _ (groupBy hv hG)) fun _ => bind (after hv _ (orderBy hv hG)) fun _ =>
    bind (after hv _ (pivotBy hv)) fun _ => bind (after hv _ (count hv)) fun _ => pure _

/-! ## Statements -/

theorem shorthandSource : Tracks v v' (Parser.shorthandSource G) := after hv _ (entryFilter hv hG)

theorem statement : Tracks v v' (Parser.statement G) := by
  refine peek_bind_keyword hv (fun t => ?_) fun k _ _ => by cases k <;> rfl
  split
  · exact bind hG.select fun _ => pure _
  · exact bind (bind (expect hv _) fun _ => bind (after hv _ (name hv)) fun _ => bind (shorthandSource hv hG) fun _ =>
      bind (after hv _ hG.expr) fun _ => pure _) fun _ => pure _
  · exact bind (bind (expect hv _) fun _ => bind (accountPattern hv) fun _ => bind (after hv _ (name hv)) fun _ =>
      bind (shorthandSource hv hG) fun _ => pure _) fun _ => pure _
  · exact bind (bind (expect hv _) fun _ => bind (shorthandSource hv hG) fun _ => pure _) fun _ => pure _
  · exact bind (bind (record _) fun _ => bind (record _) fun _ => bind (record _) fun _ => bind (record _) fun _ =>
      pure _) fun _ => unexpected hv

theorem wholeText : Tracks v v' (Parser.wholeText G) :=
  bind (nextSpan hv) fun _ => bind (statement hv hG) fun _ => bind lastSpan fun _ => bind (endOfInput hv) fun _ =>
    pure _

end

end Tracks

/-- Readers under a limit do the same in two texts, up to where they meet. -/
theorem nested_tracks {v v' : List Lexeme} (hv : Meets v v') (limit : Nat) :
    ∀ levels, (nested limit levels).Tracks v v'
  | 0 => ⟨.fail _, .fail _, .fail _, .fail _⟩
  | levels + 1 =>
    have h := nested_tracks hv limit levels
    ⟨Tracks.disjunction hv h, Tracks.inversion hv h, Tracks.factor hv h, Tracks.selectQuery hv h⟩

/-! ## Whole texts -/

section
variable {v v' lexemes lexemes' : List Lexeme} {limit : Nat}

/-- Two texts are read the same, unless the first token they end with is read. -/
theorem wholeText_tracks (hv : Meets v v') (h : AgreeUpTo v v' lexemes lexemes') :
    (leftOf (wholeText (nested limit limit) (Input.start lexemes))).length < v.length ∨
      Outcome.Same v v' (wholeText (nested limit limit) (Input.start lexemes))
        (wholeText (nested limit limit) (Input.start lexemes')) :=
  (Tracks.wholeText hv (nested_tracks hv limit limit)).agrees _ _
    ⟨h, rfl, by rw [Input.start, Input.start, (h.meets hv).span]⟩

/-- A stop before the first token that two texts end with is the same in both. -/
theorem parseLexemes_tracks {fault : Fault} (hv : Meets v v') (h : AgreeUpTo v v' lexemes lexemes')
    (hstop : parseLexemes lexemes limit = .error ⟨fault, v⟩) : parseLexemes lexemes' limit = .error ⟨fault, v'⟩ := by
  unfold parseLexemes at hstop ⊢
  have hrun := @wholeText_tracks _ _ _ _ limit hv h
  generalize wholeText (nested limit limit) (Input.start lexemes) = x at hstop hrun
  generalize wholeText (nested limit limit) (Input.start lexemes') = y at hrun ⊢
  cases x with
  | ok r => cases hstop
  | error stop =>
    cases hstop
    rcases hrun with hlt | hsame
    · exact absurd hlt (Nat.lt_irrefl _)
    · cases hsame with
      | error hrest =>
        obtain ⟨u, u', hu, rfl, hmap⟩ := hrest
        obtain rfl : u = [] := List.append_cancel_right (hu.symm.trans (List.nil_append v).symm)
        obtain rfl : u' = [] := by simpa using hmap.symm
        rfl

end

end LedgerQuery
