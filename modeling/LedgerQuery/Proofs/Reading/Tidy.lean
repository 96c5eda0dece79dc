import LedgerQuery.Proofs.Limit.Curtailed
import LedgerQuery.Proofs.Reading.Steps
import LedgerQuery.Proofs.Reading.Window

/-!
# What readers leave and try

Whether it finds something or stops, a reader leaves an end of what it was given, and there remain the items
that were tried in vain at the front of it.  If the reader has moved, these are items of its own, and readers of
parts of a statement try only ordinary items (`Tidy`).  They never try a comparison, they only look whether one
is next.  Nor do they try the end of input, which is left to the reader of a whole text.
-/

namespace LedgerQuery

open Token LedgerQuery.Parser

/-! ## Outcomes -/

/-- The items a fault lists. -/
def Fault.items : Fault → List Expected
  | unexpected items _ => items
  | _ => []

/-- What was tried in vain where a reader has got. -/
def missed {α : Type} : Except Stop (α × Input) → List Expected
  | .ok x => x.2.tried
  | .error stop => stop.fault.items

/-- What is left does not depend on what is made of a value. -/
theorem leftOf_map {α β : Type} (p : Parser α) (g : α → β) (s : Input) :
    leftOf ((do return g (← p) : Parser β) s) = leftOf (p s) := by
  show leftOf (p s >>= fun x => Except.ok (g x.1, x.2)) = _
  cases p s <;> rfl

/-- Whether an item is tried by readers of parts of a statement. -/
def Expected.isOrdinary : Expected → Bool
  | terminal (.keyword k) => !([Keyword.in, .is, .between].contains k)
  | terminal (.symbol s) => (BinaryOp.ofComparison? s).isNone
  | endOfInput => false
  | _ => true

/-- Whether a reader leaves an end of what it was given, and tries ordinary items there. -/
def Tidy {α : Type} (p : Parser α) : Prop :=
  ∀ s, ∃ u, s.rest = u ++ leftOf (p s) ∧ ∀ e ∈ missed (p s), e.isOrdinary = true ∨ u = [] ∧ e ∈ s.tried

/-- Whether the readers one nesting level deeper are tidy. -/
structure Nested.Tidy (G : Nested) : Prop where
  /-- Expressions. -/
  expr : LedgerQuery.Tidy G.expr
  /-- Operands of `NOT`. -/
  inversion : LedgerQuery.Tidy G.inversion
  /-- Operands of signs. -/
  factor : LedgerQuery.Tidy G.factor
  /-- Queries. -/
  select : LedgerQuery.Tidy G.select

section
variable {α β : Type} {p : Parser α} {f : α → Parser β} {s t : Input} {a : α} {stop : Stop}

/-! ## Values out of range -/

section
variable {digits written : String} {fault : Fault}

theorem integerOf_items (h : integerOf digits = .error fault) : fault.items = [] := by
  simp only [integerOf] at h
  split at h <;> cases h
  rfl

theorem countOf_items (h : countOf digits = .error fault) : fault.items = [] := by
  simp only [countOf] at h
  split at h <;> cases h
  rfl

theorem decimalOf_items (h : decimalOf written = .error fault) : fault.items = [] := by
  simp only [decimalOf] at h
  split at h <;> cases h
  rfl

theorem dateOf_items (h : dateOf written = .error fault) : fault.items = [] := by
  simp only [dateOf] at h
  split at h <;> cases h
  rfl

/-- A literal that is refused is refused for its value. -/
theorem Token.literal?_items {t : Token} (ht : t.literal? = some (.error fault)) : fault.items = [] := by
  unfold Token.literal? at ht
  split at ht
  · exact integerOf_items (Except.map_eq_error (Option.some.inj ht))
  · exact decimalOf_items (Except.map_eq_error (Option.some.inj ht))
  · exact dateOf_items (Except.map_eq_error (Option.some.inj ht))
  all_goals cases ht

end

/-! ## Combinators -/

namespace Tidy

theorem bind (hp : Tidy p) (hf : ∀ a, Tidy (f a)) : Tidy (p >>= f) := by
  intro s
  obtain ⟨u, hu, hmissed⟩ := hp s
  cases h : p s with
  | error stop =>
    rw [h] at hu hmissed
    rw [bind_of_error h]
    exact ⟨u, hu, hmissed⟩
  | ok x =>
    obtain ⟨a, s₁⟩ := x
    rw [h] at hu hmissed
    obtain ⟨v, hv, hmissed'⟩ := hf a s₁
    rw [bind_of_ok h]
    refine ⟨u ++ v, by rw [hu, List.append_assoc, ← hv]; rfl, fun e he => ?_⟩
    rcases hmissed' e he with ho | ⟨rfl, he⟩
    · exact .inl ho
    · rw [List.append_nil]
      exact hmissed e he

/-- A reader that reads nothing and tries nothing in vain. -/
theorem of_stays (h : ∀ s, leftOf (p s) = s.rest ∧ ∀ e ∈ missed (p s), e ∈ s.tried) : Tidy p :=
  fun s => ⟨[], (h s).1.symm, fun e he => .inr ⟨rfl, (h s).2 e he⟩⟩

theorem pure (a : α) : Tidy (Pure.pure a) := of_stays fun _ => ⟨rfl, fun _ he => he⟩

theorem map {g : α → β} (hp : Tidy p) : Tidy (g <$> p) := bind hp fun a => pure (g a)

theorem peek : Tidy Parser.peek := of_stays fun _ => ⟨rfl, fun _ he => he⟩

theorem peekNth (n : Nat) : Tidy (Parser.peekNth n) := of_stays fun _ => ⟨rfl, fun _ he => he⟩

theorem nextSpan : Tidy Parser.nextSpan := of_stays fun _ => ⟨rfl, fun _ he => he⟩

theorem lastSpan : Tidy Parser.lastSpan := of_stays fun _ => ⟨rfl, fun _ he => he⟩

theorem fail {fault : Fault} (hf : fault.items = []) : Tidy (Parser.fail fault : Parser α) :=
  of_stays fun _ => ⟨rfl, fun e (he : e ∈ fault.items) => absurd (hf ▸ he) List.not_mem_nil⟩

theorem unexpected : Tidy (Parser.unexpected : Parser α) :=
  of_stays fun _ => ⟨rfl, fun _ he => Expected.mem_collect.mp he⟩

theorem record {e : Expected} (h : e.isOrdinary = true) : Tidy (Parser.record e) := by
  refine fun s => ⟨[], rfl, fun e' he' => ?_⟩
  rcases List.mem_cons.mp he' with rfl | he
  · exact .inl h
  · exact .inr ⟨rfl, he⟩

theorem missing {e : Expected} (h : e.isOrdinary = true) : Tidy (Parser.missing e : Parser α) :=
  bind (record h) fun _ => unexpected

theorem advance : Tidy Parser.advance := by
  intro s
  obtain ⟨rest, tried, last⟩ := s
  cases rest with
  | nil => exact ⟨[], rfl, fun e he => .inr ⟨rfl, he⟩⟩
  | cons l rest => exact ⟨[l], rfl, fun e he => nomatch he⟩

theorem take {r : Except Fault α} (hr : ∀ fault, r = .error fault → fault.items = []) : Tidy (Parser.take r) := by
  cases r with
  | ok a => exact bind advance fun _ => pure a
  | error fault => exact fail (hr fault rfl)

theorem take_ok (a : α) : Tidy (Parser.take (.ok a)) := take fun _ h => nomatch h

theorem acceptQuietly (x : Terminal) : Tidy (Parser.acceptQuietly x) := by
  refine bind peek fun t => ?_
  split
  · exact bind advance fun _ => pure _
  · exact pure _

section
variable {x : Terminal} (hx : (Expected.terminal x).isOrdinary = true)
include hx

theorem accept : Tidy (Parser.accept x) := by
  refine bind (acceptQuietly x) fun b => ?_
  split
  · exact pure _
  · exact bind (record hx) fun _ => pure _

theorem expect : Tidy (Parser.expect x) := by
  refine bind (accept hx) fun b => ?_
  split
  · exact pure _
  · exact unexpected

theorem after (hp : Tidy p) : Tidy (Parser.after x p) := by
  refine bind (accept hx) fun b => ?_
  split
  · exact map hp
  · exact pure _

end

theorem afterQuietly {x : Terminal} (hp : Tidy p) : Tidy (Parser.afterQuietly x p) := by
  refine bind (acceptQuietly x) fun b => ?_
  split
  · exact map hp
  · exact pure _

theorem repeatUpTo {p : Parser (Option α)} (hp : Tidy p) (rounds : Nat) : Tidy (Parser.repeatUpTo p rounds) := by
  induction rounds with
  | zero => exact pure []
  | succ rounds ih =>
    refine bind hp fun o => ?_
    cases o with
    | none => exact pure []
    | some a => exact bind ih fun _ => pure _

theorem many {p : Parser (Option α)} (hp : Tidy p) : Tidy (Parser.many p) := fun s => repeatUpTo hp _ s

theorem commaList (hp : Tidy p) : Tidy (Parser.commaList p) :=
  bind hp fun _ => bind (many (after rfl hp)) fun _ => pure _

/-! ## What remains -/

theorem length_le (hp : Tidy p) (s : Input) : (leftOf (p s)).length ≤ s.rest.length := by
  obtain ⟨u, hu, -⟩ := hp s
  rw [hu, List.length_append]
  exact Nat.le_add_left ..

theorem length_le_of_ok (hp : Tidy p) (h : p s = .ok (a, t)) : t.rest.length ≤ s.rest.length := by
  have hle := hp.length_le s
  rwa [h] at hle

theorem after_moves {x : Terminal} (hp : Tidy p) : MovesOnSome (Parser.after x p) :=
  .after fun _ _ _ => hp.length_le_of_ok

theorem afterQuietly_moves {x : Terminal} (hp : Tidy p) : MovesOnSome (Parser.afterQuietly x p) :=
  .afterQuietly fun _ _ _ => hp.length_le_of_ok

/-- Nothing remains after a reader that was given nothing. -/
theorem leftOf_eq_nil (hp : Tidy p) (hs : s.rest = []) : leftOf (p s) = [] := by
  have hle := hp.length_le s
  rw [hs] at hle
  exact List.eq_nil_of_length_eq_zero (Nat.le_zero.mp hle)

/-! ## Values -/

theorem literal? : Tidy Parser.literal? := by
  intro s
  rw [show Parser.literal? s = _ from Parser.peek_bind _ s]
  cases h : (nextOf s.rest).literal? with
  | none => exact pure _ s
  | some r => exact map (take fun _ hr => literal?_items (hr ▸ h)) s

theorem name : Tidy Parser.name := by
  refine bind peek fun t => ?_
  split
  · exact take_ok _
  · exact missing rfl

theorem date : Tidy Parser.date := by
  refine bind peek fun t => ?_
  split
  · exact take fun _ => dateOf_items
  · exact missing rfl

theorem stringValue : Tidy Parser.stringValue := by
  refine bind peek fun t => ?_
  split
  · exact take_ok _
  · exact missing rfl

theorem count : Tidy Parser.count := by
  refine bind peek fun t => ?_
  split
  · exact take fun _ => countOf_items
  · exact missing rfl

theorem literalAtom : Tidy Parser.literalAtom := by
  refine bind literal? fun o => ?_
  split
  · exact pure _
  · exact missing rfl

theorem firstLiteral : Tidy Parser.firstLiteral := by
  refine bind literal? fun o => ?_
  split
  · exact pure _
  · exact missing rfl

theorem listItem : Tidy Parser.listItem := by
  refine bind literal? fun o => ?_
  split
  · exact pure _
  · exact bind (record rfl) fun _ => pure _

theorem literalList : Tidy Parser.literalList := by
  refine bind (expect rfl) fun _ => bind literal? fun o => ?_
  split
  · exact bind (many (after rfl listItem)) fun _ => bind (expect rfl) fun _ => pure _
  · exact missing rfl

theorem suffix? : Tidy Parser.suffix? := by
  refine bind (acceptQuietly _) fun b => ?_
  split
  · exact bind name fun _ => pure _
  · refine bind (acceptQuietly _) fun b => ?_
    split
    · exact bind stringValue fun _ => bind (expect rfl) fun _ => pure _
    · exact pure _

theorem atList : Tidy Parser.atList := bind peek fun _ => bind (peekNth 1) fun _ => bind (peekNth 2) fun _ => pure _

theorem nullTest : Tidy Parser.nullTest := bind (accept rfl) fun _ => bind (expect rfl) fun _ => pure _

theorem comparison? : Tidy Parser.comparison? := by
  refine bind peek fun t => ?_
  split
  · split
    · exact bind advance fun _ => pure _
    · exact pure _
  · exact bind advance fun _ => pure _
  · refine bind (peekNth 1) fun _ => ?_
    split
    · exact bind advance fun _ => bind advance fun _ => pure _
    · exact pure _
  · exact bind advance fun _ => bind nullTest fun _ => pure _
  · exact bind advance fun _ => pure _
  · exact pure _

theorem atComparison : Tidy Parser.atComparison := by
  refine bind peek fun t => ?_
  split <;> first
    | exact pure _
    | exact bind (peekNth 1) fun _ => pure _

theorem openDate : Tidy Parser.openDate := bind (expect rfl) fun _ => date

theorem closing : Tidy Parser.closing := by
  refine bind (accept rfl) fun b => ?_
  split
  · exact bind date fun _ => pure _
  · exact pure _

theorem atQuery : Tidy Parser.atQuery := bind peek fun _ => bind (peekNth 1) fun _ => pure _

theorem sortDirection : Tidy Parser.sortDirection := by
  refine bind (accept rfl) fun b => ?_
  split
  · exact pure _
  · exact bind (accept rfl) fun _ => pure _

theorem pivotKey : Tidy Parser.pivotKey := by
  refine bind peek fun t => ?_
  split
  · exact bind (take fun _ => countOf_items) fun _ => pure _
  · exact bind (record rfl) fun _ => bind name fun _ => pure _

theorem pivotEnd (row column : PivotKey) : Tidy (Parser.pivotEnd row column) := by
  refine bind peek fun t => ?_
  split
  · exact fail rfl
  · exact pure _

theorem pivotRest (row : PivotKey) : Tidy (Parser.pivotRest row) := by
  refine bind peek fun t => ?_
  split
  · exact bind advance fun _ => bind pivotKey fun column => pivotEnd row column
  · exact fail rfl

theorem pivotBy : Tidy Parser.pivotBy := bind (expect rfl) fun _ => bind pivotKey fun row => pivotRest row

theorem accountPattern : Tidy Parser.accountPattern := by
  refine bind peek fun t => ?_
  split
  · exact take_ok _
  · exact bind (record rfl) fun _ => pure _

/-! ## Expressions -/

section
variable {p : Parser Expr} (hp : Tidy p)
include hp

theorem operation? (family : Symbol → Option BinaryOp) : Tidy (Parser.operation? family p) := by
  refine bind peek fun t => ?_
  split
  · split
    · exact bind advance fun _ => bind hp fun _ => pure _
    · exact pure _
  · exact pure _

theorem operation?_moves (family : Symbol → Option BinaryOp) : MovesOnSome (Parser.operation? family p) :=
  .operation fun _ _ _ => hp.length_le_of_ok

theorem leftGrouped (family : Symbol → Option BinaryOp) : Tidy (Parser.leftGrouped family p) :=
  bind hp fun _ => bind (many (operation? hp family)) fun _ => pure _

theorem connected (op : BoolOp) : Tidy (Parser.connected op p) := by
  refine bind hp fun _ => bind (many (afterQuietly hp)) fun es => ?_
  split <;> exact pure _

end

section
variable {G : Nested} (hG : G.Tidy)
include hG

theorem argumentsAfter : Tidy (Parser.argumentsAfter G) := by
  refine bind (accept rfl) fun b => ?_
  split
  · exact bind (expect rfl) fun _ => pure _
  · refine bind (accept rfl) fun b => ?_
    split
    · exact pure _
    · exact bind (commaList hG.expr) fun _ => bind (expect rfl) fun _ => pure _

theorem arguments : Tidy (Parser.arguments G) := bind (expect rfl) fun _ => argumentsAfter hG

theorem nameOrCall : Tidy (Parser.nameOrCall G) := by
  refine bind (peekNth 1) fun t => bind name fun n => ?_
  split
  · exact bind (arguments hG) fun _ => pure _
  · exact pure _

theorem atom : Tidy (Parser.atom G) := by
  refine bind peek fun t => ?_
  split
  · exact bind hG.select fun _ => pure _
  · split
    · exact nameOrCall hG
    · split
      · exact take_ok _
      · exact literalList
      · refine bind literal? fun o => ?_
        split
        · exact pure _
        · exact missing rfl

theorem primary : Tidy (Parser.primary G) := bind (atom hG) fun _ => bind (many suffix?) fun _ => pure _

theorem factor : Tidy (Parser.factor G) := by
  refine bind peek fun t => ?_
  split
  · refine bind atList fun b => ?_
    split
    · exact primary hG
    · exact bind advance fun _ => bind hG.expr fun _ => bind (expect rfl) fun _ => pure _
  · exact bind advance fun _ => bind hG.factor fun _ => pure _
  · exact bind advance fun _ => hG.factor
  · exact primary hG

theorem term : Tidy (Parser.term G) := leftGrouped (factor hG) _

theorem sum : Tidy (Parser.sum G) := leftGrouped (term hG) _

theorem compared (left : Expr) (c : Comparison) : Tidy (Parser.compared G left c) := by
  cases c with
  | binary op => exact bind (sum hG) fun _ => pure _
  | null op => exact pure _
  | between => exact bind (sum hG) fun _ => bind (expect rfl) fun _ => bind (sum hG) fun _ => pure _

theorem comparison : Tidy (Parser.comparison G) := by
  refine bind (sum hG) fun left => bind comparison? fun o => ?_
  split
  · exact pure _
  · refine bind (compared hG left _) fun e => bind atComparison fun b => ?_
    split
    · exact fail rfl
    · exact pure _

theorem inversion : Tidy (Parser.inversion G) := by
  refine bind (acceptQuietly _) fun b => ?_
  split
  · exact bind hG.inversion fun _ => pure _
  · exact comparison hG

theorem conjunction : Tidy (Parser.conjunction G) := connected (inversion hG) _

theorem disjunction : Tidy (Parser.disjunction G) := connected (conjunction hG) _

/-! ## Clauses -/

theorem columnKey : Tidy (Parser.columnKey G) := by
  refine bind peek fun t => ?_
  split
  · refine bind (peekNth 1) fun t => ?_
    split
    · exact bind hG.expr fun _ => pure _
    · exact bind (take fun _ => countOf_items) fun _ => pure _
  · exact bind hG.expr fun _ => pure _

theorem target : Tidy (Parser.target G) :=
  bind nextSpan fun _ => bind hG.expr fun _ => bind (after rfl name) fun _ => bind lastSpan fun _ => pure _

theorem targets : Tidy (Parser.targets G) := by
  refine bind (accept rfl) fun b => ?_
  split
  · exact pure _
  · exact bind (commaList (target hG)) fun _ => pure _

theorem entryFilter : Tidy (Parser.entryFilter G) := by
  refine bind (accept rfl) fun b => ?_
  split
  · exact bind openDate fun _ => bind (after rfl closing) fun _ => bind (accept rfl) fun _ => pure _
  · refine bind (accept rfl) fun b => ?_
    split
    · exact bind closing fun _ => bind (accept rfl) fun _ => pure _
    · refine bind (accept rfl) fun b => ?_
      split
      · exact pure _
      · exact bind hG.expr fun _ => bind (after rfl openDate) fun _ => bind (after rfl closing) fun _ =>
          bind (accept rfl) fun _ => pure _

theorem source : Tidy (Parser.source G) := by
  refine bind peek fun t => ?_
  split
  · exact take_ok _
  · refine bind atQuery fun b => ?_
    split
    · exact bind advance fun _ => bind hG.select fun _ => bind (expect rfl) fun _ => pure _
    · exact bind (record rfl) fun _ => bind (entryFilter hG) fun _ => pure _

theorem groupBy : Tidy (Parser.groupBy G) :=
  bind (expect rfl) fun _ => bind (commaList (columnKey hG)) fun _ => bind (after rfl hG.expr) fun _ => pure _

theorem sortKey : Tidy (Parser.sortKey G) := bind (columnKey hG) fun _ => bind sortDirection fun _ => pure _

theorem orderBy : Tidy (Parser.orderBy G) := bind (expect rfl) fun _ => commaList (sortKey hG)

theorem selectClauses : Tidy (do
    let distinct ← Parser.accept (.keyword .distinct)
    let targets ← Parser.targets G
    let source ← Parser.after (.keyword .from) (Parser.source G)
    let condition ← Parser.after (.keyword .where) G.expr
    let groupBy ← Parser.after (.keyword .group) (Parser.groupBy G)
    let orderBy ← Parser.after (.keyword .order) (Parser.orderBy G)
    let pivotBy ← Parser.after (.keyword .pivot) Parser.pivotBy
    let limit ← Parser.after (.keyword .limit) Parser.count
    return Select.mk targets distinct source condition groupBy orderBy pivotBy limit) :=
  bind (accept rfl) fun _ => bind (targets hG) fun _ =>
    bind (after rfl (source hG)) fun _ => bind (after rfl hG.expr) fun _ => bind (after rfl (groupBy hG)) fun _ =>
    bind (after rfl (orderBy hG)) fun _ => bind (after rfl pivotBy) fun _ => bind (after rfl count) fun _ => pure _

theorem selectQuery : Tidy (Parser.selectQuery G) := bind (expect rfl) fun _ => selectClauses hG

/-! ## Statements -/

theorem shorthandSource : Tidy (Parser.shorthandSource G) := after rfl (entryFilter hG)

theorem statement : Tidy (Parser.statement G) := by
  refine bind peek fun t => ?_
  split
  · exact bind hG.select fun _ => pure _
  · exact bind (bind (expect rfl) fun _ => bind (after rfl name) fun _ => bind (shorthandSource hG) fun _ =>
      bind (after rfl hG.expr) fun _ => pure _) fun _ => pure _
  · exact bind (bind (expect rfl) fun _ => bind accountPattern fun _ => bind (after rfl name) fun _ =>
      bind (shorthandSource hG) fun _ => pure _) fun _ => pure _
  · exact bind (bind (expect rfl) fun _ => bind (shorthandSource hG) fun _ => pure _) fun _ => pure _
  · exact bind (bind (record rfl) fun _ => bind (record rfl) fun _ => bind (record rfl) fun _ => bind (record rfl)
      fun _ => pure _) fun _ => unexpected

end

end Tidy

/-- Nothing remains after two readers if nothing remains after the first one. -/
theorem leftOf_bind_eq_nil (hf : ∀ a, Tidy (f a)) (h : leftOf (p s) = []) : leftOf ((p >>= f) s) = [] := by
  cases hs : p s with
  | error stop =>
    rw [hs] at h
    rwa [bind_of_error hs]
  | ok x =>
    obtain ⟨a, t⟩ := x
    rw [hs] at h
    rw [bind_of_ok hs]
    exact (hf a).leftOf_eq_nil h

/-- What has moved in the first of two readers has moved. -/
theorem leftOf_bind_ne (hp : Tidy p) (hf : ∀ a, Tidy (f a)) (h : leftOf (p s) ≠ s.rest) :
    leftOf ((p >>= f) s) ≠ s.rest := by
  obtain ⟨u, hu, -⟩ := hp s
  cases hs : p s with
  | error stop =>
    rw [hs] at h
    rwa [bind_of_error hs]
  | ok x =>
    obtain ⟨a, t⟩ := x
    rw [hs] at h hu
    rw [bind_of_ok hs]
    have hlen : 0 < u.length := List.length_pos_of_ne_nil fun hnil => h (by rw [hu, hnil]; rfl)
    have hle := (hf a).length_le t
    replace hu : s.rest = u ++ t.rest := hu
    intro heq
    rw [heq, hu, List.length_append] at hle
    omega

end

/-- Readers under a limit are tidy. -/
theorem nested_tidy (limit : Nat) : ∀ levels, (nested limit levels).Tidy
  | 0 => ⟨.fail rfl, .fail rfl, .fail rfl, .fail rfl⟩
  | levels + 1 =>
    have h := nested_tidy limit levels
    ⟨Tidy.disjunction h, Tidy.inversion h, Tidy.factor h, Tidy.selectQuery h⟩

end LedgerQuery
