import LedgerQuery.Proofs.Phrase.Grammar
import LedgerQuery.Proofs.Written.Pieces

/-!
# Expressions by their outermost construction

The grammar has one phrase for each strength of binding, and most of them pass
an operand on to the next.  Here the same phrases are looked at by the tree they
stand for.  A run is an expression at a place (`place_iff`) in one of two ways.

* It stands in parentheses or behind a plus sign (`bracketed`).
* It is put together as the outermost construction of the tree says (`node`), and
  the tree binds as strongly as the place asks for.

So a run is not looked into deeper than one construction.  Attributes and
subscripts ask for a primary, which has only the second way (`primary_iff`).
-/

namespace LedgerQuery

namespace Phrase

variable {α β : Type} {u v w : List Lexeme}

/-! ## Repetition from its end -/

theorem Many.snoc {L : Phrase α} {as : List α} {a : α} (h : Many L v as) (ha : L w a) :
    Many L (v ++ w) (as ++ [a]) := by
  induction h with
  | nil => simpa using Many.cons ha .nil
  | @cons x y b bs hx hy ih =>
    rw [List.append_assoc]
    exact .cons hx ih

theorem Many.of_snoc {L : Phrase α} {as : List α} {a : α} (h : Many L u (as ++ [a])) :
    ∃ v w, u = v ++ w ∧ Many L v as ∧ L w a := by
  induction as generalizing u with
  | nil =>
    cases h with
    | @cons v w _ _ hv hw =>
      cases hw
      exact ⟨[], v, by simp, .nil, hv⟩
  | cons b bs ih =>
    cases h with
    | @cons v w _ _ hv hw =>
      obtain ⟨x, y, rfl, hx, hy⟩ := ih hw
      exact ⟨v ++ x, y, by simp, .cons hv hx, hy⟩

/-- An operand with any number of additions, each applied to what stands before it. -/
theorem chain_iff {first : Phrase Expr} {L : Phrase α} {f : Expr → α → Expr} {e : Expr} :
    (do let e ← first; let as ← many L; return as.foldl f e : Phrase Expr) u e ↔
      first u e ∨ ∃ v w x a, u = v ++ w ∧
        (do let e ← first; let as ← many L; return as.foldl f e : Phrase Expr) v x ∧ L w a ∧
          e = f x a := by
  constructor
  · rintro ⟨v, _, x, rfl, hv, w, _, as, rfl, hw, rfl, rfl⟩
    rw [List.append_nil]
    rcases List.eq_nil_or_concat as with rfl | ⟨as, a, rfl⟩
    · cases hw
      exact .inl (by simpa using hv)
    · rw [List.concat_eq_append] at hw ⊢
      obtain ⟨y, z, rfl, hy, hz⟩ := Many.of_snoc hw
      refine .inr ⟨v ++ y, z, as.foldl f x, a, by simp, ?_, hz, by simp⟩
      exact ⟨v, y, x, rfl, hv, y, [], as, by simp, hy, rfl, rfl⟩
  · rintro (h | ⟨v, w, x, a, rfl, ⟨y, _, e₀, rfl, hy, z, _, as, rfl, hz, rfl, rfl⟩, ha, rfl⟩)
    · exact ⟨u, [], e, by simp, h, [], [], [], rfl, .nil, rfl, rfl⟩
    · rw [List.append_nil]
      refine ⟨y, z ++ w, e₀, by simp, hy, z ++ w, [], as ++ [a], by simp, .snoc hz ha, rfl, ?_⟩
      simp

/-! ## Constructions -/

/-- A run of terminals. -/
def terminals (xs : List Terminal) (u : List Lexeme) : Prop :=
  u.map (·.token.terminal?) = xs.map some

theorem terminals_one {x : Terminal} : terminals [x] u ↔ terminal x u () := by
  simp [terminals, terminal, Token.is, List.map_eq_cons_iff]

theorem terminals_cons {x : Terminal} {xs : List Terminal} :
    terminals (x :: xs) u ↔ ∃ l w, u = l :: w ∧ l.token.is x = true ∧ terminals xs w := by
  simp [terminals, Token.is, List.map_eq_cons_iff]

/-- The expressions at a place that asks for some strength of binding. -/
def place (G : Phrases) : Nat → Phrase Expr
  | 0 | 1 => disjunction G
  | 2 => conjunction G
  | 3 => inversion G
  | 4 => comparison G
  | 5 => sum G
  | 6 => term G
  | 7 => factor G
  | _ => primary G

/-- The runs that are put together as the outermost construction of an expression says. -/
def node (G : Phrases) (u : List Lexeme) : Expr → Prop
  | .wildcard => False
  | .column n => name u n
  | .constant (.literal value) => literal u value
  | .constant (.list items) => literalList u (.constant (.list items))
  | .placeholder p => placeholder u p
  | .function n args => ∃ v w, u = v ++ w ∧ name v n ∧ arguments G w args
  | .attribute x n => ∃ v w, u = v ++ w ∧ place G 8 v x ∧ suffix w (.attribute n)
  | .subscript x key => ∃ v w, u = v ++ w ∧ place G 8 v x ∧ suffix w (.subscript key)
  | .unary .not x => (do keyword .not; G.inversion) u x
  | .unary .neg x => (do symbol .minus; G.factor) u x
  | .unary op x => ∃ v w, u = v ++ w ∧ place G 5 v x ∧ terminals op.terminals w
  | .binary left op right =>
    let strength := (Expr.binary left op right).strength
    ∃ v w x, u = v ++ (w ++ x) ∧ place G (if strength = 4 then 5 else strength) v left ∧
      terminals op.terminals w ∧ place G (strength + 1) x right
  | .bool op args =>
    let strength := (Expr.bool op args).strength
    ∃ first others v w, args = first :: others ∧ others ≠ [] ∧ u = v ++ w ∧
      place G (strength + 1) v first ∧ Many (do keyword op.key; place G (strength + 1)) w others
  | .between x lower upper => ∃ v a w b y, u = v ++ (a :: w ++ (b :: y)) ∧ place G 5 v x ∧
      a.token.is (.keyword .between) = true ∧ place G 5 w lower ∧
      b.token.is (.keyword .and) = true ∧ place G 5 y upper
  | .subselect query => G.bare u query

/-- The runs in parentheses and behind a plus sign. -/
def bracketed (G : Phrases) : Phrase Expr := oneOf [
  do
    symbol .leftParen
    let e ← G.expr
    symbol .rightParen
    return e,
  do
    symbol .leftParen
    let query ← G.grouped
    symbol .rightParen
    return .subselect query,
  do
    symbol .plus
    G.factor]

/-! ## One strength after the other -/

variable {G : Phrases} {e : Expr}

theorem atom_iff : atom G u e ↔
    node G u e ∧ e.strength = 8 ∧ (∀ x n, e ≠ .attribute x n) ∧ ∀ x key, e ≠ .subscript x key := by
  simp only [atom, oneOf_cons, oneOf_nil, or_false]
  constructor
  · rintro (⟨v, _, n, rfl, hv, w, _, args, rfl, hw, rfl, rfl⟩ | ⟨v, _, n, rfl, hv, rfl, rfl⟩ |
      ⟨v, _, p, rfl, hv, rfl, rfl⟩ | ⟨v, _, value, rfl, hv, rfl, rfl⟩ | h |
      ⟨v, _, q, rfl, hv, rfl, rfl⟩)
    · rw [List.append_nil]
      exact ⟨⟨v, w, rfl, hv, hw⟩, rfl, by simp, by simp⟩
    · rw [List.append_nil]
      exact ⟨hv, rfl, by simp, by simp⟩
    · rw [List.append_nil]
      exact ⟨hv, rfl, by simp, by simp⟩
    · rw [List.append_nil]
      exact ⟨hv, rfl, by simp [Expr.literal], by simp [Expr.literal]⟩
    · obtain ⟨items, rfl⟩ : ∃ items, e = .constant (.list items) := by
        obtain ⟨_, _, _, rfl, _, _, _, a, rfl, _, _, _, _, rfl, _, _, _, o, rfl, _, _, _, os, rfl,
          _, _, _, _, rfl, _, rfl, rfl⟩ := h
        exact ⟨_, rfl⟩
      exact ⟨h, rfl, by simp, by simp⟩
    · rw [List.append_nil]
      exact ⟨hv, rfl, by simp, by simp⟩
  · rintro ⟨h, hs, ha, hk⟩
    cases e with
    | wildcard => exact absurd h id
    | column n => exact .inr (.inl (seq_pure h))
    | constant value =>
      cases value with
      | literal value => exact .inr (.inr (.inr (.inl (seq_pure h))))
      | list items => exact .inr (.inr (.inr (.inr (.inl h))))
    | placeholder p => exact .inr (.inr (.inl (seq_pure h)))
    | function n args =>
      obtain ⟨v, w, rfl, hv, hw⟩ := h
      exact .inl (seq hv (seq_pure hw))
    | «attribute» x n => exact absurd rfl (ha x n)
    | subscript x key => exact absurd rfl (hk x key)
    | unary op x => cases op <;> cases hs
    | binary l op r => cases op <;> cases hs
    | bool op args => cases op <;> cases hs
    | between x l r => cases hs
    | subselect q => exact .inr (.inr (.inr (.inr (.inr (seq_pure h)))))

/-- A primary is put together as its tree says. -/
theorem primary_iff : primary G u e ↔ e.strength = 8 ∧ node G u e := by
  refine chain_iff.trans ?_
  constructor
  · rintro (h | ⟨v, w, x, s, rfl, hv, hw, rfl⟩)
    · obtain ⟨h, hs, -⟩ := atom_iff.mp h
      exact ⟨hs, h⟩
    · cases s with
      | «attribute» n => exact ⟨rfl, v, w, rfl, hv, hw⟩
      | subscript key => exact ⟨rfl, v, w, rfl, hv, hw⟩
  · rintro ⟨hs, h⟩
    by_cases ha : (∀ x n, e ≠ .attribute x n) ∧ ∀ x key, e ≠ .subscript x key
    · exact .inl (atom_iff.mpr ⟨h, hs, ha⟩)
    · right
      cases e with
      | «attribute» x n =>
        obtain ⟨v, w, rfl, hv, hw⟩ := h
        exact ⟨v, w, x, .attribute n, rfl, hv, hw, rfl⟩
      | subscript x key =>
        obtain ⟨v, w, rfl, hv, hw⟩ := h
        exact ⟨v, w, x, .subscript key, rfl, hv, hw, rfl⟩
      | _ => exact absurd ⟨by simp, by simp⟩ ha

/-- A factor stands in parentheses or behind a sign, or is a primary. -/
theorem factor_iff : factor G u e ↔ bracketed G u e ∨ 7 ≤ e.strength ∧ node G u e := by
  simp only [factor, bracketed, oneOf_cons, oneOf_nil, or_false, primary_iff]
  constructor
  · rintro (h | h | ⟨v, _, _, rfl, hv, w, _, x, rfl, hw, rfl, rfl⟩ | h | ⟨hs, h⟩)
    · exact .inl (.inl h)
    · exact .inl (.inr (.inl h))
    · rw [List.append_nil]
      exact .inr ⟨Nat.le_refl 7, v, w, (), rfl, hv, hw⟩
    · exact .inl (.inr (.inr h))
    · exact .inr ⟨by omega, h⟩
  · rintro ((h | h | h) | ⟨hs, h⟩)
    · exact .inl h
    · exact .inr (.inl h)
    · exact .inr (.inr (.inr (.inl h)))
    · cases e with
      | unary op x =>
        cases op with
        | neg =>
          obtain ⟨v, w, _, rfl, hv, hw⟩ := h
          exact .inr (.inr (.inl (seq hv (seq_pure hw))))
        | _ => exact absurd hs (by simp [Expr.strength])
      | binary l op r => cases op <;> exact absurd hs (by simp [Expr.strength])
      | bool op args => cases op <;> exact absurd hs (by simp [Expr.strength])
      | between x l r => exact absurd hs (by simp [Expr.strength])
      | _ => exact .inr (.inr (.inr (.inr ⟨rfl, h⟩)))

/-- Operands of a family of operators, by the last operator. -/
theorem leftGrouped_iff {family : Symbol → Option BinaryOp} {operand : Phrase Expr} :
    leftGrouped family operand u e ↔ operand u e ∨ ∃ v w x left op right, u = v ++ (w ++ x) ∧
      leftGrouped family operand v left ∧ operator family w op ∧ operand x right ∧
        e = .binary left op right := by
  refine chain_iff.trans (or_congr_right ?_)
  constructor
  · rintro ⟨v, _, left, _, rfl, hv, ⟨w, _, op, rfl, hw, x, _, right, rfl, hx, rfl, rfl⟩, rfl⟩
    exact ⟨v, w, x, left, op, right, by simp, hv, hw, hx, rfl⟩
  · rintro ⟨v, w, x, left, op, right, rfl, hv, hw, hx, rfl⟩
    exact ⟨v, w ++ x, left, (op, right), rfl, hv, seq hw (seq_pure hx), rfl⟩

theorem multiplicative_iff {op : BinaryOp} :
    operator BinaryOp.ofMultiplicative? u op ↔
      op ∈ [BinaryOp.mul, .div, .mod] ∧ terminals op.terminals u := by
  rw [operator_iff]
  constructor
  · rintro ⟨l, s, rfl, hl, hs⟩
    cases s <;> simp [BinaryOp.ofMultiplicative?] at hs <;> subst hs <;>
      simp [terminals, BinaryOp.terminals, Token.terminal?, hl]
  · rintro ⟨hop, h⟩
    simp only [List.mem_cons, List.not_mem_nil, or_false] at hop
    rcases hop with rfl | rfl | rfl <;>
    · obtain ⟨l, rfl, hl⟩ := terminals_one.mp h
      exact ⟨l, _, rfl, Token.is_symbol_iff.mp hl, rfl⟩

theorem additive_iff {op : BinaryOp} :
    operator BinaryOp.ofAdditive? u op ↔
      op ∈ [BinaryOp.add, .sub] ∧ terminals op.terminals u := by
  rw [operator_iff]
  constructor
  · rintro ⟨l, s, rfl, hl, hs⟩
    cases s <;> simp [BinaryOp.ofAdditive?] at hs <;> subst hs <;>
      simp [terminals, BinaryOp.terminals, Token.terminal?, hl]
  · rintro ⟨hop, h⟩
    simp only [List.mem_cons, List.not_mem_nil, or_false] at hop
    rcases hop with rfl | rfl <;>
    · obtain ⟨l, rfl, hl⟩ := terminals_one.mp h
      exact ⟨l, _, rfl, Token.is_symbol_iff.mp hl, rfl⟩

theorem comparisonOperator_iff {op : BinaryOp} :
    comparisonOperator u op ↔ op.isComparison = true ∧ terminals op.terminals u := by
  simp only [comparisonOperator, oneOf_cons, oneOf_nil, or_false]
  constructor
  · rintro (h | ⟨v, _, _, rfl, hv, rfl, rfl⟩ |
      ⟨_, _, _, rfl, ⟨l, rfl, hl⟩, _, _, _, rfl, ⟨m, rfl, hm⟩, rfl, rfl⟩)
    · obtain ⟨l, s, rfl, hl, hs⟩ := operator_iff.mp h
      cases s <;> simp [BinaryOp.ofComparison?] at hs <;> subst hs <;>
        simp [terminals, BinaryOp.terminals, Token.terminal?, hl, BinaryOp.isComparison]
    · rw [List.append_nil]
      exact ⟨rfl, terminals_one.mpr hv⟩
    · exact ⟨rfl, terminals_cons.mpr ⟨l, _, rfl, hl, terminals_cons.mpr ⟨m, _, rfl, hm, rfl⟩⟩⟩
  · rintro ⟨hop, h⟩
    cases op
    case isIn =>
      exact .inr (.inl (seq_pure (terminals_one.mp h)))
    case notIn =>
      obtain ⟨l, w, rfl, hl, h⟩ := terminals_cons.mp h
      exact .inr (.inr (seq (single hl) (seq_pure (terminals_one.mp h))))
    all_goals first
      | exact absurd hop (by decide)
      | obtain ⟨l, rfl, hl⟩ := terminals_one.mp h
        exact .inl (operator_iff.mpr ⟨l, _, rfl, Token.is_symbol_iff.mp hl, rfl⟩)

/-- A term is a factor or ends in a multiplication. -/
theorem term_iff : term G u e ↔ factor G u e ∨ e.strength = 6 ∧ node G u e := by
  refine leftGrouped_iff.trans (or_congr_right ?_)
  constructor
  · rintro ⟨v, w, x, left, op, right, rfl, hv, hw, hx, rfl⟩
    obtain ⟨hop, hw⟩ := multiplicative_iff.mp hw
    simp only [List.mem_cons, List.not_mem_nil, or_false] at hop
    rcases hop with rfl | rfl | rfl <;> exact ⟨rfl, v, w, x, rfl, hv, hw, hx⟩
  · rintro ⟨hs, h⟩
    cases e with
    | unary op x => cases op <;> cases hs
    | binary left op right =>
      obtain ⟨v, w, x, rfl, hv, hw, hx⟩ := h
      refine ⟨v, w, x, left, op, right, rfl, ?_⟩
      cases op <;> first
        | exact ⟨hv, multiplicative_iff.mpr ⟨by simp, hw⟩, hx, rfl⟩
        | cases hs
    | bool op args => cases op <;> cases hs
    | _ => cases hs

/-- A sum is a term or ends in an addition. -/
theorem sum_iff : sum G u e ↔ term G u e ∨ e.strength = 5 ∧ node G u e := by
  refine leftGrouped_iff.trans (or_congr_right ?_)
  constructor
  · rintro ⟨v, w, x, left, op, right, rfl, hv, hw, hx, rfl⟩
    obtain ⟨hop, hw⟩ := additive_iff.mp hw
    simp only [List.mem_cons, List.not_mem_nil, or_false] at hop
    rcases hop with rfl | rfl <;> exact ⟨rfl, v, w, x, rfl, hv, hw, hx⟩
  · rintro ⟨hs, h⟩
    cases e with
    | unary op x => cases op <;> cases hs
    | binary left op right =>
      obtain ⟨v, w, x, rfl, hv, hw, hx⟩ := h
      refine ⟨v, w, x, left, op, right, rfl, ?_⟩
      cases op <;> first
        | exact ⟨hv, additive_iff.mpr ⟨by simp, hw⟩, hx, rfl⟩
        | cases hs
    | bool op args => cases op <;> cases hs
    | _ => cases hs

theorem nullTest_iff {op : UnaryOp} : (do
      keyword .is
      let negated ← flag (.keyword .not)
      keyword .null
      return if negated then .isNotNull else .isNull : Phrase UnaryOp) u op ↔
    op ∈ [UnaryOp.isNull, .isNotNull] ∧ terminals op.terminals u := by
  constructor
  · rintro ⟨_, _, _, rfl, ⟨l, rfl, hl⟩, v, _, negated, rfl, hv, w, _, _, rfl, ⟨m, rfl, hm⟩, rfl, rfl⟩
    cases negated with
    | false =>
      obtain rfl : v = [] := hv
      exact ⟨by simp, terminals_cons.mpr ⟨l, _, rfl, hl, terminals_cons.mpr ⟨m, _, rfl, hm, rfl⟩⟩⟩
    | true =>
      obtain ⟨n, rfl, hn⟩ := hv
      exact ⟨by simp, terminals_cons.mpr ⟨l, _, rfl, hl, terminals_cons.mpr ⟨n, _, rfl, hn,
        terminals_cons.mpr ⟨m, _, rfl, hm, rfl⟩⟩⟩⟩
  · rintro ⟨hop, h⟩
    simp only [List.mem_cons, List.not_mem_nil, or_false] at hop
    rcases hop with rfl | rfl
    · obtain ⟨l, w, rfl, hl, h⟩ := terminals_cons.mp h
      exact seq (single hl) (seq (v := []) (a := false) rfl (seq_pure (terminals_one.mp h)))
    · obtain ⟨l, w, rfl, hl, h⟩ := terminals_cons.mp h
      obtain ⟨n, w, rfl, hn, h⟩ := terminals_cons.mp h
      exact seq (single hl) (seq (v := [n]) (a := true) (single hn) (seq_pure (terminals_one.mp h)))

/-- A comparison is a sum or compares sums. -/
theorem comparison_iff : comparison G u e ↔ sum G u e ∨ e.strength = 4 ∧ node G u e := by
  simp only [comparison, oneOf_cons, oneOf_nil, or_false]
  refine or_congr_right ?_
  constructor
  · rintro (⟨v, _, left, rfl, hv, w, _, op, rfl, hw, x, _, right, rfl, hx, rfl, rfl⟩ |
      ⟨v, _, x, rfl, hv, a, _, _, rfl, ha, b, _, negated, rfl, hb, c, _, _, rfl, hc, rfl, rfl⟩ |
      ⟨v, _, x, rfl, hv, _, _, _, rfl, ⟨a, rfl, ha⟩, w, _, lower, rfl, hw, _, _, _, rfl, ⟨b, rfl, hb⟩,
        y, _, upper, rfl, hy, rfl, rfl⟩)
    · obtain ⟨hop, hw⟩ := comparisonOperator_iff.mp hw
      have hs : (Expr.binary left op right).strength = 4 := by
        cases op <;> first | rfl | cases hop
      refine ⟨hs, v, w, x, by simp, ?_, hw, ?_⟩
      · rw [if_pos hs]
        exact hv
      · rw [hs]
        exact hx
    · rw [List.append_nil]
      obtain ⟨hop, hw⟩ := nullTest_iff.mp (seq ha (seq (a := negated) hb (seq_pure hc)))
      cases negated <;> exact ⟨rfl, v, _, rfl, hv, hw⟩
    · exact ⟨rfl, v, a, w, b, y, by simp, hv, ha, hw, hb, hy⟩
  · rintro ⟨hs, h⟩
    cases e with
    | unary op x =>
      have hnull : op ∈ [UnaryOp.isNull, .isNotNull] → ∃ v w, u = v ++ w ∧ sum G v x ∧
          terminals op.terminals w := fun hop => by
        cases op <;> first | exact h | simp at hop
      have hop : op ∈ [UnaryOp.isNull, .isNotNull] := by
        cases op <;> first | cases hs; done | simp
      obtain ⟨v, w, rfl, hv, hw⟩ := hnull hop
      obtain ⟨a, _, _, rfl, ha, b, _, negated, rfl, hb, c, _, _, rfl, hc, rfl, rfl⟩ :=
        nullTest_iff.mpr ⟨hop, hw⟩
      rw [List.append_nil]
      exact .inr (.inl (seq hv (seq ha (seq hb (seq_pure hc)))))
    | binary left op right =>
      obtain ⟨v, w, x, rfl, hv, hw, hx⟩ := h
      rw [if_pos hs] at hv
      rw [hs] at hx
      refine .inl (seq hv (seq (comparisonOperator_iff.mpr ⟨?_, hw⟩) (seq_pure hx)))
      cases op <;> first | rfl | cases hs
    | between x lower upper =>
      obtain ⟨v, a, w, b, y, rfl, hv, ha, hw, hb, hy⟩ := h
      refine .inr (.inr ?_)
      rw [List.cons_append]
      exact seq hv (seq (v := [a]) (single ha) (seq hw (seq (v := [b]) (single hb) (seq_pure hy))))
    | bool op args => cases op <;> cases hs
    | _ => cases hs

/-- An inversion is a comparison or begins with `NOT`. -/
theorem inversion_iff : inversion G u e ↔ comparison G u e ∨ e.strength = 3 ∧ node G u e := by
  simp only [inversion, oneOf_cons, oneOf_nil, or_false]
  rw [or_comm]
  refine or_congr_right ?_
  constructor
  · rintro ⟨v, _, _, rfl, hv, w, _, x, rfl, hw, rfl, rfl⟩
    rw [List.append_nil]
    exact ⟨rfl, v, w, (), rfl, hv, hw⟩
  · rintro ⟨hs, h⟩
    cases e with
    | unary op x =>
      cases op with
      | not =>
        obtain ⟨v, w, _, rfl, hv, hw⟩ := h
        exact seq hv (seq_pure hw)
      | _ => cases hs
    | binary left op right => cases op <;> cases hs
    | bool op args => cases op <;> cases hs
    | _ => cases hs

/-- Operands of a connective are one operand alone, or two and more. -/
theorem connected_iff {op : BoolOp} {operand : Phrase Expr} :
    connected op operand u e ↔ operand u e ∨ ∃ first others v w, e = .bool op (first :: others) ∧
      others ≠ [] ∧ u = v ++ w ∧ operand v first ∧ Many (do keyword op.key; operand) w others := by
  constructor
  · rintro ⟨v, _, first, rfl, hv, w, _, others, rfl, hw, rfl, rfl⟩
    rw [List.append_nil]
    cases others with
    | nil =>
      cases hw
      exact .inl (by simpa [joined] using hv)
    | cons second others => exact .inr ⟨first, _, v, w, rfl, by simp, rfl, hv, hw⟩
  · rintro (h | ⟨first, others, v, w, rfl, hne, rfl, hv, hw⟩)
    · exact ⟨u, [], e, by simp, h, [], [], [], rfl, .nil, rfl, rfl⟩
    · obtain ⟨second, others, rfl⟩ := List.exists_cons_of_ne_nil hne
      exact seq hv (seq_pure (f := joined op first) hw)

/-- A conjunction is an inversion or has several operands. -/
theorem conjunction_iff : conjunction G u e ↔ inversion G u e ∨ e.strength = 2 ∧ node G u e := by
  refine connected_iff.trans (or_congr_right ?_)
  constructor
  · rintro ⟨first, others, v, w, rfl, hne, rfl, hv, hw⟩
    exact ⟨rfl, first, others, v, w, rfl, hne, rfl, hv, hw⟩
  · rintro ⟨hs, h⟩
    cases e with
    | unary op x => cases op <;> cases hs
    | binary left op right => cases op <;> cases hs
    | bool op args =>
      cases op with
      | or => cases hs
      | and =>
        obtain ⟨first, others, v, w, rfl, hne, rfl, hv, hw⟩ := h
        exact ⟨first, others, v, w, rfl, hne, rfl, hv, hw⟩
    | _ => cases hs

/-- A disjunction is a conjunction or has several operands. -/
theorem disjunction_iff : disjunction G u e ↔ conjunction G u e ∨ e.strength = 1 ∧ node G u e := by
  refine connected_iff.trans (or_congr_right ?_)
  constructor
  · rintro ⟨first, others, v, w, rfl, hne, rfl, hv, hw⟩
    exact ⟨rfl, first, others, v, w, rfl, hne, rfl, hv, hw⟩
  · rintro ⟨hs, h⟩
    cases e with
    | unary op x => cases op <;> cases hs
    | binary left op right => cases op <;> cases hs
    | bool op args =>
      cases op with
      | and => cases hs
      | or =>
        obtain ⟨first, others, v, w, rfl, hne, rfl, hv, hw⟩ := h
        exact ⟨first, others, v, w, rfl, hne, rfl, hv, hw⟩
    | _ => cases hs

/-- What a place takes: runs in parentheses or behind a plus sign, and expressions that bind as
strongly as it asks for. -/
theorem place_iff {m : Nat} (hm : m ≤ 7) :
    place G m u e ↔ bracketed G u e ∨ m ≤ e.strength ∧ node G u e := by
  have hpos := e.strength_pos
  have h₇ : place G 7 u e ↔ bracketed G u e ∨ 7 ≤ e.strength ∧ node G u e := factor_iff
  have step : ∀ k, (place G k u e ↔ place G (k + 1) u e ∨ e.strength = k ∧ node G u e) →
      (place G (k + 1) u e ↔ bracketed G u e ∨ k + 1 ≤ e.strength ∧ node G u e) →
      (place G k u e ↔ bracketed G u e ∨ k ≤ e.strength ∧ node G u e) := by
    intro k h₁ h₂
    have hk : k ≤ e.strength ↔ k + 1 ≤ e.strength ∨ e.strength = k := by omega
    rw [h₁, h₂, hk, or_and_right, or_assoc]
  have h₆ := step 6 term_iff h₇
  have h₅ := step 5 sum_iff h₆
  have h₄ := step 4 comparison_iff h₅
  have h₃ := step 3 inversion_iff h₄
  have h₂ := step 2 conjunction_iff h₃
  have h₁ := step 1 disjunction_iff h₂
  match m, hm with
  | 0, _ => exact h₁.trans (or_congr_right (and_congr_left fun _ => by omega))
  | 1, _ => exact h₁
  | 2, _ => exact h₂
  | 3, _ => exact h₃
  | 4, _ => exact h₄
  | 5, _ => exact h₅
  | 6, _ => exact h₆
  | 7, _ => exact h₇

/-- What stands at a place stands in parentheses or behind a plus sign, or is put together there. -/
theorem of_place {m : Nat} (hm : m ≤ 8) (h : place G m u e) :
    bracketed G u e ∨ m ≤ e.strength ∧ node G u e := by
  by_cases h₈ : m = 8
  · subst h₈
    obtain ⟨hs, hn⟩ := primary_iff.mp h
    exact .inr ⟨Nat.le_of_eq hs.symm, hn⟩
  · exact (place_iff (by omega)).mp h

/-! ## Filters, part by part -/

/-- A filter has its parts in order, at least one, and its expression begins like none of the others. -/
theorem entryFilter_iff {f : EntryFilter} : entryFilter G u f ↔
    (f.expression.isSome ∨ f.openOn.isSome ∨ f.close.isSome ∨ f.clear) ∧ ∃ v w x y,
      u = v ++ (w ++ (x ++ y)) ∧ optional (G.expr.such fun u => ¬ BeginsWithModifier u) v f.expression ∧
        optional opening w f.openOn ∧ optional closing x f.close ∧ flag (.keyword .clear) y f.clear := by
  simp only [entryFilter, oneOf_cons, oneOf_nil, or_false]
  constructor
  · rintro (⟨w, _, d, rfl, hw, x, _, c, rfl, hx, y, _, b, rfl, hy, rfl, rfl⟩ |
      ⟨x, _, c, rfl, hx, y, _, b, rfl, hy, rfl, rfl⟩ | ⟨y, _, _, rfl, hy, rfl, rfl⟩ |
      ⟨v, _, e, rfl, hv, w, _, d, rfl, hw, x, _, c, rfl, hx, y, _, b, rfl, hy, rfl, rfl⟩)
    · exact ⟨by simp, [], w, x, y, by simp, rfl, hw, hx, hy⟩
    · exact ⟨by simp, [], [], x, y, by simp, rfl, rfl, hx, hy⟩
    · exact ⟨by simp, [], [], [], y, by simp, rfl, rfl, rfl, hy⟩
    · exact ⟨by simp, v, w, x, y, by simp, hv, hw, hx, hy⟩
  · obtain ⟨expression, openOn, close, clear⟩ := f
    rintro ⟨hpart, v, w, x, y, rfl, hv, hw, hx, hy⟩
    cases expression with
    | some e => exact .inr (.inr (.inr (seq hv (seq hw (seq hx (seq_pure hy))))))
    | none =>
      obtain rfl : v = [] := hv
      cases openOn with
      | some d => exact .inl (seq (v := w) hw (seq hx (seq_pure hy)))
      | none =>
        obtain rfl : w = [] := hw
        cases close with
        | some c => exact .inr (.inl (seq (v := x) hx (seq_pure hy)))
        | none =>
          obtain rfl : x = [] := hx
          cases clear with
          | true => exact .inr (.inr (.inl (seq_pure (of_flag hy))))
          | false => simp at hpart

end Phrase

end LedgerQuery
