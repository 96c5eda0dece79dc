import LedgerQuery.Proofs.Reading.Carries

/-!
# Reading expressions around a pair of parentheses

The readers of expressions carry the parentheses, if the readers one nesting level deeper do
(`Nested.Carries`).  The readers that look further than at the next token see no parenthesis instead of what
they look for.  A target begins after `SELECT`, `DISTINCT` or a comma, and a call, a list of literals or an
integer key begin with none of these.
-/

namespace LedgerQuery

open Token LedgerQuery.Parser

/-- Whether the readers one nesting level deeper carry the parentheses, where `Q` says of a query that none of
its own targets was read from the run. -/
structure Nested.Carries (g : Enclosure) (Q : Select → Prop) (G H : Nested) : Prop where
  /-- They see as far as readers do. -/
  sees : G.Sees True H
  /-- In expressions. -/
  expr : ∀ {P}, LedgerQuery.Carries g P (Expr.All (fun _ => True) Q) (Like True Expr.plain) G.expr H.expr
  /-- In operands of `NOT`. -/
  inversion : ∀ {P}, LedgerQuery.Carries g P (Expr.All (fun _ => True) Q) (Like True Expr.plain) G.inversion
    H.inversion
  /-- In operands of signs. -/
  factor : ∀ {P}, LedgerQuery.Carries g P (Expr.All (fun _ => True) Q) (Like True Expr.plain) G.factor H.factor
  /-- In queries. -/
  select : ∀ {P}, LedgerQuery.Carries g P (Select.All (fun _ => True) Q) (Like True Select.plain) G.select H.select

/-- An expression without parts holds no query. -/
theorem Expr.All.of_leaf {p : Expr → Prop} {q : Select → Prop} {e : Expr} (he : p e) (hparts : e.parts = [])
    (hs : ∀ s, e ≠ .subselect s) : e.All p q := .of_parts he (by simp [hparts]) hs

/-- A target begins after no name. -/
theorem Token.isName_is {t : Token} (ht : t.isName = true) : ∀ x ∈ targetStarts, t.is x = false := by
  cases t with
  | keyword k written => cases k <;> first | cases ht; done | simp [targetStarts, is, terminal?]
  | ident => exact fun _ _ => rfl
  | _ => cases ht

namespace Carries

variable {g : Enclosure} {P : Prop} {Q : Select → Prop}

/-! ## Operators and connectives -/

section
variable {p q : Parser Expr}
  (h : ∀ {P}, Carries g P (Expr.All (fun _ => True) Q) (Like True Expr.plain) p q)
include h

theorem operation? (family : Symbol → Option BinaryOp) (hf : family .rightParen = none) :
    Carries g P (fun o => ∀ a ∈ o, a.2.All (fun _ => True) Q) (Option.Rel (Like.Operation True))
      (Parser.operation? family p) (Parser.operation? family q) := by
  refine fun s => .peek (Sees.operation? family (h (P := True)).sees (fun _ => hf) s) fun hP => ?_
  cases hn : nextOf s.rest with
  | symbol x =>
    dsimp only
    split
    · exact (CarriesAt.andThen (P := P) (SeesAt.advance (by simp [hn])) fun _ s₁ _ =>
        bind h (fun _ _ he => pure (.some ⟨rfl, he⟩) fun hV => by simpa using hV.2) s₁).wraps hP
    · exact (pure (P := P) .none (fun _ => by simp) s).wraps hP
  | _ => exact (pure (P := P) .none (fun _ => by simp) s).wraps hP

theorem leftGrouped (family : Symbol → Option BinaryOp) (hf : family .rightParen = none) :
    Carries g P (Expr.All (fun _ => True) Q) (Like True Expr.plain) (Parser.leftGrouped family p)
      (Parser.leftGrouped family q) :=
  bind h fun _ _ he => bind (many (operation? h family hf) (Sees.operation?_moves (h (P := True)).sees))
    fun _ _ hs => pure (he.operations hs) fun hV => hV.1.2.operations hV.2

theorem connected (op : BoolOp) :
    Carries g P (Expr.All (fun _ => True) Q) (Like True Expr.plain) (Parser.connected op p)
      (Parser.connected op q) := by
  refine bind h fun _ _ he => bind (many (afterQuietly h)
    (h (P := True)).sees.afterQuietly_moves) fun _ _ hs => ?_
  cases hs with
  | nil => exact pure he fun hV => hV.1.2
  | cons he' hs =>
    exact pure (.bool op (.cons he (.cons he' hs))) fun ⟨⟨_, he⟩, hes⟩ =>
      .of_parts trivial (by simpa [Expr.parts] using ⟨he, by simpa using hes⟩) (by simp)

end

/-! ## Atoms -/

section
variable {G H : Nested} (h : G.Carries g Q H)
include h

theorem arguments : Carries g P (fun es => ∀ e ∈ es, e.All (fun _ => True) Q) (List.Forall₂ (Like True Expr.plain))
    (Parser.arguments G) (Parser.arguments H) := by
  refine andThen (Sees.expect _) fun _ => andThen (Sees.accept _) fun b => ?_
  split
  · refine andThen (Sees.expect _) fun _ => pure (.cons (.refl _) .nil) fun _ e he => ?_
    obtain rfl := List.mem_singleton.mp he
    exact .of_leaf trivial rfl (by simp)
  · refine accept_bind (fun b => ?_) ((Sees.commaList_moves h.sees.expr h.sees.exprMoves).bind fun _ =>
      Sees.andThen (w := True) (Sees.expect _) fun _ => Sees.pure (E := Eq) rfl)
    split
    · exact pure .nil fun _ => by simp
    · exact bind (commaList h.expr) fun _ _ hs => andThen (Sees.expect _) fun _ => pure hs fun hV => hV.2

/-- A name that begins a call or not. -/
theorem nameThen (b : Bool) : Carries g P (Expr.All (fun _ => True) Q) (Like True Expr.plain)
    (do
      let name ← Parser.name
      if b = true then return .function name (← Parser.arguments G) else return .column name)
    (do
      let name ← Parser.name
      if b = true then return .function name (← Parser.arguments H) else return .column name) := by
  refine andThen Sees.name fun n => ?_
  split
  · exact bind (arguments h) fun _ _ hs => pure (.function n hs) fun hV => .of_parts trivial hV.2 (by simp)
  · exact pure (.refl _) fun _ => .of_leaf trivial rfl (by simp)

theorem nameOrCall {s : Input} (hs : (nextOf s.rest).isName = true) :
    CarriesAt g P (Expr.All (fun _ => True) Q) (Like True Expr.plain) s (Parser.nameOrCall G) (Parser.nameOrCall H) := by
  refine ⟨Sees.nameOrCall h.sees s, fun hP => .look (v := fun s => s.nth 1) (fun _ => rfl)
    ((nameThen (P := P) h _ s).wraps hP) fun pre s' hpre hsuffix hr hr' => ?_⟩
  have hlen := Enclosure.two_le_length hsuffix hr hpre (Token.isName_is hs)
  rw [Enclosure.nth_eq hr hr' hlen]

theorem atom : Carries g P (Expr.All (fun _ => True) Q) (Like True Expr.plain) (Parser.atom G) (Parser.atom H) := by
  have hconstant : ∀ c, (Expr.constant c).All (fun _ => True) Q := fun c => .of_leaf trivial rfl (by simp)
  refine fun s => .peek (Sees.atom h.sees s) fun hP => ?_
  split
  · refine (bind (P := P) h.select (fun q _ hq => pure (.subselect hq) fun hV => ?_) s).wraps hP
    refine .mk trivial (by simp [Expr.parts]) ?_
    rintro _ ⟨⟩
    exact hV.2
  · split
    · next hn => exact (nameOrCall (P := P) h hn).wraps hP
    · split
      · intro e t _ ht
        obtain rfl := take_ok_eq ht
        exact .inl (.of_leaf trivial rfl (by simp))
      · refine (andThen (P := P) (Sees.expect _) (fun _ => andThen Sees.literal? fun o => ?_) s).wraps hP
        split
        · exact andThen (Sees.many_eq (Sees.after_eq _ Sees.listItem) (Sees.listItem (w := True)).after_moves)
            fun _ => andThen (Sees.expect _) fun _ => pure (.refl _) fun _ => hconstant _
        · exact missing
      · refine (andThen (P := P) Sees.literal? (fun o => ?_) s).wraps hP
        split
        · exact pure (.refl _) fun _ => hconstant _
        · exact missing

/-! ## Arithmetic -/

theorem primary : Carries g P (Expr.All (fun _ => True) Q) (Like True Expr.plain) (Parser.primary G)
    (Parser.primary H) :=
  bind (atom h) fun _ _ he => andThen (Sees.many_eq Sees.suffix? Sees.suffix?_moves) fun ss =>
    pure (he.suffixes ss) fun hV => hV.2.suffixes ss

theorem factor : Carries g P (Expr.All (fun _ => True) Q) (Like True Expr.plain) (Parser.factor G)
    (Parser.factor H) := by
  have hunary : ∀ {op e}, e.All (fun _ => True) Q → (Expr.unary op e).All (fun _ => True) Q := fun he =>
    .of_parts trivial (by simpa [Expr.parts] using he) (by simp)
  refine fun s => .peek (Sees.factor h.sees s) fun hP => ?_
  split
  · next hn =>
    refine .look Sees.atList_eq ?_ fun pre s' hpre hsuffix hs hs' => ?_
    · split
      · exact (primary (P := P) h s).wraps hP
      · refine (CarriesAt.andThen (P := P) (SeesAt.advance (by simp [hn])) fun _ s₁ _ => ?_).wraps hP
        exact bind h.expr (fun _ _ he => andThen (Sees.expect _) fun _ => pure he fun hV => hV.2) s₁
    · -- a comma, not the run, would be the third token
      have hlen := Enclosure.two_le_length hsuffix hs hpre (by rw [hn]; decide)
      have hcomma : ∀ t : Token, t.opensExpr = true → t.is (.symbol .comma) = false := fun t ht => by
        rw [← Bool.not_eq_true]
        intro hc
        rw [is_symbol_iff.mp hc] at ht
        cases ht
      rw [Enclosure.nth_eq hs hs' (n := 0) (by omega), Enclosure.nth_eq hs hs' (n := 1) (by omega),
        Enclosure.nth_is_eq hs hs' hlen hcomma]
  · next hn =>
    exact (CarriesAt.andThen (P := P) (SeesAt.advance (by simp [hn])) fun _ s₁ _ =>
      bind h.factor (fun _ _ he => pure (.unary .neg he) fun hV => hunary hV.2) s₁).wraps hP
  · next hn =>
    exact (CarriesAt.andThen (P := P) (SeesAt.advance (by simp [hn])) fun _ s₁ _ => h.factor s₁).wraps hP
  · exact (primary (P := P) h s).wraps hP

theorem sum : Carries g P (Expr.All (fun _ => True) Q) (Like True Expr.plain) (Parser.sum G) (Parser.sum H) :=
  leftGrouped (leftGrouped (factor h) _ rfl) _ rfl

/-! ## Truth values -/

theorem compared {left left' : Expr} (hl : Like True Expr.plain left left') (hV : P → left.All (fun _ => True) Q)
    (c : Comparison) : Carries g P (Expr.All (fun _ => True) Q) (Like True Expr.plain) (Parser.compared G left c)
      (Parser.compared H left' c) := by
  cases c with
  | binary op =>
    exact bind (sum h) fun _ _ hr => pure (hl.binary op hr) fun ⟨hP, hright⟩ =>
      .of_parts trivial (by simpa [Expr.parts] using ⟨hV hP, hright⟩) (by simp)
  | null op => exact pure (hl.unary op) fun hP => .of_parts trivial (by simpa [Expr.parts] using hV hP) (by simp)
  | between =>
    exact bind (sum h) fun _ _ ha => andThen (Sees.expect _) fun _ => bind (sum h) fun _ _ hb =>
      pure (hl.between ha hb) fun ⟨⟨hP, hlower⟩, hupper⟩ =>
        .of_parts trivial (by simpa [Expr.parts] using ⟨hV hP, hlower, hupper⟩) (by simp)

omit h in
/-- What is found, unless a comparison follows. -/
theorem unlessComparison {e e' : Expr} {f : Fault} (he : Like True Expr.plain e e')
    (hV : P → e.All (fun _ => True) Q) : Carries g P (Expr.All (fun _ => True) Q) (Like True Expr.plain)
      (do if ← atComparison then Parser.fail f else return e)
      (do if ← atComparison then Parser.fail f else return e') := by
  refine fun s => .of_sees (Sees.unlessComparison he s) fun hP a t hs => ?_
  rw [unlessComparison_eq] at hs
  split at hs
  · cases hs
  · obtain ⟨rfl, -⟩ := Prod.mk.inj (Except.ok.inj hs)
    exact hV hP

theorem comparison : Carries g P (Expr.All (fun _ => True) Q) (Like True Expr.plain) (Parser.comparison G)
    (Parser.comparison H) := by
  refine bind (sum h) fun _ _ hl => andThen Sees.comparison? fun o => ?_
  split
  · exact pure hl fun hV => hV.2
  · exact bind (compared h hl (fun hV => hV.2) _) fun _ _ he => unlessComparison he fun hV => hV.2

theorem inversion : Carries g P (Expr.All (fun _ => True) Q) (Like True Expr.plain) (Parser.inversion G)
    (Parser.inversion H) := by
  refine andThen (Sees.acceptQuietly _) fun b => ?_
  split
  · exact bind h.inversion fun _ _ he => pure (.unary .not he) fun hV =>
      .of_parts trivial (by simpa [Expr.parts] using hV.2) (by simp)
  · exact comparison h

theorem disjunction : Carries g P (Expr.All (fun _ => True) Q) (Like True Expr.plain) (Parser.disjunction G)
    (Parser.disjunction H) := connected (connected (inversion h) _) _

end

end Carries

end LedgerQuery
