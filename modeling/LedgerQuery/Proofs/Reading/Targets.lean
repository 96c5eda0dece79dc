import LedgerQuery.Proofs.Lexing.Longest
import LedgerQuery.Proofs.Reading.LookaheadSelect

/-!
# Where targets are read

Every list of targets in a tree that is parsed was read from a run of the lexemes: target by target, with
one comma between two of them (`TargetsAt`).

After a target there may be any token but two, a `NOT` that dangles and a placeholder.  A reader may stop
before them, but then all readers that go on from there stop before them too (`Stays`), and the text is not
parsed.  So a reader either stops before such a token, or all lists of targets in what it found are where
they should be (`Yields`).
-/

namespace LedgerQuery

open Token LedgerQuery.Parser

variable {α β γ : Type}

/-! ## Targets and their runs -/

/-- Whether a token is next that nothing goes on with: a `NOT` that dangles, or a placeholder. -/
def Blocked (rest : List Lexeme) : Prop := Dangling rest ∨ ∃ p, nextOf rest = .placeholder p

/-- The terminals that a target begins after. -/
def targetStarts : List Terminal := [.keyword .select, .keyword .distinct, .symbol .comma]

/-- Whether some lexemes end where a target begins. -/
def BeforeTarget (before : List Lexeme) : Prop :=
  ∃ l ∈ before.getLast?, ∃ x ∈ targetStarts, l.token.is x = true

/-- No terminal but `NOT` is next. -/
theorem Blocked.is_eq_false {rest : List Lexeme} (h : Blocked rest) {x : Terminal} (hx : x ≠ .keyword .not) :
    (nextOf rest).is x = false := by
  rcases h with h | ⟨p, hn⟩
  · exact h.is_eq_false hx
  · rw [hn]
    rfl

theorem BeforeTarget.concat {before : List Lexeme} {l : Lexeme} {x : Terminal} (h : l.token.is x = true)
    (hx : x ∈ targetStarts) :
    BeforeTarget (before ++ [l]) := ⟨l, by simp, x, hx, h⟩

/-- A target begins after no operand. -/
theorem BeforeTarget.endsOperand_eq {before : List Lexeme} (h : BeforeTarget before) :
    endsOperand before = false := by
  obtain ⟨l, hl, x, hx, h⟩ := h
  rw [endsOperand, Option.mem_def.mp hl, Option.any_some]
  simp only [targetStarts, List.mem_cons, List.not_mem_nil, or_false] at hx
  rcases hx with rfl | rfl | rfl
  · obtain ⟨written, ht⟩ := is_keyword_iff.mp h
    rw [ht]
    rfl
  · obtain ⟨written, ht⟩ := is_keyword_iff.mp h
    rw [ht]
    rfl
  · rw [is_symbol_iff.mp h]
    rfl

/-- Whether a target was read from a run, between some lexemes before and some after. -/
structure Target.StandsAt (limit : Nat) (before u after : List Lexeme) (t : Target) : Prop where
  /-- The run was read at some level under the limit. -/
  read : ∃ n < limit, ∃ s s', Parser.target (nested limit n) s = .ok (t, s') ∧ s.rest = u ++ after ∧
    s'.rest = after
  /-- A target can begin where the run does. -/
  opens : BeforeTarget before
  /-- Nothing is blocked after the run. -/
  ends : ¬ Blocked after

/-- Whether targets were read from the beginning of some lexemes, with commas between. -/
inductive TargetsAt (limit : Nat) : (before : List Lexeme) → List Target → List Lexeme → Prop where
  /-- The last target. -/
  | last {before u after t} (h : t.StandsAt limit before u after) : TargetsAt limit before [t] (u ++ after)
  /-- A target and a comma before more of them. -/
  | cons {before u rest t ts} {comma : Lexeme} (h : t.StandsAt limit before u (comma :: rest))
    (hc : comma.token.is (.symbol .comma) = true) (hs : TargetsAt limit (before ++ u ++ [comma]) ts rest) :
    TargetsAt limit before (t :: ts) (u ++ comma :: rest)

/-- Whether the targets of a query were read from some of the lexemes. -/
def Select.Located (limit : Nat) (lexemes : List Lexeme) (q : Select) : Prop :=
  ∀ ts, q.targets = .list ts → ∃ before rest, lexemes = before ++ rest ∧ TargetsAt limit before ts rest

/-- Whether the targets of all queries in an expression were read from some of the lexemes. -/
abbrev Expr.Located (limit : Nat) (lexemes : List Lexeme) (e : Expr) : Prop :=
  e.All (fun _ => True) (Select.Located limit lexemes)

/-- Whether something holds of all expressions and queries of a statement. -/
def Statement.All (p : Expr → Prop) (q : Select → Prop) : Statement → Prop
  | .select s => s.All p q
  | .balances b => (∀ f ∈ b.source, ∀ x ∈ f.parts, x.All p q) ∧ ∀ x ∈ b.condition, x.All p q
  | .journal j => ∀ f ∈ j.source, ∀ x ∈ f.parts, x.All p q
  | .print pr => ∀ f ∈ pr.source, ∀ x ∈ f.parts, x.All p q

theorem Expr.All.of_parts {p : Expr → Prop} {q : Select → Prop} {e : Expr} (he : p e)
    (h : ∀ x ∈ e.parts, x.All p q) (hs : ∀ s, e ≠ .subselect s) : e.All p q :=
  .mk he h fun s he => absurd he (hs s)

section
variable {q : Select → Prop} {e : Expr}

theorem Expr.All.operations {as : List (BinaryOp × Expr)} (he : e.All (fun _ => True) q)
    (hs : ∀ a ∈ as, a.2.All (fun _ => True) q) :
    (as.foldl (fun left (op, right) => Expr.binary left op right) e).All (fun _ => True) q := by
  induction as generalizing e with
  | nil => exact he
  | cons a as ih =>
    obtain ⟨ha, has⟩ := List.forall_mem_cons.mp hs
    exact ih (.of_parts trivial (by simpa [Expr.parts] using ⟨he, ha⟩) (by simp)) has

theorem Expr.All.suffixes (he : e.All (fun _ => True) q) (ss : List Suffix) :
    (ss.foldl Suffix.apply e).All (fun _ => True) q := by
  induction ss generalizing e with
  | nil => exact he
  | cons s ss ih =>
    cases s <;> exact ih (.of_parts trivial (by simpa [Suffix.apply, Expr.parts] using he) (by simp [Suffix.apply]))

end

/-! ## Staying before what is blocked -/

/-- Whether a reader never goes back. -/
def Forward (p : Parser α) : Prop := ∀ s a t, p s = .ok (a, t) → t.rest <:+ s.rest

/-- Whether a reader that finds something where it is blocked stays there, and what it finds then. -/
def Stays (P : α → Prop) (p : Parser α) : Prop :=
  ∀ s a t, Blocked s.rest → p s = .ok (a, t) → t.rest = s.rest ∧ P a

theorem Sees.forward {w : Prop} {E : α → β → Prop} {p : Parser α} {q : Parser β} (h : Sees w E p q) :
    Forward p := by
  intro s a t hs
  obtain ⟨⟨u, hu⟩, -⟩ := h s a t hs
  exact ⟨u, hu.symm⟩

namespace Forward

/-- A reader that only looks ahead. -/
theorem look {p : Parser α} {v : Input → α} (h : ∀ s, p s = .ok (v s, s)) : Forward p := by
  intro s a t hs
  obtain ⟨-, rfl⟩ := Prod.mk.inj (Except.ok.inj ((h s).symm.trans hs))
  exact List.suffix_refl _

theorem advance : Forward Parser.advance := by
  intro s a t hs
  obtain ⟨rest, tried, last⟩ := s
  cases rest with
  | nil =>
    obtain rfl : Input.mk [] tried last = t := by simpa [Parser.advance] using hs
    exact List.suffix_refl _
  | cons l rest =>
    obtain rfl : Input.mk rest [] l.span = t := by simpa [Parser.advance] using hs
    exact List.suffix_cons ..

theorem take (r : Except Fault α) : Forward (Parser.take r) := by
  intro s a t hs
  cases r with
  | error f => exact absurd hs fail_ne_ok
  | ok a =>
    obtain ⟨_, s₁, h₁, h₂⟩ := bind_eq_ok.mp hs
    obtain ⟨-, rfl⟩ := pure_eq_ok.mp h₂
    exact advance s _ s₁ h₁

end Forward

theorem accountPattern_forward : Forward Parser.accountPattern := by
  intro s a t hs
  unfold Parser.accountPattern at hs
  rw [Parser.peek_bind] at hs
  cases hn : nextOf s.rest with
  | string v =>
    rw [hn] at hs
    exact Forward.take _ s a t hs
  | _ =>
    rw [hn] at hs
    obtain ⟨_, s₁, h₁, h₂⟩ := bind_eq_ok.mp hs
    obtain ⟨-, rfl⟩ := pure_eq_ok.mp h₂
    exact (Sees.record (w := True) _).forward s _ s₁ h₁

namespace Stays

variable {P : α → Prop} {Q : β → Prop} {x : Terminal}

theorem pure {a : α} (h : P a) : Stays P (Pure.pure a) := by
  intro s b t _ hs
  obtain ⟨rfl, rfl⟩ := pure_eq_ok.mp hs
  exact ⟨rfl, h⟩

theorem bind {p : Parser α} {f : α → Parser β} (hp : Stays P p) (hf : ∀ a, P a → Stays Q (f a)) :
    Stays Q (p >>= f) := by
  intro s b t hd hs
  obtain ⟨a, s₁, h₁, h₂⟩ := bind_eq_ok.mp hs
  obtain ⟨hr, ha⟩ := hp s a s₁ hd h₁
  obtain ⟨hr', hb⟩ := hf a ha s₁ b t (hr ▸ hd) h₂
  exact ⟨hr'.trans hr, hb⟩

theorem fail {f : Fault} : Stays P (Parser.fail f) := fun _ _ _ _ h => absurd h fail_ne_ok

theorem look {p : Parser α} {v : Input → α} (h : ∀ s, p s = .ok (v s, s)) : Stays (fun _ => True) p := by
  intro s a t _ hs
  obtain ⟨-, rfl⟩ := Prod.mk.inj (Except.ok.inj ((h s).symm.trans hs))
  exact ⟨rfl, trivial⟩

theorem acceptQuietly (hx : x ≠ .keyword .not) : Stays (· = false) (Parser.acceptQuietly x) := by
  intro s b t hd hs
  rcases acceptQuietly_eq_ok hs with ⟨-, l, rest, hr, hl, -⟩ | ⟨rfl, -, rfl⟩
  · have := hd.is_eq_false hx
    rw [hr] at this
    exact absurd (hl.symm.trans this) (by simp)
  · exact ⟨rfl, rfl⟩

theorem accept (hx : x ≠ .keyword .not) : Stays (· = false) (Parser.accept x) := by
  intro s b t hd hs
  rcases accept_eq_ok hs with ⟨-, l, rest, hr, hl, -⟩ | ⟨rfl, -, hr, -⟩
  · have := hd.is_eq_false hx
    rw [hr] at this
    exact absurd (hl.symm.trans this) (by simp)
  · exact ⟨hr, rfl⟩

/-- A terminal is not found where a reader is blocked. -/
theorem expect_bind {f : Unit → Parser β} (hx : x ≠ .keyword .not) :
    Stays Q (Parser.expect x >>= f) := by
  intro s b t hd hs
  obtain ⟨_, s₁, h₁, -⟩ := bind_eq_ok.mp hs
  obtain ⟨l, rest, hr, hl, -⟩ := expect_eq_ok h₁
  have := hd.is_eq_false hx
  rw [hr] at this
  exact absurd (hl.symm.trans this) (by simp)

theorem after {p : Parser α} (hx : x ≠ .keyword .not) : Stays (· = none) (Parser.after x p) :=
  bind (accept hx) fun _ hb => hb ▸ pure rfl

theorem afterQuietly {p : Parser α} (hx : x ≠ .keyword .not) : Stays (· = none) (Parser.afterQuietly x p) :=
  bind (acceptQuietly hx) fun _ hb => hb ▸ pure rfl

theorem repeatUpTo {p : Parser (Option α)} (hp : Stays (· = none) p) (rounds : Nat) :
    Stays (· = []) (Parser.repeatUpTo p rounds) := by
  cases rounds with
  | zero => exact pure rfl
  | succ rounds => exact bind hp fun _ ho => ho ▸ pure rfl

theorem many {p : Parser (Option α)} (hp : Stays (· = none) p) : Stays (· = []) (Parser.many p) :=
  fun s as t hd hs => repeatUpTo hp _ s as t hd hs

theorem suffix? : Stays (· = none) Parser.suffix? :=
  bind (acceptQuietly (by decide)) fun _ hb => hb ▸ bind (acceptQuietly (by decide)) fun _ hb => hb ▸ pure rfl

theorem operation? {family : Symbol → Option BinaryOp} {p : Parser Expr} :
    Stays (· = none) (Parser.operation? family p) := by
  intro s o t hd hs
  unfold Parser.operation? at hs
  rw [Parser.peek_bind] at hs
  have hn : ∀ x, nextOf s.rest ≠ .symbol x := fun x hx => by
    have := hd.is_eq_false (x := .symbol x) (by simp)
    rw [hx] at this
    simp [is, terminal?] at this
  cases ht : nextOf s.rest with
  | symbol x => exact absurd ht (hn x)
  | _ =>
    rw [ht] at hs
    obtain ⟨rfl, rfl⟩ := pure_eq_ok.mp hs
    exact ⟨rfl, rfl⟩

theorem comparison? : Stays (· = none) Parser.comparison? := by
  intro s o t hd hs
  unfold Parser.comparison? at hs
  rw [Parser.peek_bind] at hs
  rcases hd with hd | ⟨p, hn⟩
  · obtain ⟨written, hn⟩ := is_keyword_iff.mp hd.1
    have hin : (s.nth 1).is (.keyword .in) = false := by
      rw [nth_one]
      exact hd.2
    rw [hn] at hs
    obtain ⟨_, s₁, h₁, h₂⟩ := bind_eq_ok.mp hs
    obtain ⟨rfl, rfl⟩ : s.nth 1 = _ ∧ s = s₁ := by simpa [peekNth] using h₁
    rw [if_neg (by simp [hin])] at h₂
    obtain ⟨rfl, rfl⟩ := pure_eq_ok.mp h₂
    exact ⟨rfl, rfl⟩
  · rw [hn] at hs
    obtain ⟨rfl, rfl⟩ := pure_eq_ok.mp hs
    exact ⟨rfl, rfl⟩

end Stays

/-! ## What readers yield -/

/-- Whether something holds of what a reader finds in some lexemes, unless it stops where it is blocked. -/
def Yields (lexemes : List Lexeme) (V : α → Prop) (p : Parser α) : Prop :=
  ∀ s a t, s.rest <:+ lexemes → p s = .ok (a, t) → t.rest <:+ lexemes ∧ (Blocked t.rest ∨ V a)

namespace Yields

variable {lexemes : List Lexeme} {V : α → Prop} {W : β → Prop} {p : Parser α}

theorem pure {a : α} (h : V a) : Yields lexemes V (Pure.pure a) := by
  intro s b t hs h'
  obtain ⟨rfl, rfl⟩ := pure_eq_ok.mp h'
  exact ⟨hs, .inr h⟩

theorem fail {f : Fault} : Yields lexemes V (Parser.fail f) := fun _ _ _ _ h => absurd h fail_ne_ok

theorem missing {e : Expected} : Yields lexemes V (Parser.missing e) := fun _ _ _ _ h => absurd h missing_ne_ok

/-- A reader of which nothing has to hold, and another after it. -/
theorem andThen {f : α → Parser β} (hp : Forward p) (hf : ∀ a, Yields lexemes W (f a)) :
    Yields lexemes W (p >>= f) := by
  intro s b t hs h
  obtain ⟨a, s₁, h₁, h₂⟩ := bind_eq_ok.mp h
  exact hf a s₁ b t ((hp s a s₁ h₁).trans hs) h₂

/-- A reader, and another after it that stays where the first one is blocked. -/
theorem bind {f : α → Parser β} (hp : Yields lexemes V p) (hf : ∀ a, V a → Yields lexemes W (f a))
    (hs : ∀ a, Stays (fun _ => True) (f a)) : Yields lexemes W (p >>= f) := by
  intro s b t hsuffix h
  obtain ⟨a, s₁, h₁, h₂⟩ := bind_eq_ok.mp h
  obtain ⟨hsuffix₁, hd | ha⟩ := hp s a s₁ hsuffix h₁
  · obtain ⟨hr, -⟩ := hs a s₁ b t hd h₂
    rw [hr]
    exact ⟨hsuffix₁, .inl hd⟩
  · exact hf a ha s₁ b t hsuffix₁ h₂

theorem map {f : α → β} (hp : Yields lexemes V p) (hf : ∀ a, V a → W (f a)) : Yields lexemes W (f <$> p) :=
  bind hp (fun a ha => pure (hf a ha)) fun _ => Stays.pure trivial

theorem after {x : Terminal} (h : Yields lexemes V p) :
    Yields lexemes (fun o => ∀ a ∈ o, V a) (Parser.after x p) := by
  refine andThen (Sees.accept (w := False) x).forward fun b => ?_
  split
  · exact map h fun a ha _ he => Option.some.inj he ▸ ha
  · exact pure (by simp)

theorem afterQuietly {x : Terminal} (h : Yields lexemes V p) :
    Yields lexemes (fun o => ∀ a ∈ o, V a) (Parser.afterQuietly x p) := by
  refine andThen (Sees.acceptQuietly (w := False) x).forward fun b => ?_
  split
  · exact map h fun a ha _ he => Option.some.inj he ▸ ha
  · exact pure (by simp)

theorem repeatUpTo {p : Parser (Option α)} (h : Yields lexemes (fun o => ∀ a ∈ o, V a) p)
    (hs : Stays (· = none) p) (rounds : Nat) :
    Yields lexemes (fun as => ∀ a ∈ as, V a) (Parser.repeatUpTo p rounds) := by
  induction rounds with
  | zero => exact pure (by simp)
  | succ rounds ih =>
    refine bind h (fun o ho => ?_) fun o => ?_
    · cases o with
      | none => exact pure (by simp)
      | some a =>
        exact bind ih (fun as has => pure (by simpa using ⟨ho a rfl, has⟩))
          fun _ => Stays.pure trivial
    · cases o with
      | none => exact Stays.pure trivial
      | some a => exact Stays.bind (Stays.repeatUpTo hs rounds) fun _ _ => Stays.pure trivial

theorem many {p : Parser (Option α)} (h : Yields lexemes (fun o => ∀ a ∈ o, V a) p)
    (hs : Stays (· = none) p) : Yields lexemes (fun as => ∀ a ∈ as, V a) (Parser.many p) :=
  fun s as t hsuffix ha => repeatUpTo h hs _ s as t hsuffix ha

theorem commaList (h : Yields lexemes V p) :
    Yields lexemes (fun as => ∀ a ∈ as, V a) (Parser.commaList p) :=
  bind h
    (fun a ha => bind (many (after h) (Stays.after (by decide)))
      (fun as has => pure (by simpa using ⟨ha, has⟩)) fun _ => Stays.pure trivial)
    fun _ => Stays.bind (Stays.many (Stays.after (by decide))) fun _ _ => Stays.pure trivial

/-! ## Expressions -/

section
variable {limit : Nat} {q : Parser Expr}


theorem operation? {family : Symbol → Option BinaryOp} (h : Yields lexemes (Expr.Located limit lexemes) q) :
    Yields lexemes (fun o => ∀ a ∈ o, Expr.Located limit lexemes a.2) (Parser.operation? family q) := by
  refine andThen (Forward.look fun _ => rfl) fun t => ?_
  split
  · split
    · exact andThen Forward.advance fun _ => bind h (fun e he => pure (by simpa using he)) fun _ => Stays.pure trivial
    · exact pure (by simp)
  · exact pure (by simp)

theorem leftGrouped {family : Symbol → Option BinaryOp} (h : Yields lexemes (Expr.Located limit lexemes) q) :
    Yields lexemes (Expr.Located limit lexemes) (Parser.leftGrouped family q) :=
  bind h (fun _ he => bind (many (operation? h) Stays.operation?) (fun _ hs => pure (he.operations hs))
      fun _ => Stays.pure trivial)
    fun _ => Stays.bind (Stays.many Stays.operation?) fun _ _ => Stays.pure trivial

theorem connected {op : BoolOp} (h : Yields lexemes (Expr.Located limit lexemes) q) :
    Yields lexemes (Expr.Located limit lexemes) (Parser.connected op q) := by
  have hop : (Terminal.keyword op.key) ≠ .keyword .not := by cases op <;> decide
  refine bind h (fun e he => bind (many (afterQuietly h) (Stays.afterQuietly hop)) (fun es hes => ?_) fun es => ?_)
    fun e => Stays.bind (Stays.many (Stays.afterQuietly hop)) fun es hes => hes ▸ Stays.pure trivial
  · cases es with
    | nil => exact pure he
    | cons e' es => exact pure (.of_parts trivial (by simpa [Expr.parts] using ⟨he, by simpa using hes⟩) (by simp))
  · cases es <;> exact Stays.pure trivial

end

end Yields

/-- Whether all lists of targets in what the readers one nesting level deeper find were read from some of the
lexemes, unless they stop where they are blocked. -/
structure Nested.Yields (limit : Nat) (lexemes : List Lexeme) (G : Nested) : Prop where
  /-- In expressions. -/
  expr : LedgerQuery.Yields lexemes (Expr.Located limit lexemes) G.expr
  /-- In operands of `NOT`. -/
  inversion : LedgerQuery.Yields lexemes (Expr.Located limit lexemes) G.inversion
  /-- In operands of signs. -/
  factor : LedgerQuery.Yields lexemes (Expr.Located limit lexemes) G.factor
  /-- In queries. -/
  select : LedgerQuery.Yields lexemes (Select.All (fun _ => True) (Select.Located limit lexemes)) G.select

namespace Yields

variable {lexemes : List Lexeme} {limit : Nat}

section
variable {G : Nested} (h : G.Yields limit lexemes)
include h

theorem arguments : Yields lexemes (fun es => ∀ e ∈ es, e.Located limit lexemes) (Parser.arguments G) := by
  refine andThen (Sees.expect (w := True) _).forward fun _ => ?_
  refine andThen (Sees.accept (w := True) _).forward fun b => ?_
  split
  · refine andThen (Sees.expect (w := True) _).forward fun _ => pure fun e he => ?_
    obtain rfl := List.mem_singleton.mp he
    exact .of_parts trivial (by simp [Expr.parts]) (by simp)
  · refine andThen (Sees.accept (w := False) _).forward fun b => ?_
    split
    · exact pure (by simp)
    · exact bind (commaList h.expr) (fun es hes => andThen (Sees.expect (w := True) _).forward fun _ => pure hes)
        fun _ => Stays.expect_bind (by decide)

theorem nameOrCall : Yields lexemes (Expr.Located limit lexemes) (Parser.nameOrCall G) := by
  refine andThen (Forward.look fun _ => rfl) fun t => andThen (Sees.name (w := True)).forward fun n => ?_
  split
  · exact bind (arguments h) (fun es hes => pure (.of_parts trivial hes (by simp))) fun _ => Stays.pure trivial
  · exact pure (.of_parts trivial (by simp [Expr.parts]) (by simp))

theorem atom : Yields lexemes (Expr.Located limit lexemes) (Parser.atom G) := by
  refine andThen (Forward.look fun _ => rfl) fun t => ?_
  have hconstant : ∀ c, (Expr.constant c).Located limit lexemes := fun c =>
    .of_parts trivial (by simp [Expr.parts]) (by simp)
  split
  · refine bind h.select (fun q hq => pure (.mk trivial (by simp [Expr.parts]) ?_)) fun _ => Stays.pure trivial
    rintro _ ⟨⟩
    exact hq
  · split
    · exact nameOrCall h
    · split
      · intro s e t hs ht
        refine ⟨(Forward.take _ s e t ht).trans hs, .inr ?_⟩
        obtain rfl := take_ok_eq ht
        exact .of_parts trivial (by simp [Expr.parts]) (by simp)
      · refine andThen (Sees.expect (w := True) _).forward fun _ => andThen (Sees.literal? (w := True)).forward
          fun o => ?_
        split
        · exact andThen (Sees.many_eq (Sees.after_eq (w := True) _ Sees.listItem) (Sees.listItem (w := True)).after_moves).forward
            fun _ => andThen (Sees.expect (w := True) _).forward fun _ => pure (hconstant _)
        · exact missing
      · refine andThen (Sees.literal? (w := True)).forward fun o => ?_
        split
        · exact pure (hconstant _)
        · exact missing

theorem primary : Yields lexemes (Expr.Located limit lexemes) (Parser.primary G) :=
  bind (atom h) (fun _ he => andThen (Sees.many_eq (Sees.suffix? (w := True)) Sees.suffix?_moves).forward fun ss =>
      pure (he.suffixes ss))
    fun _ => Stays.bind (Stays.many Stays.suffix?) fun _ _ => Stays.pure trivial

theorem factor : Yields lexemes (Expr.Located limit lexemes) (Parser.factor G) := by
  have hunary : ∀ {op e}, e.Located limit lexemes → (Expr.unary op e).Located limit lexemes := fun he =>
    .of_parts trivial (by simpa [Expr.parts] using he) (by simp)
  refine andThen (Forward.look fun _ => rfl) fun t => ?_
  split
  · refine andThen (Forward.look Sees.atList_eq) fun b => ?_
    split
    · exact primary h
    · exact andThen Forward.advance fun _ => bind h.expr
        (fun e he => andThen (Sees.expect (w := True) _).forward fun _ => pure he)
        fun _ => Stays.expect_bind (by decide)
  · exact andThen Forward.advance fun _ => bind h.factor (fun e he => pure (hunary he)) fun _ => Stays.pure trivial
  · exact andThen Forward.advance fun _ => h.factor
  · exact primary h

theorem sum : Yields lexemes (Expr.Located limit lexemes) (Parser.sum G) := leftGrouped (leftGrouped (factor h))

theorem compared {left : Expr} (hl : left.Located limit lexemes) (c : Comparison) :
    Yields lexemes (Expr.Located limit lexemes) (Parser.compared G left c) := by
  cases c with
  | binary op =>
    exact bind (sum h) (fun e he => pure (.of_parts trivial (by simpa [Expr.parts] using ⟨hl, he⟩) (by simp)))
      fun _ => Stays.pure trivial
  | null op => exact pure (.of_parts trivial (by simpa [Expr.parts] using hl) (by simp))
  | between =>
    exact bind (sum h) (fun lo hlo => andThen (Sees.expect (w := True) _).forward fun _ => bind (sum h)
        (fun hi hhi => pure (.of_parts trivial (by simpa [Expr.parts] using ⟨hl, hlo, hhi⟩) (by simp)))
        fun _ => Stays.pure trivial)
      fun _ => Stays.expect_bind (by decide)

theorem comparison : Yields lexemes (Expr.Located limit lexemes) (Parser.comparison G) := by
  refine bind (sum h) (fun left hl => andThen (Sees.comparison? (w := True)).forward fun o => ?_)
    fun left => Stays.bind Stays.comparison? fun o ho => ho ▸ Stays.pure trivial
  split
  · exact pure hl
  · refine bind (compared h hl _) (fun e he => andThen (Forward.look atComparison_eq) fun b => ?_) fun e => ?_
    · split
      · exact fail
      · exact pure he
    · refine Stays.bind (Stays.look atComparison_eq) fun b _ => ?_
      split
      · exact Stays.fail
      · exact Stays.pure trivial

theorem inversion : Yields lexemes (Expr.Located limit lexemes) (Parser.inversion G) := by
  refine andThen (Sees.acceptQuietly (w := True) _).forward fun b => ?_
  split
  · exact bind h.inversion (fun e he => pure (.of_parts trivial (by simpa [Expr.parts] using he) (by simp)))
      fun _ => Stays.pure trivial
  · exact comparison h

theorem disjunction : Yields lexemes (Expr.Located limit lexemes) (Parser.disjunction G) :=
  connected (connected (inversion h))

/-! ## Clauses -/

theorem columnKey : Yields lexemes (fun k => ∀ x ∈ k.parts, x.Located limit lexemes) (Parser.columnKey G) := by
  have hexpr : Yields lexemes (fun k => ∀ x ∈ ColumnKey.parts k, x.Located limit lexemes)
      (do return .expr (← G.expr)) :=
    bind h.expr (fun e he => pure (by simpa [ColumnKey.parts] using he)) fun _ => Stays.pure trivial
  refine andThen (Forward.look fun _ => rfl) fun t => ?_
  split
  · refine andThen (Forward.look fun _ => rfl) fun t => ?_
    split
    · exact hexpr
    · exact andThen (Forward.take _) fun _ => pure (by simp [ColumnKey.parts])
  · exact hexpr

theorem target : Yields lexemes (fun t => t.expr.Located limit lexemes) (Parser.target G) :=
  andThen (Forward.look fun _ => rfl) fun _ => bind h.expr
    (fun e he => andThen (Sees.after_eq (w := True) _ Sees.name).forward fun _ =>
      andThen (Forward.look fun _ => rfl) fun _ => pure he)
    fun _ => Stays.bind (Stays.after (by decide)) fun _ _ => Stays.bind (Stays.look fun _ => rfl) fun _ _ =>
      Stays.pure trivial

theorem entryFilter : Yields lexemes (fun f => ∀ x ∈ f.parts, x.Located limit lexemes)
    (Parser.entryFilter G) := by
  refine andThen (Sees.accept (w := True) _).forward fun b => ?_
  split
  · exact andThen (Sees.openDate (w := True)).forward fun _ =>
      andThen (Sees.after_eq (w := True) _ Sees.closing).forward fun _ =>
      andThen (Sees.accept (w := True) _).forward fun _ => pure (by simp [EntryFilter.parts])
  · refine andThen (Sees.accept (w := True) _).forward fun b => ?_
    split
    · exact andThen (Sees.closing (w := True)).forward fun _ =>
        andThen (Sees.accept (w := True) _).forward fun _ => pure (by simp [EntryFilter.parts])
    · refine andThen (Sees.accept (w := True) _).forward fun b => ?_
      split
      · exact pure (by simp [EntryFilter.parts])
      · refine bind h.expr (fun e he => ?_) fun e => ?_
        · exact andThen (Sees.after_eq (w := True) _ Sees.openDate).forward fun _ =>
            andThen (Sees.after_eq (w := True) _ Sees.closing).forward fun _ =>
            andThen (Sees.accept (w := True) _).forward fun _ => pure (by simpa [EntryFilter.parts] using he)
        · exact Stays.bind (Stays.after (by decide)) fun _ _ => Stays.bind (Stays.after (by decide)) fun _ _ =>
            Stays.bind (Stays.accept (by decide)) fun _ _ => Stays.pure trivial

theorem source : Yields lexemes (fun a => (∀ x ∈ a.parts, x.Located limit lexemes) ∧
    ∀ s, a = .query s → s.All (fun _ => True) (Select.Located limit lexemes)) (Parser.source G) := by
  refine andThen (Forward.look fun _ => rfl) fun t => ?_
  split
  · intro s a t hs ht
    refine ⟨(Forward.take _ s a t ht).trans hs, .inr ?_⟩
    obtain rfl := take_ok_eq ht
    exact ⟨by simp [Source.parts], by simp⟩
  · refine andThen (Forward.look Sees.atQuery_eq) fun b => ?_
    split
    · refine andThen Forward.advance fun _ => bind h.select (fun q hq => ?_) fun _ => Stays.expect_bind (by decide)
      exact andThen (Sees.expect (w := True) _).forward fun _ => pure ⟨by simp [Source.parts], by simpa using hq⟩
    · refine andThen (Sees.record (w := True) _).forward fun _ => bind (entryFilter h) (fun f hf => ?_)
        fun _ => Stays.pure trivial
      exact pure ⟨hf, by simp⟩

theorem groupBy : Yields lexemes (fun g => ∀ x ∈ g.parts, x.Located limit lexemes) (Parser.groupBy G) := by
  refine andThen (Sees.expect (w := True) _).forward fun _ => bind (commaList (columnKey h)) (fun ks hks => ?_)
    fun _ => Stays.bind (Stays.after (by decide)) fun _ _ => Stays.pure trivial
  refine bind (after h.expr) (fun o ho => pure fun x hx => ?_) fun _ => Stays.pure trivial
  simp only [GroupBy.parts, List.mem_append, List.mem_flatMap, Option.mem_toList] at hx
  rcases hx with ⟨k, hk, hx⟩ | hx
  · exact hks k hk x hx
  · exact ho x hx

omit h in
theorem sortDirection_stays : Stays (fun _ => True) Parser.sortDirection :=
  Stays.bind (Stays.accept (by decide)) fun _ hb => hb ▸ Stays.bind (Stays.accept (by decide)) fun _ _ =>
    Stays.pure trivial

theorem orderBy : Yields lexemes (fun ks => ∀ k ∈ ks, ∀ x ∈ k.column.parts, x.Located limit lexemes)
    (Parser.orderBy G) := by
  refine andThen (Sees.expect (w := True) _).forward fun _ => commaList ?_
  exact bind (columnKey h) (fun k hk => andThen (Sees.sortDirection (w := True)).forward fun _ => pure hk)
    fun _ => Stays.bind sortDirection_stays fun _ _ => Stays.pure trivial

omit h in
theorem limit_stays {f : Option UInt64 → γ} : Stays (fun _ => True) (do
    let limit ← Parser.after (.keyword .limit) Parser.count
    return f limit) := Stays.bind (Stays.after (by decide)) fun _ _ => Stays.pure trivial

omit h in
theorem pivoting_stays {f : Option PivotBy → Option UInt64 → γ} : Stays (fun _ => True) (do
    let pivotBy ← Parser.after (.keyword .pivot) Parser.pivotBy
    let limit ← Parser.after (.keyword .limit) Parser.count
    return f pivotBy limit) := Stays.bind (Stays.after (by decide)) fun _ _ => limit_stays

omit h in
theorem ordering_stays {f : Option (List SortKey) → Option PivotBy → Option UInt64 → γ} :
    Stays (fun _ => True) (do
      let orderBy ← Parser.after (.keyword .order) (Parser.orderBy G)
      let pivotBy ← Parser.after (.keyword .pivot) Parser.pivotBy
      let limit ← Parser.after (.keyword .limit) Parser.count
      return f orderBy pivotBy limit) := Stays.bind (Stays.after (by decide)) fun _ _ => pivoting_stays

omit h in
theorem grouping_stays {f : Option GroupBy → Option (List SortKey) → Option PivotBy → Option UInt64 → γ} :
    Stays (fun _ => True) (do
      let groupBy ← Parser.after (.keyword .group) (Parser.groupBy G)
      let orderBy ← Parser.after (.keyword .order) (Parser.orderBy G)
      let pivotBy ← Parser.after (.keyword .pivot) Parser.pivotBy
      let limit ← Parser.after (.keyword .limit) Parser.count
      return f groupBy orderBy pivotBy limit) := Stays.bind (Stays.after (by decide)) fun _ _ => ordering_stays

omit h in
theorem clauses_stay {f : Option Source → Option Expr → Option GroupBy → Option (List SortKey) →
    Option PivotBy → Option UInt64 → γ} : Stays (fun _ => True) (do
      let source ← Parser.after (.keyword .from) (Parser.source G)
      let condition ← Parser.after (.keyword .where) G.expr
      let groupBy ← Parser.after (.keyword .group) (Parser.groupBy G)
      let orderBy ← Parser.after (.keyword .order) (Parser.orderBy G)
      let pivotBy ← Parser.after (.keyword .pivot) Parser.pivotBy
      let limit ← Parser.after (.keyword .limit) Parser.count
      return f source condition groupBy orderBy pivotBy limit) :=
  Stays.bind (Stays.after (by decide)) fun _ _ => Stays.bind (Stays.after (by decide)) fun _ _ => grouping_stays

/-- The clauses of a query after its targets. -/
theorem clauses {ts : Targets} {distinct : Bool} (hparts : ∀ x ∈ ts.parts, x.Located limit lexemes)
    (hts : ∀ items, ts = .list items → ∃ before rest, lexemes = before ++ rest ∧ TargetsAt limit before items rest) :
    Yields lexemes (Select.All (fun _ => True) (Select.Located limit lexemes)) (do
      let source ← Parser.after (.keyword .from) (Parser.source G)
      let condition ← Parser.after (.keyword .where) G.expr
      let groupBy ← Parser.after (.keyword .group) (Parser.groupBy G)
      let orderBy ← Parser.after (.keyword .order) (Parser.orderBy G)
      let pivotBy ← Parser.after (.keyword .pivot) Parser.pivotBy
      let limit ← Parser.after (.keyword .limit) Parser.count
      return ⟨ts, distinct, source, condition, groupBy, orderBy, pivotBy, limit⟩) := by
  refine bind (after (source h)) (fun a ha => ?_) fun _ => Stays.bind (Stays.after (by decide)) fun _ _ =>
    grouping_stays
  refine bind (after h.expr) (fun c hc => ?_) fun _ => grouping_stays
  refine bind (after (groupBy h)) (fun g hg => ?_) fun _ => ordering_stays
  refine bind (after (orderBy h)) (fun o ho => ?_) fun _ => pivoting_stays
  refine andThen (Sees.after_eq (w := True) _ Sees.pivotBy).forward fun p =>
    andThen (Sees.after_eq (w := True) _ Sees.count).forward fun l => pure ?_
  obtain ⟨hp, hq⟩ := (Select.forall_parts (s := ⟨ts, distinct, a, c, g, o, p, l⟩)).mpr ⟨hparts, ha, hc, hg, ho⟩
  exact .mk hts hp hq

end

/-! ## Lists of targets -/

/-- Targets that are read with commas between stand where they were read, unless the last one is blocked. -/
theorem targetsAt {n : Nat} (hn : n < limit) {before : List Lexeme} {ts : List Target} {s t : Input}
    (hs : Parser.commaList (Parser.target (nested limit n)) s = .ok (ts, t)) (hb : BeforeTarget before) :
    Blocked t.rest ∨ TargetsAt limit before ts s.rest := by
  obtain ⟨a, s₁, h₁, hs₁⟩ := bind_eq_ok.mp hs
  obtain ⟨as, s₂, h₂, hs₂⟩ := bind_eq_ok.mp hs₁
  obtain ⟨rfl, rfl⟩ := pure_eq_ok.mp hs₂
  unfold Parser.many at h₂
  generalize s₁.rest.length + 1 = rounds at h₂
  clear hs hs₁ hs₂
  have hsees := Sees.target (nested_sees True limit limit (Nat.le_refl n))
  induction rounds generalizing before a as s s₁ with
  | zero =>
    obtain ⟨rfl, rfl⟩ := pure_eq_ok.mp h₂
    obtain ⟨⟨u, hu⟩, -⟩ := hsees s a s₁ h₁
    by_cases hd : Blocked s₁.rest
    · exact .inl hd
    · exact .inr (hu ▸ .last ⟨⟨n, hn, s, s₁, h₁, hu, rfl⟩, hb, hd⟩)
  | succ rounds ih =>
    unfold Parser.repeatUpTo at h₂
    obtain ⟨o, s₃, h₃, h₄⟩ := bind_eq_ok.mp h₂
    obtain ⟨⟨u, hu⟩, -⟩ := hsees s a s₁ h₁
    unfold Parser.after at h₃
    obtain ⟨b, s₄, h₅, h₆⟩ := bind_eq_ok.mp h₃
    rcases accept_eq_ok h₅ with ⟨rfl, comma, rest, hr, hc, rfl⟩ | ⟨rfl, -, hr, -⟩
    · obtain ⟨a', h₇, rfl⟩ := map_eq_ok.mp h₆
      obtain ⟨as', s₅, h₈, h₉⟩ := bind_eq_ok.mp h₄
      obtain ⟨rfl, rfl⟩ := pure_eq_ok.mp h₉
      have hd : ¬ Blocked (comma :: rest) := fun hd => by
        have := hd.is_eq_false (x := .symbol .comma) (by decide)
        exact absurd (hc.symm.trans this) (by simp)
      rcases ih (.concat hc (by decide)) _ _ h₇ _ h₈ with hd' | hts
      · exact .inl hd'
      · rw [hu, hr]
        exact .inr (.cons ⟨⟨n, hn, s, s₁, h₁, hr ▸ hu, hr⟩, hb, hd⟩ hc hts)
    · obtain ⟨rfl, rfl⟩ := pure_eq_ok.mp h₆
      obtain ⟨rfl, rfl⟩ := pure_eq_ok.mp h₄
      rw [hr]
      by_cases hd : Blocked s₁.rest
      · exact .inl hd
      · exact .inr (hu ▸ .last ⟨⟨n, hn, s, s₁, h₁, hu, rfl⟩, hb, hd⟩)

section
variable {n : Nat} (hn : n < limit) (h : (nested limit n).Yields limit lexemes)
include hn h

/-- The targets of a query, after a keyword. -/
theorem targets {before : List Lexeme} {s t : Input} {ts : Targets} (hs : lexemes = before ++ s.rest)
    (hb : BeforeTarget before) (ht : Parser.targets (nested limit n) s = .ok (ts, t)) :
    t.rest <:+ lexemes ∧ (Blocked t.rest ∨ (∀ x ∈ ts.parts, x.Located limit lexemes) ∧
      ∀ items, ts = .list items → ∃ before rest, lexemes = before ++ rest ∧ TargetsAt limit before items rest) := by
  obtain ⟨b, s₁, h₁, hs₁⟩ := bind_eq_ok.mp ht
  have hsuffix : s₁.rest <:+ lexemes := ((Sees.accept (w := True) _).forward s b s₁ h₁).trans ⟨before, hs.symm⟩
  rcases accept_eq_ok h₁ with ⟨rfl, -⟩ | ⟨rfl, -, hr, -⟩
  · obtain ⟨rfl, rfl⟩ := pure_eq_ok.mp hs₁
    exact ⟨hsuffix, .inr ⟨by simp [Targets.parts], by simp⟩⟩
  · obtain ⟨items, s₂, h₂, hs₂⟩ := bind_eq_ok.mp hs₁
    obtain ⟨rfl, rfl⟩ := pure_eq_ok.mp hs₂
    obtain ⟨hsuffix₂, hd | hparts⟩ := commaList (target h) s₁ items s₂ hsuffix h₂
    · exact ⟨hsuffix₂, .inl hd⟩
    · refine ⟨hsuffix₂, ?_⟩
      rcases targetsAt hn h₂ hb with hd | hat
      · exact .inl hd
      · refine .inr ⟨by simpa [Targets.parts] using hparts, ?_⟩
        rintro _ ⟨⟩
        exact ⟨before, s₁.rest, by rw [hr, hs], hat⟩

theorem selectQuery : Yields lexemes (Select.All (fun _ => True) (Select.Located limit lexemes))
    (Parser.selectQuery (nested limit n)) := by
  rintro s q t ⟨before, hs⟩ ht
  obtain ⟨_, s₁, h₁, hs₁⟩ := bind_eq_ok.mp ht
  obtain ⟨l, rest, hr, hl, rfl⟩ := expect_eq_ok h₁
  obtain ⟨distinct, s₂, h₂, hs₂⟩ := bind_eq_ok.mp hs₁
  obtain ⟨ts, s₃, h₃, hs₃⟩ := bind_eq_ok.mp hs₂
  -- the targets follow `SELECT` or `DISTINCT`
  obtain ⟨before', hb, hs'⟩ : ∃ before', BeforeTarget before' ∧ lexemes = before' ++ s₂.rest := by
    rcases accept_eq_ok h₂ with ⟨-, m, rest', rfl, hm, rfl⟩ | ⟨-, -, hr', -⟩
    · exact ⟨before ++ [l] ++ [m], .concat hm (by decide), by rw [← hs, hr]; simp⟩
    · exact ⟨before ++ [l], .concat hl (by decide), by rw [← hs, hr, hr']; simp⟩
  obtain ⟨hsuffix, hd | ⟨hparts, hts⟩⟩ := targets hn h hs' hb h₃
  · obtain ⟨hr₃, -⟩ := clauses_stay s₃ q t hd hs₃
    rw [hr₃]
    exact ⟨hsuffix, .inl hd⟩
  · exact clauses h hparts hts s₃ q t hsuffix hs₃

end

/-! ## Statements -/

section
variable {G : Nested} (h : G.Yields limit lexemes)
include h

theorem shorthandSource : Yields lexemes (fun o => ∀ f ∈ o, ∀ x ∈ EntryFilter.parts f, x.Located limit lexemes)
    (Parser.shorthandSource G) := after (entryFilter h)

theorem statement : Yields lexemes (Statement.All (fun _ => True) (Select.Located limit lexemes))
    (Parser.statement G) := by
  refine andThen (Forward.look fun _ => rfl) fun t => ?_
  split
  · exact bind h.select (fun q hq => pure hq) fun _ => Stays.pure trivial
  · have hbalances : Yields lexemes (fun b => Statement.All (fun _ => True) (Select.Located limit lexemes)
        (.balances b)) (Parser.balances G) :=
      andThen (Sees.expect (w := True) _).forward fun _ =>
      andThen (Sees.after_eq (w := True) _ Sees.name).forward fun _ =>
      bind (shorthandSource h) (fun f hf => bind (after h.expr) (fun c hc => pure ⟨hf, hc⟩) fun _ => Stays.pure trivial)
        fun _ => Stays.bind (Stays.after (by decide)) fun _ _ => Stays.pure trivial
    exact bind hbalances (fun b hb => pure hb) fun _ => Stays.pure trivial
  · have hjournal : Yields lexemes (fun j => Statement.All (fun _ => True) (Select.Located limit lexemes)
        (.journal j)) (Parser.journal G) :=
      andThen (Sees.expect (w := True) _).forward fun _ =>
      andThen accountPattern_forward fun _ =>
      andThen (Sees.after_eq (w := True) _ Sees.name).forward fun _ =>
      bind (shorthandSource h) (fun f hf => pure hf) fun _ => Stays.pure trivial
    exact bind hjournal (fun j hj => pure hj) fun _ => Stays.pure trivial
  · have hprint : Yields lexemes (fun p => Statement.All (fun _ => True) (Select.Located limit lexemes)
        (.print p)) (Parser.print G) :=
      andThen (Sees.expect (w := True) _).forward fun _ =>
      bind (shorthandSource h) (fun f hf => pure hf) fun _ => Stays.pure trivial
    exact bind hprint (fun p hp => pure hp) fun _ => Stays.pure trivial
  · refine fun s a t _ hs => ?_
    obtain ⟨_, s₁, -, h₂⟩ := bind_eq_ok.mp hs
    exact absurd h₂ unexpected_ne_ok

end

end Yields

/-- All lists of targets in what readers under a limit find were read from some of the lexemes, unless they
stop where they are blocked. -/
theorem nested_yields (limit : Nat) (lexemes : List Lexeme) : ∀ n ≤ limit, (nested limit n).Yields limit lexemes
  | 0, _ => ⟨Yields.fail, Yields.fail, Yields.fail, Yields.fail⟩
  | n + 1, hn =>
    have h := nested_yields limit lexemes n (Nat.le_of_succ_le hn)
    ⟨Yields.disjunction h, Yields.inversion h, Yields.factor h, Yields.selectQuery hn h⟩

/-- All lists of targets in a statement that is parsed were read from some of the lexemes. -/
theorem located_of_parseLexemes {limit : Nat} {lexemes : List Lexeme} {t : Statement} {span : Span}
    (h : parseLexemes lexemes limit = .ok (t, span)) :
    t.All (fun _ => True) (Select.Located limit lexemes) := by
  obtain ⟨s, hs, hend⟩ := parseLexemes_eq_ok h
  have hd : ¬ Blocked s.rest := by
    rintro (⟨hnot, -⟩ | ⟨p, hp⟩)
    · rw [hend] at hnot
      cases hnot
    · rw [hend] at hp
      cases hp
  exact ((Yields.statement (nested_yields limit lexemes limit (Nat.le_refl _)) _ t s
    (List.suffix_refl _) hs).2).resolve_left hd

end LedgerQuery
