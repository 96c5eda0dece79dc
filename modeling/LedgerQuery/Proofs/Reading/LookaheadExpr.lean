import LedgerQuery.Proofs.Reading.Lookahead

/-!
# How far the readers of the grammar look

Every reader of the grammar finds the same before any text that resumes alike, if the readers one nesting
level deeper do (`Nested.Sees`).  Some look further than at the next token, and each time a fact about
what they read makes up for it.

* A call is told by the parenthesis after its name, and a list by the third token.  They were read.
* A query in parentheses is told by its second token, which was read or ends the text.
* An integer key is told by the token after it.  If that continues an expression and was not read, it is a
  `NOT` without an `IN` (`Nested.Sees.integer`).
-/

namespace LedgerQuery

open Token LedgerQuery.Parser

/-- Whether what the readers one nesting level deeper find, deeper ones find before any text that resumes
alike. -/
structure Nested.Sees (w : Prop) (G H : Nested) : Prop where
  /-- Expressions. -/
  expr : LedgerQuery.Sees w (Like w Expr.plain) G.expr H.expr
  /-- Operands of `NOT`. -/
  inversion : LedgerQuery.Sees w (Like w Expr.plain) G.inversion H.inversion
  /-- Operands of signs. -/
  factor : LedgerQuery.Sees w (Like w Expr.plain) G.factor H.factor
  /-- Queries. -/
  select : LedgerQuery.Sees w (Like w Select.plain) G.select H.select
  /-- An expression is not empty. -/
  exprMoves : Moves G.expr
  /-- Nor is a query. -/
  selectMoves : Moves G.select
  /-- An integer alone is in range, and nothing after it continues it but a `NOT` that dangles. -/
  integer : ∀ {s e t digits}, G.expr s = .ok (e, t) → nextOf s.rest = .integer digits →
    s.rest.length = t.rest.length + 1 →
    (∃ n, integerOf digits = .ok n) ∧ ((nextOf t.rest).continuesExpression = true → Dangling t.rest)

variable {α β : Type} {w : Prop} {s : Input}

/-- Nothing has to be survived. -/
theorem invariant_true : Invariant fun _ => True :=
  ⟨fun _ _ => trivial, fun _ _ _ => trivial, fun _ _ _ _ => trivial⟩

theorem ne_eof_of_is {t : Token} {x : Terminal} (h : t.is x = true) : t ≠ .eof := by
  rintro rfl
  cases h

namespace Moves

theorem take {r : Except Fault α} {a : α} {t : Input} (hs : nextOf s.rest ≠ .eof)
    (h : Parser.take r s = .ok (a, t)) : t.rest.length < s.rest.length := by
  obtain ⟨-, l, rest, hr, rfl⟩ := take_eq_ok h hs
  simp [hr]

end Moves

namespace Sees

/-! ## Values -/

theorem name : Sees w Eq Parser.name Parser.name :=
  token (Finds.name invariant_true) fun _ _ => Reads.name

theorem date : Sees w Eq Parser.date Parser.date :=
  token (Finds.date invariant_true) fun _ _ => Reads.date

theorem stringValue : Sees w Eq Parser.stringValue Parser.stringValue :=
  token (Finds.stringValue invariant_true)
    fun _ _ => Reads.stringValue

theorem count : Sees w Eq Parser.count Parser.count :=
  token (Finds.count invariant_true) fun _ _ => Reads.count

theorem name_moves : Moves Parser.name := by
  intro s n t h
  obtain ⟨_, m, -, l, rfl, -⟩ := (Finds.name (H := Never) invariant_true).exact trivial h
  simp [m.rest]

theorem literal? : Sees w Eq Parser.literal? Parser.literal? := by
  intro s
  have hne : ∀ {r}, (nextOf s.rest).literal? = some r → nextOf s.rest ≠ .eof := by
    intro r hr he
    rw [he] at hr
    cases hr
  refine .peek_bind ?_ fun a t h ht s' hs' => ⟨none, s', ?_, rfl, ?_⟩
  · split
    · next hr => exact .bind (.take (hne hr) _) fun _ _ _ _ h => pure (congrArg some h) _
    · exact pure rfl s
  · rcases hs' with hnil | ⟨-, hn⟩
    · rw [hnil]
      rfl
    · rw [hn]
      rfl
  · cases hr : (nextOf s.rest).literal? with
    | some r =>
      rw [hr] at h
      obtain ⟨_, h, -⟩ := map_eq_ok.mp h
      have := Moves.take (hne hr) h
      rw [ht] at this
      exact absurd this (Nat.lt_irrefl _)
    | none =>
      rw [hr] at h
      exact (pure_eq_ok.mp h).1.symm

theorem listItem : Sees w Eq Parser.listItem Parser.listItem := by
  refine andThen literal? fun o => ?_
  split
  · exact pure rfl
  · exact andThen (record _) fun _ => pure rfl

theorem literalList : Sees w Eq Parser.literalList Parser.literalList := by
  refine andThen (expect _) fun _ => andThen literal? fun o => ?_
  split
  · exact andThen (many_eq (after_eq _ listItem) (listItem (w := w)).after_moves) fun _ =>
      andThen (expect _) fun _ => pure rfl
  · exact missing

theorem suffix? : Sees w Eq Parser.suffix? Parser.suffix? := by
  refine andThen (acceptQuietly _) fun b => ?_
  split
  · exact andThen name fun _ => pure rfl
  · refine andThen (acceptQuietly _) fun b => ?_
    split
    · exact andThen stringValue fun _ => andThen (expect _) fun _ => pure rfl
    · exact pure rfl

theorem suffix?_moves : MovesOnSome Parser.suffix? := by
  intro s a t h
  obtain ⟨u, m, -, hu⟩ := (Finds.suffix? invariant_true).exact trivial h
  obtain ⟨l, v, rfl, -⟩ := Phrase.suffix_opens hu
  simp [m.rest]

end Sees

/-! ## Looking further -/

/-- A reader that looks ahead, when what it sees makes no difference. -/
theorem SeesAt.look {τ : Type} {E : α → β → Prop} {look : Parser τ} {v : Input → τ} {f : τ → Parser α}
    {g : τ → Parser β} (hlook : ∀ s, look s = .ok (v s, s)) (h : SeesAt w E s (f (v s)) (g (v s)))
    (hv : ∀ a t s' rest', f (v s) s = .ok (a, t) → Beside s s' t.rest rest' → Resumes w t.rest rest' →
      g (v s') = g (v s)) : SeesAt w E s (look >>= f) (look >>= g) := by
  have heq : ∀ {γ : Type} (k : τ → Parser γ) (s : Input), (look >>= k) s = k (v s) s := by
    intro γ k s
    show (look s >>= fun x => k x.1 x.2) = _
    rw [hlook]
    rfl
  intro a t hp
  rw [heq] at hp
  obtain ⟨hu, hrun⟩ := h a t hp
  refine ⟨hu, fun s' rest' hb hr => ?_⟩
  obtain ⟨b, t', hq, ht', hab⟩ := hrun s' rest' hb hr
  exact ⟨b, t', by rw [heq, hv a t s' rest' hp hb hr, hq], ht', hab⟩

/-- A token up to the next one that is not some terminal is still not, before a text that resumes alike. -/
theorem Beside.nth_not_is {s' : Input} {rest rest' : List Lexeme} (hb : Beside s s' rest rest')
    (hr : Resumes w rest rest') {n : Nat} (hn : n + rest.length ≤ s.rest.length) {x : Terminal}
    (hx : (s.nth n).is x = false) (hw : w → x ≠ .symbol .rightParen) : (s'.nth n).is x = false := by
  rcases Nat.lt_or_eq_of_le hn with hlt | heq
  · rwa [hb.nth hlt]
  · obtain ⟨u, u', hu, hu', hmap⟩ := hb
    have hlen : u'.length = u.length := by simpa using congrArg List.length hmap
    have hnu : n = u.length := by
      rw [hu, List.length_append] at heq
      omega
    obtain ⟨_, tried, last⟩ := s
    obtain ⟨_, tried', last'⟩ := s'
    obtain rfl := hu
    obtain rfl := hu'
    rw [Input.nth_append _ _ _ _ (by omega), hnu, List.drop_length] at hx
    rw [Input.nth_append _ _ _ _ (by omega), hnu, ← hlen, List.drop_length]
    exact hr.not_is hx hw

/-- Whether a comparison is next. -/
def compares (rest : List Lexeme) : Bool :=
  match nextOf rest with
  | .symbol s => (BinaryOp.ofComparison? s).isSome
  | .keyword .in _ | .keyword .is _ | .keyword .between _ => true
  | .keyword .not _ => (nextOf rest.tail).is (.keyword .in)
  | _ => false

theorem nth_one (s : Input) : s.nth 1 = nextOf s.rest.tail := by
  obtain ⟨rest, tried, last⟩ := s
  rcases rest with _ | ⟨l, _ | ⟨m, rest⟩⟩ <;> rfl

theorem atComparison_eq (s : Input) : Parser.atComparison s = .ok (compares s.rest, s) := by
  unfold Parser.atComparison compares
  rw [Parser.peek_bind]
  cases nextOf s.rest with
  | keyword k written =>
    cases k with
    | not =>
      show Except.ok (_, s) = _
      rw [nth_one]
    | _ => rfl
  | _ => rfl

theorem Resumes.compares {rest rest' : List Lexeme} (h : Resumes w rest rest') (hc : compares rest = false) :
    compares rest' = false := by
  rcases h with ⟨hnext, hnot⟩ | ⟨rfl | ⟨-, hn⟩, -⟩
  · unfold LedgerQuery.compares at hc ⊢
    rw [hnext]
    split at hc
    · exact hc
    · cases hc
    · cases hc
    · cases hc
    · next written hs =>
      rw [← Bool.not_eq_true] at hc ⊢
      exact fun hin => hc (hnot ⟨by rw [hnext, hs]; rfl, hin⟩).2
    · rfl
  · rfl
  · unfold LedgerQuery.compares
    rw [hn]
    rfl

/-- An operation is moved to, if no more remains after its operand than before. -/
theorem MovesOnSome.operation {family : Symbol → Option BinaryOp} {p : Parser Expr}
    (hp : ∀ s a t, p s = .ok (a, t) → t.rest.length ≤ s.rest.length) :
    MovesOnSome (Parser.operation? family p) := by
  intro s a t h
  unfold Parser.operation? at h
  rw [Parser.peek_bind] at h
  cases hn : nextOf s.rest with
  | symbol x =>
    rw [hn] at h
    dsimp only at h
    cases hx : family x with
    | some op =>
      rw [hx] at h
      obtain ⟨_, s₁, h₁, h₂⟩ := bind_eq_ok.mp h
      obtain ⟨e, s₂, h₃, h₄⟩ := bind_eq_ok.mp h₂
      obtain ⟨-, rfl⟩ := pure_eq_ok.mp h₄
      exact Nat.lt_of_le_of_lt (hp s₁ e _ h₃) (Moves.advance_length (by simp [hn]) h₁)
    | none =>
      rw [hx] at h
      cases (pure_eq_ok.mp h).1
  | _ =>
    rw [hn] at h
    cases (pure_eq_ok.mp h).1

namespace Sees

/-! ## Operators -/

theorem comparison?_moves : MovesOnSome Parser.comparison? := by
  intro s c t h
  obtain ⟨u, m, -, hu⟩ := (Finds.comparison? invariant_true).exact trivial h
  have hne : u ≠ [] := by
    cases c with
    | binary op =>
      obtain ⟨l, v, rfl, -⟩ := Phrase.comparisonOperator_opens hu
      simp
    | null op =>
      obtain ⟨_, v, _, rfl, ⟨l, rfl, -⟩, -⟩ := hu
      simp
    | between =>
      obtain ⟨l, rfl, -⟩ := hu
      simp
  have := List.length_pos_of_ne_nil hne
  rw [m.rest, List.length_append]
  omega

theorem comparison? : Sees w Eq Parser.comparison? Parser.comparison? := by
  intro s
  refine .peek_bind ?_ fun o t h ht s' hs' => ⟨none, s', ?_, rfl, ?_⟩
  · cases hn : nextOf s.rest with
    | symbol x =>
      dsimp only
      split
      · exact .bind (.advance (by simp [hn])) fun _ _ _ _ _ => pure rfl _
      · exact pure rfl s
    | keyword k written =>
      have hne : nextOf s.rest ≠ .eof := by simp [hn]
      cases k with
      | «in» => exact .bind (.advance hne) fun _ _ _ _ _ => pure rfl _
      | not =>
        refine SeesAt.look (v := fun s => s.nth 1) (fun _ => rfl) ?_ fun o t s' rest' h hb hr => ?_
        · split
          · next hin =>
            refine .bind (.advance hne) fun _ s₁ h₁ _ _ => ?_
            refine .bind (.advance fun he => ?_) fun _ _ _ _ _ => pure rfl _
            obtain ⟨l, m, -, -⟩ := Finds.advance invariant_true trivial (is_keyword_iff.mpr ⟨written, hn⟩)
              (by simp) h₁
            rw [nth_one, m.rest] at hin
            exact absurd he (ne_eof_of_is hin)
          · exact pure rfl s
        · cases hin : (s.nth 1).is (.keyword .in) with
          | true =>
            rw [if_pos hin] at h
            obtain ⟨l, s₁, m, -, -, h₁⟩ := Finds.advance_bind invariant_true trivial
              (is_keyword_iff.mpr ⟨written, hn⟩) (by simp) h
            have hnext : (nextOf s₁.rest).is (.keyword .in) = true := by rwa [nth_one, m.rest] at hin
            obtain ⟨l', s₂, m', -, -, h₂⟩ := Finds.advance_bind invariant_true trivial hnext (by simp) h₁
            obtain ⟨-, rfl⟩ := pure_eq_ok.mp h₂
            have hlen : s.rest.length = s₂.rest.length + 2 := by
              rw [m.rest, m'.rest]
              rfl
            rw [hb.nth (n := 1) (by omega), hin]
          | false =>
            rw [if_neg (by simp [hin])] at h
            obtain ⟨-, rfl⟩ := pure_eq_ok.mp h
            have hs' := hb.nil rfl
            have hin' : (s'.nth 1).is (.keyword .in) = false := by
              rw [nth_one] at hin ⊢
              rcases hr with ⟨hnext, hnot⟩ | ⟨rfl | ⟨hw, -⟩, hd⟩
              · rw [← Bool.not_eq_true] at hin ⊢
                exact fun hin' => hin (hnot ⟨by rw [hnext, hn]; rfl, by rwa [← hs']⟩).2
              · rw [hs']
                rfl
              · exact absurd ⟨by rw [hn]; rfl, hin⟩ (hd hw)
            rw [if_neg (by simp [hin']), if_neg (by simp)]
      | is => exact .bind (.advance hne) fun _ _ _ _ _ => (andThen (andThen (accept _) fun _ =>
          andThen (expect _) fun _ => pure rfl) fun _ => pure rfl) _
      | between => exact .bind (.advance hne) fun _ _ _ _ _ => pure rfl _
      | _ => exact pure rfl s
    | _ => exact pure rfl s
  · rcases hs' with hnil | ⟨-, hn⟩
    · rw [hnil]
      rfl
    · rw [hn]
      rfl
  · replace h : Parser.comparison? s = .ok (o, t) := (Parser.peek_bind _ s).trans h
    cases o with
    | none => rfl
    | some c =>
      have := comparison?_moves s c t h
      rw [ht] at this
      exact absurd this (Nat.lt_irrefl _)

/-- What is found, unless a comparison follows. -/
theorem unlessComparison {E : α → β → Prop} {a : α} {b : β} {f : Fault} (h : E a b) :
    Sees w E (do if ← atComparison then Parser.fail f else return a)
      (do if ← atComparison then Parser.fail f else return b) := by
  have heq : ∀ {γ : Type} (c : γ) (s : Input), (do if ← atComparison then Parser.fail f else return c) s =
      if compares s.rest = true then (Parser.fail f : Parser γ) s else .ok (c, s) := by
    intro γ c s
    show (Parser.atComparison s >>= fun x => (if x.1 = true then Parser.fail f else Pure.pure c) x.2) = _
    rw [atComparison_eq]
    show (if compares s.rest = true then Parser.fail f else Pure.pure c) s = _
    split <;> rfl
  intro s a' t hp
  rw [heq] at hp
  split at hp
  · exact absurd hp fail_ne_ok
  · next hc =>
    obtain ⟨rfl, rfl⟩ := Prod.mk.inj (Except.ok.inj hp)
    refine ⟨⟨[], rfl⟩, fun s' rest' hb hr => ⟨b, s', ?_, hb.nil rfl, h⟩⟩
    rw [heq, hb.nil rfl, if_neg (by simp [hr.compares (by simpa using hc)])]

section
variable {p q : Parser Expr} {E : Expr → Expr → Prop}

theorem operation? (family : Symbol → Option BinaryOp) (hp : Sees w E p q)
    (hf : w → family .rightParen = none) :
    Sees w (Option.Rel fun a b => a.1 = b.1 ∧ E a.2 b.2) (Parser.operation? family p)
      (Parser.operation? family q) := by
  intro s
  refine .peek_bind ?_ fun o t h ht s' hs' => ⟨none, s', ?_, rfl, ?_⟩
  · cases hn : nextOf s.rest with
    | symbol x =>
      dsimp only
      split
      · exact .bind (.advance (by simp [hn])) fun _ _ _ _ _ => bind hp (fun _ _ h => pure (.some ⟨rfl, h⟩)) _
      · exact pure .none s
    | _ => exact pure .none s
  · rcases hs' with hnil | ⟨hw, hn⟩
    · rw [hnil]
      rfl
    · rw [hn]
      dsimp only
      rw [hf hw]
      rfl
  · cases hn : nextOf s.rest with
    | symbol x =>
      rw [hn] at h
      dsimp only at h
      cases hx : family x with
      | some op =>
        rw [hx] at h
        obtain ⟨_, s₁, h₁, h₂⟩ := bind_eq_ok.mp h
        have hlt := Moves.advance_length (by simp [hn]) h₁
        have hle := (bind hp (fun e f he => pure (E := fun _ _ => True) (b := f) trivial) s₁).length_le h₂
        have := congrArg List.length ht
        omega
      | none =>
        rw [hx] at h
        obtain ⟨rfl, -⟩ := pure_eq_ok.mp h
        exact .none
    | _ =>
      rw [hn] at h
      obtain ⟨rfl, -⟩ := pure_eq_ok.mp h
      exact .none

theorem operation?_moves {family : Symbol → Option BinaryOp} (hp : Sees w E p q) :
    MovesOnSome (Parser.operation? family p) := .operation fun s _ _ => (hp s).length_le

theorem leftGrouped (family : Symbol → Option BinaryOp) (hp : Sees w (Like w Expr.plain) p q)
    (hf : w → family .rightParen = none) :
    Sees w (Like w Expr.plain) (Parser.leftGrouped family p) (Parser.leftGrouped family q) :=
  bind hp fun _ _ h => bind (many (operation? family hp hf) (operation?_moves hp)) fun _ _ hs =>
    pure (h.operations hs)

/-- What follows the first operand of connectives. -/
theorem connectedAfter {e f : Expr} (op : BoolOp) (hp : Sees w (Like w Expr.plain) p q)
    (he : Like w Expr.plain e f) : Sees w (Like w Expr.plain)
      (do
        match ← Parser.many (Parser.afterQuietly (.keyword op.key) p) with
        | [] => return e
        | others => return .bool op (e :: others))
      (do
        match ← Parser.many (Parser.afterQuietly (.keyword op.key) q) with
        | [] => return f
        | others => return .bool op (f :: others)) := by
  refine bind (many (afterQuietly _ hp) hp.afterQuietly_moves) fun _ _ hs => ?_
  cases hs with
  | nil => exact pure he
  | cons h' hs => exact pure (.bool op (.cons he (.cons h' hs)))

theorem connected (op : BoolOp) (hp : Sees w (Like w Expr.plain) p q) :
    Sees w (Like w Expr.plain) (Parser.connected op p) (Parser.connected op q) :=
  bind hp fun _ _ he => connectedAfter op hp he

theorem connected_moves (op : BoolOp) (hp : Sees w (Like w Expr.plain) p q) (hm : Moves p) :
    Moves (Parser.connected op p) := hm.bind fun e => connectedAfter op hp (.refl e)

end

/-! ## Atoms -/

/-- A terminal that is read, and another reader after it. -/
theorem expect_bind {E : α → β → Prop} {x : Terminal} {p : Parser α} {q : Parser β} (h : Sees w E p q) :
    Sees w E (Parser.expect x >>= fun _ => p) (Parser.expect x >>= fun _ => q) ∧
      Moves (Parser.expect x >>= fun _ => p) :=
  ⟨andThen (expect x) fun _ => h, (moves_expect x).bind fun _ => h⟩

theorem literalList_length {s t : Input} {e : Expr} (h : Parser.literalList s = .ok (e, t)) :
    t.rest.length + 3 ≤ s.rest.length := by
  obtain ⟨_, s₁, h₁, hs₁⟩ := bind_eq_ok.mp h
  obtain ⟨o, s₂, h₂, hs₂⟩ := bind_eq_ok.mp hs₁
  have hlt := moves_expect _ s _ s₁ h₁
  cases o with
  | none => exact absurd hs₂ missing_ne_ok
  | some first =>
    obtain ⟨u, m, -, l, rfl, -⟩ := (Finds.literal? invariant_true).exact trivial h₂
    obtain ⟨others, s₃, h₃, hs₃⟩ := bind_eq_ok.mp hs₂
    have hle := (many_eq (w := True) (after_eq _ listItem) (listItem (w := True)).after_moves s₂).length_le h₃
    obtain ⟨_, s₄, h₄, hs₄⟩ := bind_eq_ok.mp hs₃
    have hlt' := moves_expect _ s₃ _ s₄ h₄
    obtain ⟨-, rfl⟩ := pure_eq_ok.mp hs₄
    have := congrArg List.length m.rest
    simp only [List.length_append, List.length_cons, List.length_nil] at this
    omega

section
variable {G H : Nested} (h : G.Sees w H)
include h

theorem arguments :
    Sees w (List.Forall₂ (Like w Expr.plain)) (Parser.arguments G) (Parser.arguments H) ∧
      Moves (Parser.arguments G) := by
  refine expect_bind (andThen (accept _) fun b => ?_)
  split
  · exact andThen (expect _) fun _ => pure (.cons (.refl _) .nil)
  · have hitems : Sees w (List.Forall₂ (Like w Expr.plain)) (do
          let args ← Parser.commaList G.expr
          Parser.expect (.symbol .rightParen)
          return args) (do
          let args ← Parser.commaList H.expr
          Parser.expect (.symbol .rightParen)
          return args) := bind (commaList h.expr) fun _ _ hs => andThen (expect _) fun _ => pure hs
    refine accept_bind (fun b => ?_) ?_
    · split
      · exact pure .nil
      · exact hitems
    · exact (commaList_moves h.expr h.exprMoves).bind fun _ => andThen (w := w) (expect _) fun _ => pure (E := Eq) rfl

/-- A name that begins a call or not. -/
theorem nameThen (b : Bool) : Sees w (Like w Expr.plain)
    (do
      let name ← Parser.name
      if b = true then return .function name (← Parser.arguments G) else return .column name)
    (do
      let name ← Parser.name
      if b = true then return .function name (← Parser.arguments H) else return .column name) := by
  refine andThen name fun n => ?_
  split
  · exact bind (arguments h).1 fun _ _ hs => pure (.function n hs)
  · exact pure (.refl _)

theorem nameOrCall : Sees w (Like w Expr.plain) (Parser.nameOrCall G) (Parser.nameOrCall H) := by
  intro s
  refine SeesAt.look (v := fun s => s.nth 1) (fun _ => rfl) (nameThen h _ s) fun e t s' rest' hs hb hr => ?_
  suffices hcall : (s'.nth 1).is (.symbol .leftParen) = (s.nth 1).is (.symbol .leftParen) by rw [hcall]
  obtain ⟨n, s₁, h₁, h₂⟩ := bind_eq_ok.mp hs
  have hlt := name_moves s n s₁ h₁
  cases hp : (s.nth 1).is (.symbol .leftParen) with
  | true =>
    rw [if_pos hp] at h₂
    obtain ⟨as, s₂, h₃, h₄⟩ := bind_eq_ok.mp h₂
    obtain ⟨-, rfl⟩ := pure_eq_ok.mp h₄
    have hlt' := (arguments h).2 s₁ as s₂ h₃
    rw [hb.nth (n := 1) (by omega), hp]
  | false =>
    rw [if_neg (by simp [hp])] at h₂
    obtain ⟨-, rfl⟩ := pure_eq_ok.mp h₂
    exact hb.nth_not_is hr (by omega) hp fun _ => by decide

theorem nameOrCall_moves : Moves (Parser.nameOrCall G) := by
  intro s e t hs
  obtain ⟨_, s₀, h₀, hs₀⟩ := bind_eq_ok.mp hs
  obtain ⟨rfl, rfl⟩ : s.nth 1 = _ ∧ s = s₀ := by simpa [peekNth] using h₀
  obtain ⟨n, s₁, h₁, h₂⟩ := bind_eq_ok.mp hs₀
  have hlt := name_moves s n s₁ h₁
  split at h₂
  · have hle := (bind (arguments h).1 (fun _ _ _ => pure (E := fun _ _ => True) (b := e) trivial) s₁).length_le h₂
    omega
  · obtain ⟨-, rfl⟩ := pure_eq_ok.mp h₂
    exact hlt

omit h in
/-- A literal, where an atom has to be. -/
theorem literalAtom : Sees w Eq
      (do match ← Parser.literal? with
        | some value => return Expr.literal value
        | none => Parser.missing .expression)
      (do match ← Parser.literal? with
        | some value => return Expr.literal value
        | none => Parser.missing .expression) := by
  refine andThen literal? fun o => ?_
  split
  · exact pure rfl
  · exact missing

omit h in
theorem literalAtom_moves : Moves (do
    match ← Parser.literal? with
    | some value => return Expr.literal value
    | none => Parser.missing .expression) := by
  intro s e t hs
  obtain ⟨o, s₁, h₁, h₂⟩ := bind_eq_ok.mp hs
  cases o with
  | none => exact absurd h₂ missing_ne_ok
  | some value =>
    obtain ⟨-, rfl⟩ := pure_eq_ok.mp h₂
    obtain ⟨u, m, -, l, rfl, -⟩ := (Finds.literal? invariant_true).exact trivial h₁
    simp [m.rest]

theorem atom_moves : Moves (Parser.atom G) := by
  intro s e t hs
  unfold Parser.atom at hs
  rw [Parser.peek_bind] at hs
  split at hs
  · exact h.selectMoves.bind (fun q => pure (w := w) (E := fun _ _ => True) (b := q) trivial) s e t hs
  · split at hs
    · exact nameOrCall_moves h s e t hs
    · cases hn : nextOf s.rest with
      | placeholder p =>
        rw [hn] at hs
        exact Moves.take (by simp [hn]) hs
      | symbol x =>
        rw [hn] at hs
        cases x with
        | leftParen =>
          have := literalList_length hs
          omega
        | _ => exact literalAtom_moves s e t hs
      | _ =>
        rw [hn] at hs
        exact literalAtom_moves s e t hs

theorem atom : Sees w (Like w Expr.plain) (Parser.atom G) (Parser.atom H) := by
  intro s
  refine .peek_bind_moves ?_ fun e t hs => atom_moves h s e t ((Parser.peek_bind _ s).trans hs)
  split
  · exact bind h.select (fun _ _ hq => pure (.subselect hq)) s
  · split
    · exact nameOrCall h s
    · split
      · next hn => exact (SeesAt.take (by simp [hn]) _).mono fun _ _ he => he ▸ .refl _
      · exact (literalList s).mono fun _ _ he => he ▸ .refl _
      · exact (literalAtom s).mono fun _ _ he => he ▸ .refl _

/-! ## Arithmetic -/

omit h in
theorem suffixesAfter {e f : Expr} (he : Like w Expr.plain e f) : Sees w (Like w Expr.plain)
    (do return (← Parser.many Parser.suffix?).foldl Suffix.apply e)
    (do return (← Parser.many Parser.suffix?).foldl Suffix.apply f) :=
  andThen (many_eq suffix? suffix?_moves) fun ss => pure (he.suffixes ss)

theorem primary : Sees w (Like w Expr.plain) (Parser.primary G) (Parser.primary H) :=
  bind (atom h) fun _ _ he => suffixesAfter he

theorem primary_moves : Moves (Parser.primary G) :=
  (atom_moves h).bind fun e => suffixesAfter (w := w) (.refl e)

omit h in
theorem atList_eq (s : Input) : Parser.atList s = .ok ((s.nth 0).is (.symbol .leftParen) &&
    (s.nth 1).isLiteral && (s.nth 2).is (.symbol .comma), s) := rfl

/-- What a left parenthesis begins has two more tokens. -/
theorem parenthesised_length {s t : Input} {e : Expr} {b : Bool} (hn : nextOf s.rest = .symbol .leftParen)
    (hs : (if b = true then Parser.primary G else do
      Parser.advance
      let e ← G.expr
      Parser.expect (.symbol .rightParen)
      return e) s = .ok (e, t)) : t.rest.length + 3 ≤ s.rest.length := by
  cases b with
  | true =>
    obtain ⟨e', s₁, h₁, h₂⟩ := bind_eq_ok.mp hs
    have hle := (suffixesAfter (w := w) (.refl e') s₁).length_le h₂
    have hlist : Parser.literalList s = .ok (e', s₁) := by
      rw [← h₁]
      unfold Parser.atom
      rw [Parser.peek_bind, hn]
      rfl
    have := literalList_length hlist
    omega
  | false =>
    obtain ⟨_, s₁, h₁, h₂⟩ := bind_eq_ok.mp hs
    obtain ⟨e', s₂, h₃, h₄⟩ := bind_eq_ok.mp h₂
    obtain ⟨_, s₃, h₅, h₆⟩ := bind_eq_ok.mp h₄
    obtain ⟨-, rfl⟩ := pure_eq_ok.mp h₆
    have hlt := Moves.advance_length (by simp [hn]) h₁
    have hlt' := h.exprMoves s₁ e' s₂ h₃
    have hlt'' := moves_expect _ s₂ _ s₃ h₅
    omega

theorem factor_moves : Moves (Parser.factor G) := by
  intro s e t hs
  unfold Parser.factor at hs
  rw [Parser.peek_bind] at hs
  cases hn : nextOf s.rest with
  | symbol x =>
    rw [hn] at hs
    have hne : nextOf s.rest ≠ .eof := by simp [hn]
    cases x with
    | leftParen =>
      obtain ⟨b, s₀, h₀, hs₀⟩ := bind_eq_ok.mp hs
      obtain ⟨-, rfl⟩ := Prod.mk.inj (Except.ok.inj ((atList_eq s).symm.trans h₀))
      have := parenthesised_length h hn hs₀
      omega
    | minus =>
      obtain ⟨_, s₁, h₁, h₂⟩ := bind_eq_ok.mp hs
      have hlt := Moves.advance_length hne h₁
      have hle := (bind h.factor (fun _ _ he => pure (he.unary .neg)) s₁).length_le h₂
      omega
    | plus =>
      obtain ⟨_, s₁, h₁, h₂⟩ := bind_eq_ok.mp hs
      have hlt := Moves.advance_length hne h₁
      have hle := (h.factor s₁).length_le h₂
      omega
    | _ => exact primary_moves h s e t hs
  | _ =>
    rw [hn] at hs
    exact primary_moves h s e t hs

theorem factor : Sees w (Like w Expr.plain) (Parser.factor G) (Parser.factor H) := by
  intro s
  refine .peek_bind_moves ?_ fun e t hs => factor_moves h s e t ((Parser.peek_bind _ s).trans hs)
  split
  · next hn =>
    refine SeesAt.look atList_eq ?_ fun e t s' rest' hs hb _ => ?_
    · split
      · exact primary h s
      · refine .bind (.advance (by simp [hn])) fun _ s₁ _ _ _ => ?_
        exact bind h.expr (fun _ _ he => andThen (expect _) fun _ => pure he) s₁
    · have hlen := parenthesised_length h hn hs
      rw [hb.nth (n := 0) (by omega), hb.nth (n := 1) (by omega), hb.nth (n := 2) (by omega)]
  · next hn =>
    exact .bind (.advance (by simp [hn])) fun _ s₁ _ _ _ => bind h.factor (fun _ _ he => pure (.unary .neg he)) s₁
  · next hn => exact .bind (.advance (by simp [hn])) fun _ s₁ _ _ _ => h.factor s₁
  · exact primary h s

theorem term : Sees w (Like w Expr.plain) (Parser.term G) (Parser.term H) :=
  leftGrouped _ (factor h) fun _ => rfl

theorem sum : Sees w (Like w Expr.plain) (Parser.sum G) (Parser.sum H) :=
  leftGrouped _ (term h) fun _ => rfl

/-! ## Truth values -/

theorem compared {left left' : Expr} (hl : Like w Expr.plain left left') (c : Comparison) :
    Sees w (Like w Expr.plain) (Parser.compared G left c) (Parser.compared H left' c) := by
  cases c with
  | binary op => exact bind (sum h) fun _ _ hr => pure (hl.binary op hr)
  | null op => exact pure (hl.unary op)
  | between =>
    exact bind (sum h) fun _ _ ha => andThen (expect _) fun _ => bind (sum h) fun _ _ hb =>
      pure (hl.between ha hb)

/-- What follows the first sum of a comparison. -/
theorem comparisonAfter {left left' : Expr} (hl : Like w Expr.plain left left') :
    Sees w (Like w Expr.plain)
      (do
        match ← Parser.comparison? with
        | none => return left
        | some c =>
          let e ← Parser.compared G left c
          if ← Parser.atComparison then Parser.fail .chainedComparison
          else return e)
      (do
        match ← Parser.comparison? with
        | none => return left'
        | some c =>
          let e ← Parser.compared H left' c
          if ← Parser.atComparison then Parser.fail .chainedComparison
          else return e) := by
  refine andThen comparison? fun o => ?_
  split
  · exact pure hl
  · exact bind (compared h hl _) fun _ _ he => unlessComparison he

theorem comparison : Sees w (Like w Expr.plain) (Parser.comparison G) (Parser.comparison H) :=
  bind (sum h) fun _ _ hl => comparisonAfter h hl

theorem inversion : Sees w (Like w Expr.plain) (Parser.inversion G) (Parser.inversion H) := by
  refine andThen (acceptQuietly _) fun b => ?_
  split
  · exact bind h.inversion fun _ _ he => pure (.unary .not he)
  · exact comparison h

theorem disjunction : Sees w (Like w Expr.plain) (Parser.disjunction G) (Parser.disjunction H) :=
  connected _ (connected _ (inversion h))

end

end Sees

/-! ## An integer alone -/

namespace Sees

variable {E : α → β → Prop}

/-- A loop that reads nothing found nothing in its first round. -/
theorem many_none {p : Parser (Option α)} {q : Parser (Option β)} (h : Sees w (Option.Rel E) p q)
    (hm : MovesOnSome p) {as : List α} {s t : Input} (hs : Parser.many p s = .ok (as, t))
    (hlen : s.rest.length ≤ t.rest.length) : p s = .ok (none, t) := by
  unfold Parser.many at hs
  unfold Parser.repeatUpTo at hs
  obtain ⟨o, s₁, h₁, h₂⟩ := bind_eq_ok.mp hs
  cases o with
  | none =>
    obtain ⟨-, rfl⟩ := pure_eq_ok.mp h₂
    exact h₁
  | some a =>
    obtain ⟨as', s₂, h₃, h₄⟩ := bind_eq_ok.mp h₂
    obtain ⟨-, rfl⟩ := pure_eq_ok.mp h₄
    have hlt := hm s a s₁ h₁
    obtain ⟨⟨u, hu⟩, -⟩ := repeatUpTo h hm hlt h₃
    rw [hu, List.length_append] at hlt
    omega

theorem afterQuietly_none {x : Terminal} {p : Parser α} {s t : Input}
    (h : Parser.afterQuietly x p s = .ok (none, t)) : (nextOf s.rest).is x = false ∧ t = s := by
  unfold Parser.afterQuietly at h
  obtain ⟨b, s₁, h₁, h₂⟩ := bind_eq_ok.mp h
  rcases acceptQuietly_eq_ok h₁ with ⟨rfl, -⟩ | ⟨rfl, hx, rfl⟩
  · obtain ⟨a, -, ha⟩ := map_eq_ok.mp h₂
    cases ha
  · exact ⟨hx, (pure_eq_ok.mp h₂).2.symm⟩

theorem suffix?_none {s t : Input} (h : Parser.suffix? s = .ok (none, t)) :
    (nextOf s.rest).is (.symbol .dot) = false ∧ (nextOf s.rest).is (.symbol .leftBracket) = false ∧ t = s := by
  unfold Parser.suffix? at h
  obtain ⟨b, s₁, h₁, h₂⟩ := bind_eq_ok.mp h
  rcases acceptQuietly_eq_ok h₁ with ⟨rfl, -⟩ | ⟨rfl, hdot, rfl⟩
  · obtain ⟨n, s₂, -, h₄⟩ := bind_eq_ok.mp h₂
    cases (pure_eq_ok.mp h₄).1
  · obtain ⟨b, s₂, h₃, h₄⟩ := bind_eq_ok.mp h₂
    rcases acceptQuietly_eq_ok h₃ with ⟨rfl, -⟩ | ⟨rfl, hbracket, rfl⟩
    · obtain ⟨n, s₃, -, h₅⟩ := bind_eq_ok.mp h₄
      obtain ⟨_, s₄, -, h₆⟩ := bind_eq_ok.mp h₅
      cases (pure_eq_ok.mp h₆).1
    · exact ⟨hdot, hbracket, (pure_eq_ok.mp h₄).2.symm⟩

theorem operation?_none {family : Symbol → Option BinaryOp} {p : Parser Expr} {s t : Input}
    (h : Parser.operation? family p s = .ok (none, t)) :
    (∀ x, nextOf s.rest = .symbol x → family x = none) ∧ t = s := by
  unfold Parser.operation? at h
  rw [Parser.peek_bind] at h
  cases hn : nextOf s.rest with
  | symbol x =>
    rw [hn] at h
    dsimp only at h
    cases hx : family x with
    | some op =>
      rw [hx] at h
      obtain ⟨_, s₁, -, h₂⟩ := bind_eq_ok.mp h
      obtain ⟨e, s₂, -, h₃⟩ := bind_eq_ok.mp h₂
      cases (pure_eq_ok.mp h₃).1
    | none =>
      rw [hx] at h
      obtain ⟨-, rfl⟩ := pure_eq_ok.mp h
      exact ⟨fun y hy => Token.symbol.inj hy ▸ hx, rfl⟩
  | _ =>
    rw [hn] at h
    obtain ⟨-, rfl⟩ := pure_eq_ok.mp h
    exact ⟨(fun y hy => nomatch hy), rfl⟩

theorem comparison?_none {s t : Input} (h : Parser.comparison? s = .ok (none, t)) :
    compares s.rest = false ∧ t = s := by
  unfold Parser.comparison? at h
  rw [Parser.peek_bind] at h
  unfold compares
  cases hn : nextOf s.rest with
  | symbol x =>
    rw [hn] at h
    dsimp only at h ⊢
    cases hx : BinaryOp.ofComparison? x with
    | some op =>
      rw [hx] at h
      obtain ⟨_, s₁, -, h₂⟩ := bind_eq_ok.mp h
      cases (pure_eq_ok.mp h₂).1
    | none =>
      rw [hx] at h
      obtain ⟨-, rfl⟩ := pure_eq_ok.mp h
      exact ⟨rfl, rfl⟩
  | keyword k written =>
    rw [hn] at h
    cases k with
    | «in» | between =>
      obtain ⟨_, s₁, -, h₂⟩ := bind_eq_ok.mp h
      cases (pure_eq_ok.mp h₂).1
    | is =>
      obtain ⟨_, s₁, -, h₂⟩ := bind_eq_ok.mp h
      obtain ⟨_, s₂, -, h₃⟩ := bind_eq_ok.mp h₂
      cases (pure_eq_ok.mp h₃).1
    | not =>
      obtain ⟨_, s₀, h₀, h₁⟩ := bind_eq_ok.mp h
      obtain ⟨rfl, rfl⟩ : s.nth 1 = _ ∧ s = s₀ := by simpa [peekNth] using h₀
      split at h₁
      · obtain ⟨_, s₁, -, h₂⟩ := bind_eq_ok.mp h₁
        obtain ⟨_, s₂, -, h₃⟩ := bind_eq_ok.mp h₂
        cases (pure_eq_ok.mp h₃).1
      · next hin =>
        obtain ⟨-, rfl⟩ := pure_eq_ok.mp h₁
        exact ⟨by rw [nth_one] at hin; simpa using hin, rfl⟩
    | _ =>
      obtain ⟨-, rfl⟩ := pure_eq_ok.mp h
      exact ⟨rfl, rfl⟩
  | _ =>
    rw [hn] at h
    obtain ⟨-, rfl⟩ := pure_eq_ok.mp h
    exact ⟨rfl, rfl⟩

section
variable {p q : Parser Expr} {s t : Input} {e : Expr}

/-- Operators with a single token read are a single operand, and no operator follows. -/
theorem leftGrouped_single {family : Symbol → Option BinaryOp} (hp : Sees w (Like w Expr.plain) p q)
    (hm : Moves p) (hs : Parser.leftGrouped family p s = .ok (e, t))
    (hlen : s.rest.length = t.rest.length + 1)
    (hf : w → family .rightParen = none) :
    p s = .ok (e, t) ∧ ∀ x, nextOf t.rest = .symbol x → family x = none := by
  obtain ⟨first, s₁, h₁, h₂⟩ := bind_eq_ok.mp hs
  obtain ⟨others, s₂, h₃, h₄⟩ := bind_eq_ok.mp h₂
  obtain ⟨he, rfl⟩ := pure_eq_ok.mp h₄
  have hlt := hm s first s₁ h₁
  have hnone := many_none (operation? family hp hf) (operation?_moves hp) h₃ (by omega)
  obtain ⟨hfamily, rfl⟩ := operation?_none hnone
  have hnil : Parser.many (Parser.operation? family p) s₂ = .ok ([], s₂) := by
    unfold Parser.many Parser.repeatUpTo
    exact bind_eq_ok.mpr ⟨none, s₂, hnone, rfl⟩
  obtain ⟨rfl, -⟩ := Prod.mk.inj (Except.ok.inj (hnil.symm.trans h₃))
  obtain rfl : first = e := he
  exact ⟨h₁, hfamily⟩

/-- Connectives with a single token read are a single operand, and no connective follows. -/
theorem connected_single {op : BoolOp} (hp : Sees w (Like w Expr.plain) p q) (hm : Moves p)
    (hs : Parser.connected op p s = .ok (e, t)) (hlen : s.rest.length = t.rest.length + 1) :
    p s = .ok (e, t) ∧ (nextOf t.rest).is (.keyword op.key) = false := by
  obtain ⟨first, s₁, h₁, h₂⟩ := bind_eq_ok.mp hs
  obtain ⟨others, s₂, h₃, h₄⟩ := bind_eq_ok.mp h₂
  have hlt := hm s first s₁ h₁
  have ht : t = s₂ := by
    cases others with
    | nil => exact (pure_eq_ok.mp h₄).2.symm
    | cons _ _ => exact (pure_eq_ok.mp h₄).2.symm
  subst ht
  have hnone := many_none (afterQuietly (.keyword op.key) hp) hp.afterQuietly_moves h₃ (by omega)
  obtain ⟨hkey, rfl⟩ := afterQuietly_none hnone
  have hnil : Parser.many (Parser.afterQuietly (.keyword op.key) p) t = .ok ([], t) := by
    unfold Parser.many Parser.repeatUpTo
    exact bind_eq_ok.mpr ⟨none, t, hnone, rfl⟩
  obtain ⟨rfl, -⟩ := Prod.mk.inj (Except.ok.inj (hnil.symm.trans h₃))
  obtain ⟨rfl, -⟩ := pure_eq_ok.mp h₄
  exact ⟨h₁, hkey⟩

end

section
variable {G H : Nested} (h : G.Sees w H) {s t : Input} {e : Expr} {digits : String}
include h

theorem term_moves : Moves (Parser.term G) :=
  (factor_moves h).bind fun e => bind (many (operation? _ (factor h) fun _ => rfl)
    (operation?_moves (factor h))) fun _ _ hs => pure ((Like.refl e).operations hs)

theorem sum_moves : Moves (Parser.sum G) :=
  (term_moves h).bind fun e => bind (many (operation? _ (term h) fun _ => rfl)
    (operation?_moves (term h))) fun _ _ hs => pure ((Like.refl e).operations hs)

omit h in
/-- An integer that is read alone has nothing after it that would go on with it. -/
theorem factor_single (hn : nextOf s.rest = .integer digits) (hs : Parser.factor G s = .ok (e, t))
    (hlen : s.rest.length = t.rest.length + 1) :
    (∃ n, integerOf digits = .ok n) ∧ (nextOf t.rest).is (.symbol .dot) = false ∧
      (nextOf t.rest).is (.symbol .leftBracket) = false := by
  unfold Parser.factor at hs
  rw [Parser.peek_bind, hn] at hs
  obtain ⟨operand, s₁, h₁, h₂⟩ := bind_eq_ok.mp hs
  obtain ⟨ss, s₂, h₃, h₄⟩ := bind_eq_ok.mp h₂
  obtain ⟨-, rfl⟩ := pure_eq_ok.mp h₄
  unfold Parser.atom at h₁
  rw [Parser.peek_bind, hn] at h₁
  have hlt := literalAtom_moves s operand s₁ h₁
  have hrel : Sees True (Option.Rel Eq) Parser.suffix? Parser.suffix? := suffix?.mono fun a _ hab => by
    subst hab
    cases a with
    | none => exact .none
    | some a => exact .some rfl
  obtain ⟨hdot, hbracket, rfl⟩ := suffix?_none (many_none hrel suffix?_moves h₃ (by omega))
  refine ⟨?_, hdot, hbracket⟩
  obtain ⟨o, s₃, h₅, -⟩ := bind_eq_ok.mp h₁
  unfold Parser.literal? at h₅
  rw [Parser.peek_bind, hn] at h₅
  obtain ⟨a, ha, -⟩ := map_eq_ok.mp h₅
  obtain ⟨hr, -⟩ := take_eq_ok ha (by simp [hn])
  cases hi : integerOf digits with
  | ok n => exact ⟨n, rfl⟩
  | error f =>
    rw [hi] at hr
    cases hr

theorem inversion_single (hn : nextOf s.rest = .integer digits)
    (hs : Parser.inversion G s = .ok (e, t)) (hlen : s.rest.length = t.rest.length + 1) :
    (∃ n, integerOf digits = .ok n) ∧ compares t.rest = false ∧
      (∀ x, nextOf t.rest = .symbol x → BinaryOp.ofAdditive? x = none ∧ BinaryOp.ofMultiplicative? x = none) ∧
      (nextOf t.rest).is (.symbol .dot) = false ∧ (nextOf t.rest).is (.symbol .leftBracket) = false := by
  unfold Parser.inversion at hs
  obtain ⟨b, s₀, h₀, hs₀⟩ := bind_eq_ok.mp hs
  rcases acceptQuietly_eq_ok h₀ with ⟨rfl, l, rest, hl, hnot, -⟩ | ⟨rfl, -, rfl⟩
  · rw [hl] at hn
    rw [show l.token = .integer digits from hn] at hnot
    cases hnot
  · replace hs₀ : Parser.comparison G s₀ = .ok (e, t) := hs₀
    obtain ⟨left, s₁, h₁, h₂⟩ := bind_eq_ok.mp hs₀
    obtain ⟨o, s₂, h₃, h₄⟩ := bind_eq_ok.mp h₂
    have hlt := sum_moves h s₀ left s₁ h₁
    cases o with
    | none =>
      obtain ⟨-, rfl⟩ := pure_eq_ok.mp h₄
      obtain ⟨hcompares, rfl⟩ := comparison?_none h₃
      obtain ⟨hterm, hadd⟩ := leftGrouped_single (term h) (term_moves h) h₁ hlen fun _ => rfl
      obtain ⟨hfactor, hmul⟩ := leftGrouped_single (factor h) (factor_moves h) hterm hlen fun _ => rfl
      obtain ⟨hi, hdot, hbracket⟩ := factor_single hn hfactor hlen
      exact ⟨hi, hcompares, fun x hx => ⟨hadd x hx, hmul x hx⟩, hdot, hbracket⟩
    | some c =>
      have hlt' := comparison?_moves s₁ c s₂ h₃
      have hle := (bind (compared h (.refl left) c) (fun _ _ he => unlessComparison he) s₂).length_le h₄
      omega

theorem inversion_moves : Moves (Parser.inversion G) := by
  intro s e t hs
  unfold Parser.inversion at hs
  obtain ⟨b, s₀, h₀, hs₀⟩ := bind_eq_ok.mp hs
  rcases acceptQuietly_eq_ok h₀ with ⟨rfl, l, rest, hl, -, rfl⟩ | ⟨rfl, -, rfl⟩
  · have hle := (bind h.inversion (fun _ _ he => pure (he.unary .not)) _).length_le hs₀
    rw [hl, List.length_cons]
    exact Nat.lt_succ_of_le hle
  · replace hs₀ : Parser.comparison G s₀ = .ok (e, t) := hs₀
    exact ((sum_moves h).bind fun left => comparisonAfter h (.refl left)) s₀ e t hs₀

theorem conjunction_moves : Moves (Parser.conjunction G) := connected_moves _ (inversion h) (inversion_moves h)

theorem disjunction_moves : Moves (Parser.disjunction G) :=
  connected_moves _ (connected _ (inversion h)) (conjunction_moves h)

/-- An integer that is read alone as an expression is in range, and nothing after it goes on with it but
a `NOT` that dangles. -/
theorem disjunction_single (hs : Parser.disjunction G s = .ok (e, t)) (hn : nextOf s.rest = .integer digits)
    (hlen : s.rest.length = t.rest.length + 1) :
    (∃ n, integerOf digits = .ok n) ∧ ((nextOf t.rest).continuesExpression = true → Dangling t.rest) := by
  obtain ⟨hconjunction, hor⟩ := connected_single (connected _ (inversion h)) (conjunction_moves h) hs hlen
  obtain ⟨hinversion, hand⟩ := connected_single (inversion h) (inversion_moves h) hconjunction hlen
  obtain ⟨hi, hcompares, hoperators, hdot, hbracket⟩ := inversion_single h hn hinversion hlen
  refine ⟨hi, fun hc => ?_⟩
  unfold compares at hcompares
  unfold Dangling
  cases hnext : nextOf t.rest with
  | symbol x =>
    rw [hnext] at hc hcompares hdot hbracket
    obtain ⟨hadd, hmul⟩ := hoperators x hnext
    cases x <;> simp_all [Token.continuesExpression, is, terminal?]
  | keyword k written =>
    rw [hnext] at hc hcompares hor hand
    cases k <;> simp_all [Token.continuesExpression, is, terminal?, BoolOp.key]
  | _ =>
    rw [hnext] at hc
    cases hc

end

end Sees

end LedgerQuery
