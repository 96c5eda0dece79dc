import LedgerQuery.Proofs.Reading.SoundExpr

/-!
# Readers that a limit cuts off

`Curtails limit levels slack p q` compares a reader `p` that may go so many levels deeper with
a reader `q` that may go deeper still.  At every input they either do the same, or `p` is cut off by
its limit.  It is cut off only if more lexemes remain than its levels are enough for, at two levels
for each lexeme, and `slack` more.

Every reader of the grammar keeps this when its inner readers have it (`Nested.Curtails`).  The
slack is what makes the count go through.

* An expression, and the operand of `NOT` or of a sign, spends one level, and so has a slack of one.
* A query spends one level and then reads `SELECT`, and so has none.
* A reader that reads a lexeme first leaves a slack of two to what follows it.
-/

namespace LedgerQuery

open Token LedgerQuery.Parser

/-- Whether a fault is that a limit was reached. -/
def Fault.IsTooDeep (f : Fault) : Prop := ∃ limit, f = .tooDeep limit

/-- Whether a reader is not cut off at an input, and no more remains after it than before. -/
def UncutAt {α : Type} (s : Input) (p : Parser α) : Prop :=
  (∀ a s', p s = .ok (a, s') → s'.rest.length ≤ s.rest.length) ∧
    ∀ stop, p s = .error stop → ¬ stop.fault.IsTooDeep

/-- Whether a reader does the same as another at an input and is not cut off, or is cut off by a
limit there for want of levels. -/
def CurtailsAt {α : Type} (limit levels slack : Nat) (s : Input) (p q : Parser α) : Prop :=
  (p s = q s ∧ UncutAt s q) ∨
    (∃ rest, p s = .error ⟨.tooDeep limit, rest⟩) ∧ levels < 2 * s.rest.length + slack

/-- Whether a reader does the same as another, or is cut off by a limit for want of levels. -/
def Curtails {α : Type} (limit levels slack : Nat) (p q : Parser α) : Prop :=
  ∀ s, CurtailsAt limit levels slack s p q

/-- Whether readers one level deeper are curtailed by a limit. -/
structure Nested.Curtails (limit levels : Nat) (G H : Nested) : Prop where
  /-- Expressions. -/
  expr : LedgerQuery.Curtails limit levels 1 G.expr H.expr
  /-- Operands of `NOT`. -/
  inversion : LedgerQuery.Curtails limit levels 1 G.inversion H.inversion
  /-- Operands of signs. -/
  factor : LedgerQuery.Curtails limit levels 1 G.factor H.factor
  /-- Queries, where one begins. -/
  select : ∀ s : Input, (nextOf s.rest).is (.keyword .select) = true →
    CurtailsAt limit levels 0 s G.select H.select

/-! ## Values out of range -/

section
variable {digits written : String} {f : Fault}

theorem integerOf_uncut (h : integerOf digits = .error f) : ¬ f.IsTooDeep := by
  rintro ⟨d, rfl⟩
  simp only [integerOf] at h
  split at h <;> cases h

theorem countOf_uncut (h : countOf digits = .error f) : ¬ f.IsTooDeep := by
  rintro ⟨d, rfl⟩
  simp only [countOf] at h
  split at h <;> cases h

theorem decimalOf_uncut (h : decimalOf written = .error f) : ¬ f.IsTooDeep := by
  rintro ⟨d, rfl⟩
  simp only [decimalOf] at h
  split at h <;> cases h

theorem dateOf_uncut (h : dateOf written = .error f) : ¬ f.IsTooDeep := by
  rintro ⟨d, rfl⟩
  simp only [dateOf] at h
  split at h <;> cases h

theorem Except.map_eq_error {α β : Type} {r : Except Fault α} {g : α → β} (h : g <$> r = .error f) :
    r = .error f := by
  cases r with
  | error f => cases h; rfl
  | ok a => cases h

/-- A literal that is refused is out of range or off the calendar. -/
theorem Token.literal?_uncut {t : Token} {r : Except Fault Literal} (ht : t.literal? = some r)
    (h : r = .error f) : ¬ f.IsTooDeep := by
  subst h
  unfold Token.literal? at ht
  split at ht
  · exact integerOf_uncut (Except.map_eq_error (Option.some.inj ht))
  · exact decimalOf_uncut (Except.map_eq_error (Option.some.inj ht))
  · exact dateOf_uncut (Except.map_eq_error (Option.some.inj ht))
  all_goals cases ht

end

section
variable {α β : Type} {limit levels slack : Nat} {s : Input}

theorem UncutAt.of_ok {p : Parser α} {a : α} {s' : Input} (hp : p s = .ok (a, s'))
    (hs : s'.rest.length ≤ s.rest.length) : UncutAt s p := by
  refine ⟨fun b s'' h => ?_, fun stop h => ?_⟩
  · obtain ⟨rfl, rfl⟩ := Prod.mk.inj (Except.ok.inj (hp.symm.trans h))
    exact hs
  · rw [hp] at h
    cases h

theorem UncutAt.of_error {p : Parser α} {stop : Stop} (hp : p s = .error stop)
    (hstop : ¬ stop.fault.IsTooDeep) : UncutAt s p := by
  refine ⟨fun b s'' h => ?_, fun stop' h => ?_⟩
  · rw [hp] at h
    cases h
  · obtain rfl := Except.error.inj (hp.symm.trans h)
    exact hstop

/-! ## Sequences -/

theorem CurtailsAt.bind {p q : Parser α} {f g : α → Parser β}
    (hp : CurtailsAt limit levels slack s p q)
    (hf : ∀ a s', q s = .ok (a, s') → CurtailsAt limit levels slack s' (f a) (g a)) :
    CurtailsAt limit levels slack s (p >>= f) (q >>= g) := by
  have hbind : ∀ (r : Parser α) (k : α → Parser β), (r >>= k) s = r s >>= fun x => k x.1 x.2 :=
    fun _ _ => rfl
  rcases hp with ⟨heq, hp⟩ | ⟨⟨rest, hcut⟩, hlt⟩
  · cases hq : q s with
    | error stop =>
      have hp' : (p >>= f) s = .error stop := by rw [hbind, heq, hq]; rfl
      have hq' : (q >>= g) s = .error stop := by rw [hbind, hq]; rfl
      exact .inl ⟨hp'.trans hq'.symm, .of_error hq' (hp.2 stop hq)⟩
    | ok x =>
      obtain ⟨a, s'⟩ := x
      have hp' : (p >>= f) s = f a s' := by rw [hbind, heq, hq]; rfl
      have hq' : (q >>= g) s = g a s' := by rw [hbind, hq]; rfl
      have hs := hp.1 a s' hq
      rcases hf a s' hq with ⟨heq', hlen, huncut⟩ | ⟨hcut, hlt⟩
      · exact .inl ⟨by rw [hp', hq', heq'], fun b s'' h => Nat.le_trans (hlen b s'' (hq' ▸ h)) hs,
          fun stop h => huncut stop (hq' ▸ h)⟩
      · exact .inr ⟨by rwa [hp'], by omega⟩
  · exact .inr ⟨⟨rest, by rw [hbind, hcut]; rfl⟩, hlt⟩

theorem CurtailsAt.peek_bind {f g : Token → Parser α}
    (h : CurtailsAt limit levels slack s (f (nextOf s.rest)) (g (nextOf s.rest))) :
    CurtailsAt limit levels slack s (peek >>= f) (peek >>= g) := by
  simpa only [CurtailsAt, UncutAt, Parser.peek_bind] using h

theorem CurtailsAt.mono {p q : Parser α} {levels' slack' : Nat}
    (h : CurtailsAt limit levels slack s p q) (hle : levels' + slack ≤ levels + slack') :
    CurtailsAt limit levels' slack' s p q :=
  h.imp_right fun ⟨hcut, hlt⟩ => ⟨hcut, by omega⟩

/-- A lexeme that is read leaves two more levels to the readers after it. -/
theorem CurtailsAt.advance_bind {p q : Parser α} (hs : nextOf s.rest ≠ .eof)
    (h : ∀ l rest, s.rest = l :: rest → CurtailsAt limit levels (slack + 2) ⟨rest, [], l.span⟩ p q) :
    CurtailsAt limit levels slack s (advance >>= fun _ => p) (advance >>= fun _ => q) := by
  obtain ⟨rest, tried, last⟩ := s
  cases rest with
  | nil => exact absurd rfl hs
  | cons l rest =>
    rcases h l rest rfl with ⟨heq, hlen, huncut⟩ | ⟨hcut, hlt⟩
    · exact .inl ⟨heq, fun a s' hq => Nat.le_trans (hlen a s' hq) (by simp), huncut⟩
    · exact .inr ⟨hcut, by simp at hlt ⊢; omega⟩

namespace Curtails

theorem mono {p q : Parser α} {levels' slack' : Nat} (h : Curtails limit levels slack p q)
    (hle : levels' + slack ≤ levels + slack') : Curtails limit levels' slack' p q :=
  fun s => (h s).mono hle

theorem bind {p q : Parser α} {f g : α → Parser β} (hp : Curtails limit levels slack p q)
    (hf : ∀ a, Curtails limit levels slack (f a) (g a)) :
    Curtails limit levels slack (p >>= f) (q >>= g) :=
  fun s => (hp s).bind fun a s' _ => hf a s'

/-- A reader that finds something without reading is not cut off. -/
theorem keeps {p : Parser α} (h : ∀ s, ∃ a s', p s = .ok (a, s') ∧ s'.rest = s.rest) :
    Curtails limit levels slack p p := by
  intro s
  obtain ⟨a, s', hp, hs⟩ := h s
  exact .inl ⟨rfl, .of_ok hp (Nat.le_of_eq (congrArg List.length hs))⟩

/-- A reader that stops with another fault is not cut off. -/
theorem stops {p : Parser α} (h : ∀ s, ∃ stop, p s = .error stop ∧ ¬ stop.fault.IsTooDeep) :
    Curtails limit levels slack p p := by
  intro s
  obtain ⟨stop, hp, hstop⟩ := h s
  exact .inl ⟨rfl, .of_error hp hstop⟩

theorem pure (a : α) : Curtails limit levels slack (Pure.pure a) (Pure.pure a) :=
  keeps fun s => ⟨a, s, rfl, rfl⟩

theorem map {p q : Parser α} {f : α → β} (h : Curtails limit levels slack p q) :
    Curtails limit levels slack (f <$> p) (f <$> q) := bind h fun a => pure (f a)

theorem peek : Curtails limit levels slack Parser.peek Parser.peek :=
  keeps fun s => ⟨_, s, rfl, rfl⟩

theorem peekNth (n : Nat) : Curtails limit levels slack (Parser.peekNth n) (Parser.peekNth n) :=
  keeps fun s => ⟨_, s, rfl, rfl⟩

theorem nextSpan : Curtails limit levels slack Parser.nextSpan Parser.nextSpan :=
  keeps fun s => ⟨_, s, rfl, rfl⟩

theorem lastSpan : Curtails limit levels slack Parser.lastSpan Parser.lastSpan :=
  keeps fun s => ⟨_, s, rfl, rfl⟩

theorem record (e : Expected) : Curtails limit levels slack (Parser.record e) (Parser.record e) :=
  keeps fun _ => ⟨_, _, rfl, rfl⟩

theorem fail {f : Fault} (hf : ¬ f.IsTooDeep) :
    Curtails limit levels slack (Parser.fail f : Parser α) (Parser.fail f) :=
  stops fun _ => ⟨_, rfl, hf⟩

theorem unexpected : Curtails limit levels slack (Parser.unexpected : Parser α) Parser.unexpected :=
  stops fun _ => ⟨_, rfl, fun ⟨_, h⟩ => by cases h⟩

theorem missing (e : Expected) :
    Curtails limit levels slack (Parser.missing e : Parser α) (Parser.missing e) :=
  bind (record e) fun _ => unexpected

theorem advance : Curtails limit levels slack Parser.advance Parser.advance := by
  rintro ⟨_ | ⟨l, rest⟩, tried, last⟩
  · exact .inl ⟨rfl, .of_ok rfl (Nat.le_refl _)⟩
  · exact .inl ⟨rfl, .of_ok rfl (Nat.le_succ _)⟩

theorem take {r : Except Fault α} (hr : ∀ f, r = .error f → ¬ f.IsTooDeep) :
    Curtails limit levels slack (Parser.take r) (Parser.take r) := by
  cases r with
  | ok a => exact bind advance fun _ => pure a
  | error f => exact fail (hr f rfl)

theorem take_ok (a : α) :
    Curtails limit levels slack (Parser.take (.ok a)) (Parser.take (.ok a)) :=
  take fun _ h => by cases h

/-! ## Terminals -/

/-- A terminal that is read leaves two more levels to the readers after it. -/
theorem acceptQuietly_bind {x : Terminal} {f g : Bool → Parser α}
    (hit : Curtails limit levels (slack + 2) (f true) (g true))
    (miss : Curtails limit levels slack (f false) (g false)) :
    Curtails limit levels slack (acceptQuietly x >>= f) (acceptQuietly x >>= g) := by
  intro s
  unfold acceptQuietly
  rw [bind_assoc, bind_assoc]
  refine .peek_bind ?_
  split
  · next hx =>
    rw [bind_assoc, bind_assoc]
    refine .advance_bind (fun he => ?_) fun _ _ _ => hit _
    rw [he] at hx
    cases hx
  · exact miss s

theorem accept_bind {x : Terminal} {f g : Bool → Parser α}
    (hit : Curtails limit levels (slack + 2) (f true) (g true))
    (miss : Curtails limit levels slack (f false) (g false)) :
    Curtails limit levels slack (accept x >>= f) (accept x >>= g) := by
  unfold accept
  rw [bind_assoc, bind_assoc]
  refine acceptQuietly_bind hit ?_
  simp only [Bool.false_eq_true, if_false, bind_assoc, pure_bind]
  exact bind (record _) fun _ => miss

theorem accept (x : Terminal) : Curtails limit levels slack (Parser.accept x) (Parser.accept x) := by
  unfold Parser.accept
  refine acceptQuietly_bind (pure true) ?_
  simp only [Bool.false_eq_true, if_false]
  exact bind (record _) fun _ => pure false

theorem expect_bind {x : Terminal} {p q : Parser α} (h : Curtails limit levels (slack + 2) p q) :
    Curtails limit levels slack (Parser.expect x >>= fun _ => p) (Parser.expect x >>= fun _ => q) := by
  unfold Parser.expect
  rw [bind_assoc, bind_assoc]
  exact accept_bind h fun s => (unexpected s).bind fun _ _ hs => absurd hs unexpected_ne_ok

theorem expect (x : Terminal) : Curtails limit levels slack (Parser.expect x) (Parser.expect x) :=
  accept_bind (pure ()) unexpected

theorem after {x : Terminal} {p q : Parser α} (h : Curtails limit levels (slack + 2) p q) :
    Curtails limit levels slack (Parser.after x p) (Parser.after x q) :=
  accept_bind (map h) (pure none)

theorem afterQuietly {x : Terminal} {p q : Parser α} (h : Curtails limit levels (slack + 2) p q) :
    Curtails limit levels slack (Parser.afterQuietly x p) (Parser.afterQuietly x q) :=
  acceptQuietly_bind (map h) (pure none)

/-! ## Repetition -/

theorem repeatUpTo {p q : Parser (Option α)} (h : Curtails limit levels slack p q) (rounds : Nat) :
    Curtails limit levels slack (Parser.repeatUpTo p rounds) (Parser.repeatUpTo q rounds) := by
  induction rounds with
  | zero => exact pure []
  | succ rounds ih =>
    refine bind h fun o => ?_
    cases o with
    | none => exact pure []
    | some a => exact bind ih fun _ => pure _

theorem many {p q : Parser (Option α)} (h : Curtails limit levels slack p q) :
    Curtails limit levels slack (Parser.many p) (Parser.many q) :=
  fun s => repeatUpTo h _ s

theorem commaList {p q : Parser α} (h : Curtails limit levels slack p q) :
    Curtails limit levels slack (Parser.commaList p) (Parser.commaList q) :=
  bind h fun _ => bind (many (after (h.mono (by omega)))) fun _ => pure _

/-! ## Values -/

theorem takeCount (digits : String) :
    Curtails limit levels slack (Parser.take (countOf digits)) (Parser.take (countOf digits)) :=
  take fun _ => countOf_uncut

theorem takeDate (written : String) :
    Curtails limit levels slack (Parser.take (dateOf written)) (Parser.take (dateOf written)) :=
  take fun _ => dateOf_uncut

theorem literal? : Curtails limit levels slack Parser.literal? Parser.literal? := by
  refine bind peek fun t => ?_
  cases ht : t.literal? with
  | none => exact pure none
  | some r => exact map (take fun _ => Token.literal?_uncut ht)

theorem name : Curtails limit levels slack Parser.name Parser.name := by
  refine bind peek fun t => ?_
  cases t.name? with
  | none => exact missing .identifier
  | some n => exact take_ok n

theorem date : Curtails limit levels slack Parser.date Parser.date := by
  refine bind peek fun t => ?_
  cases t with
  | date written => exact takeDate written
  | _ => exact missing .date

theorem stringValue : Curtails limit levels slack Parser.stringValue Parser.stringValue := by
  refine bind peek fun t => ?_
  cases t with
  | string s => exact take_ok s.value
  | _ => exact missing .string

theorem count : Curtails limit levels slack Parser.count Parser.count := by
  refine bind peek fun t => ?_
  cases t with
  | integer digits => exact takeCount digits
  | _ => exact missing .integer

end Curtails

end

end LedgerQuery
