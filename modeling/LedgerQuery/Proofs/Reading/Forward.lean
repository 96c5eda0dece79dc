import LedgerQuery.Grammar.Value
import LedgerQuery.Proofs.Phrase.Basic
import LedgerQuery.Proofs.Reading.Rank

/-!
# What a reader reads

`Reads p u F a` says that the reader `p` reads exactly the run `u`, and finds
the value `a` in it, whenever the token after the run satisfies `F`.  It does so
whatever else follows, and whatever was read or tried before.

There is one rule for each way that readers are built.  Where two readers follow
each other, the first run has to end where the second begins.  So the condition
of the first has to hold of the first token of the second run, or, if that run is
empty, of the token that follows it.
-/

namespace LedgerQuery

open Token

/-- The span of the last lexeme of a run, or else the span of the one before the run. -/
def spanAfter (last : Span) : List Lexeme → Span
  | [] => last
  | l :: u => spanAfter l.span u

@[simp] theorem spanAfter_nil (last : Span) : spanAfter last [] = last := rfl

@[simp] theorem spanAfter_cons (last : Span) (l : Lexeme) (u : List Lexeme) :
    spanAfter last (l :: u) = spanAfter l.span u := rfl

@[simp] theorem spanAfter_append (last : Span) (u v : List Lexeme) :
    spanAfter last (u ++ v) = spanAfter (spanAfter last u) v := by
  induction u generalizing last with
  | nil => rfl
  | cons l u ih => exact ih l.span

theorem spanAfter_eq_getLast? (last : Span) {u : List Lexeme} (h : u ≠ []) :
    ∃ l ∈ u.getLast?, spanAfter last u = l.span := by
  induction u generalizing last with
  | nil => exact absurd rfl h
  | cons l u ih =>
    cases u with
    | nil => exact ⟨l, rfl, rfl⟩
    | cons m u =>
      obtain ⟨k, hk, hs⟩ := ih l.span (by simp)
      exact ⟨k, by simpa using hk, hs⟩

/-- The token at the front of what remains. -/
abbrev nextOf (rest : List Lexeme) : Token := firstOf .eof rest

theorem nextOf_append (u rest : List Lexeme) : nextOf (u ++ rest) = firstOf (nextOf rest) u :=
  firstOf_append ..

namespace Input

theorem next_eq (rest : List Lexeme) (tried : List Expected) (last : Span) :
    (Input.mk rest tried last).next = nextOf rest := by
  cases rest <;> rfl

theorem nth_append (u rest : List Lexeme) (tried : List Expected) (last : Span) {n : Nat}
    (h : n ≤ u.length) :
    (Input.mk (u ++ rest) tried last).nth n = firstOf (nextOf rest) (u.drop n) := by
  induction u generalizing n with
  | nil =>
    obtain rfl : n = 0 := Nat.le_zero.mp h
    exact next_eq rest tried last
  | cons l u ih =>
    cases n with
    | zero => rfl
    | succ n => exact ih (Nat.le_of_succ_le_succ h)

end Input

/-- A reader reads a run as a value if the token after the run satisfies a condition. -/
def Reads {α : Type} (p : Parser α) (u : List Lexeme) (F : Token → Prop) (a : α) : Prop :=
  ∀ rest tried last, F (nextOf rest) →
    ∃ tried', p ⟨u ++ rest, tried, last⟩ = .ok (a, ⟨rest, tried', spanAfter last u⟩)

namespace Reads

open LedgerQuery.Parser

variable {α β : Type} {u v w : List Lexeme} {F E : Token → Prop} {a : α} {b : β} {l : Lexeme}

theorem mono {p : Parser α} (h : Reads p u E a) (hF : ∀ t, F t → E t) : Reads p u F a :=
  fun rest tried last hr => h rest tried last (hF _ hr)

/-! ## Sequences -/

theorem pure (a : α) : Reads (Pure.pure a) [] F a := fun _ tried _ _ => ⟨tried, rfl⟩

theorem bind {p : Parser α} {f : α → Parser β} (hp : Reads p v E a) (hf : Reads (f a) w F b)
    (hF : ∀ t, F t → E (firstOf t w)) : Reads (p >>= f) (v ++ w) F b := by
  intro rest tried last hr
  obtain ⟨tried₁, h₁⟩ := hp (w ++ rest) tried last (by simpa using hF _ hr)
  obtain ⟨tried₂, h₂⟩ := hf rest tried₁ (spanAfter last v) hr
  refine ⟨tried₂, ?_⟩
  rw [List.append_assoc, spanAfter_append, ← h₂]
  show (p _ >>= fun x => f x.1 x.2) = _
  rw [h₁]
  rfl

/-- A reader that reads its run whatever follows, and another after it. -/
theorem andThen {p : Parser α} {f : α → Parser β} (hp : Reads p v (fun _ => True) a)
    (hf : Reads (f a) w F b) : Reads (p >>= f) (v ++ w) F b :=
  bind hp hf fun _ _ => trivial

/-- A reader that reads nothing, and another after it. -/
theorem skip {p : Parser α} {f : α → Parser β} (hp : Reads p [] E a) (hf : Reads (f a) u F b)
    (hF : ∀ t, F t → E (firstOf t u)) : Reads (p >>= f) u F b :=
  bind hp hf hF

/-- A reader and another that reads nothing. -/
theorem andLast {p : Parser α} {f : α → Parser β} (hp : Reads p u F a) (hf : Reads (f a) [] F b) :
    Reads (p >>= f) u F b := by
  have h := bind hp hf fun _ ht => ht
  rwa [List.append_nil] at h

/-- A reader and a function of what it finds. -/
theorem bind_pure {p : Parser α} {f : α → β} (hp : Reads p u F a) :
    Reads (p >>= fun a => Pure.pure (f a)) u F (f a) :=
  andLast hp (pure (f a))

theorem map {p : Parser α} {f : α → β} (hp : Reads p u F a) : Reads (f <$> p) u F (f a) :=
  bind_pure hp

/-- A reader that only looks ahead, and what is read with what it sees. -/
theorem look {q : Parser β} {f : β → Parser α} (h : Reads (f b) u F a)
    (hq : ∀ rest tried last, F (nextOf rest) →
      q ⟨u ++ rest, tried, last⟩ = .ok (b, ⟨u ++ rest, tried, last⟩)) :
    Reads (q >>= f) u F a := by
  intro rest tried last hr
  obtain ⟨tried', h'⟩ := h rest tried last hr
  refine ⟨tried', ?_⟩
  rw [← h']
  show (q _ >>= fun x => f x.1 x.2) = _
  rw [hq rest tried last hr]
  rfl

theorem peek {f : Token → Parser α}
    (h : ∀ t, F t → Reads (f (firstOf t u)) u (· = t) a) : Reads (Parser.peek >>= f) u F a := by
  intro rest tried last hr
  refine look (h _ hr) (fun rest' tried' last' ht => ?_) rest tried last rfl
  show Except.ok ((Input.mk (u ++ rest') tried' last').next, _) = _
  rw [Input.next_eq, nextOf_append, ht]

theorem peekNth {f : Token → Parser α} {n : Nat} (hn : n ≤ u.length)
    (h : ∀ t, F t → Reads (f (firstOf t (u.drop n))) u (· = t) a) :
    Reads (Parser.peekNth n >>= f) u F a := by
  intro rest tried last hr
  refine look (h _ hr) (fun rest' tried' last' ht => ?_) rest tried last rfl
  show Except.ok ((Input.mk (u ++ rest') tried' last').nth n, _) = _
  rw [Input.nth_append _ _ _ _ hn, ht]

theorem nextSpan {f : Span → Parser α} (h : Reads (f l.span) (l :: u) F a) :
    Reads (Parser.nextSpan >>= f) (l :: u) F a := look h fun _ _ _ _ => rfl

/-- The span of the last lexeme read, after a run that is not empty. -/
theorem bind_lastSpan {p : Parser α} {f : α → Span → Parser β} (hu : u ≠ [])
    (hp : Reads p u F a) (hf : ∀ m ∈ u.getLast?, Reads (f a m.span) [] F b) :
    Reads (p >>= fun a => Parser.lastSpan >>= f a) u F b := by
  intro rest tried last hr
  obtain ⟨tried₁, h₁⟩ := hp rest tried last hr
  obtain ⟨m, hm, hs⟩ := spanAfter_eq_getLast? last hu
  obtain ⟨tried₂, h₂⟩ := hf m hm rest tried₁ (spanAfter last u) hr
  refine ⟨tried₂, ?_⟩
  show (p _ >>= fun x => (Parser.lastSpan >>= f x.1) x.2) = _
  rw [h₁]
  show f a (spanAfter last u) _ = _
  rw [hs] at h₂ ⊢
  exact h₂

/-! ## Single lexemes -/

theorem advance : Reads Parser.advance [l] F () := fun _ _ _ _ => ⟨[], rfl⟩

theorem record (e : Expected) : Reads (Parser.record e) [] F () := fun _ _ _ _ => ⟨_, rfl⟩

theorem take_ok (a : α) : Reads (Parser.take (.ok a)) [l] F a := advance.bind_pure

theorem acceptQuietly_hit {x : Terminal} (h : l.token.is x = true) :
    Reads (acceptQuietly x) [l] F true := by
  refine peek fun t _ => ?_
  rw [firstOf_cons, if_pos h]
  exact advance.bind_pure

theorem acceptQuietly_miss {x : Terminal} (h : ∀ t, F t → t.is x = false) :
    Reads (acceptQuietly x) [] F false := by
  refine peek fun t ht => ?_
  rw [firstOf_nil, h t ht]
  exact pure false

theorem accept_hit {x : Terminal} (h : l.token.is x = true) : Reads (accept x) [l] F true :=
  (acceptQuietly_hit (F := fun _ => True) h).bind (pure true) fun _ _ => trivial

theorem accept_miss {x : Terminal} (h : ∀ t, F t → t.is x = false) :
    Reads (accept x) [] F false :=
  (acceptQuietly_miss h).bind ((record _).bind_pure) fun _ ht => ht

theorem expect {x : Terminal} (h : l.token.is x = true) : Reads (Parser.expect x) [l] F () :=
  (accept_hit (F := fun _ => True) h).bind (pure ()) fun _ _ => trivial

theorem after_hit {x : Terminal} {p : Parser α} (h : l.token.is x = true) (hp : Reads p u F a) :
    Reads (after x p) (l :: u) F (some a) :=
  (accept_hit (F := fun _ => True) h).bind (map hp) fun _ _ => trivial

theorem after_miss {x : Terminal} {p : Parser α} (h : ∀ t, F t → t.is x = false) :
    Reads (after x p) [] F none :=
  (accept_miss h).bind (pure none) fun _ ht => ht

theorem afterQuietly_hit {x : Terminal} {p : Parser α} (h : l.token.is x = true)
    (hp : Reads p u F a) : Reads (afterQuietly x p) (l :: u) F (some a) :=
  (acceptQuietly_hit (F := fun _ => True) h).bind (map hp) fun _ _ => trivial

theorem afterQuietly_miss {x : Terminal} {p : Parser α} (h : ∀ t, F t → t.is x = false) :
    Reads (afterQuietly x p) [] F none :=
  (acceptQuietly_miss h).bind (pure none) fun _ ht => ht

/-! ## Repetition -/

theorem many_of_rounds {p : Parser (Option α)} {as : List α}
    (h : ∀ rounds, u.length < rounds → Reads (repeatUpTo p rounds) u F as) :
    Reads (many p) u F as := by
  intro rest tried last hr
  exact h _ (by simp only [List.length_append]; omega) rest tried last hr

/-- What holds of the first token of an item and of the token after all items holds of the
first token where the items begin. -/
theorem firstOf_many {L : Phrase α} {P : Token → Prop} {as : List α} {t : Token}
    (h : Phrase.Many L u as) (starts : ∀ v a, L v a → ∃ l w, v = l :: w ∧ P l.token) (ht : P t) :
    P (firstOf t u) := by
  cases u with
  | nil => exact ht
  | cons l u => exact h.head starts l rfl

theorem many {L : Phrase α} {p : Parser (Option α)} {as : List α}
    (stop : Reads p [] F none)
    (step : ∀ v a, v.length ≤ u.length → L v a → Reads p v E (some a))
    (starts : ∀ v a, L v a → ∃ l w, v = l :: w ∧ E l.token)
    (hF : ∀ t, F t → E t)
    (h : Phrase.Many L u as) : Reads (Parser.many p) u F as := by
  refine many_of_rounds fun rounds hr => ?_
  induction h generalizing rounds with
  | nil =>
    cases rounds with
    | zero => exact pure []
    | succ rounds => exact stop.bind (pure []) fun _ ht => ht
  | @cons v w a as hv hw ih =>
    obtain ⟨l, v', rfl, -⟩ := starts v a hv
    cases rounds with
    | zero => exact absurd hr (Nat.not_lt_zero _)
    | succ rounds =>
      refine bind (step _ _ (by simp) hv) ?_ fun t ht => firstOf_many hw starts (hF t ht)
      refine bind_pure (ih (fun v a hl => step v a (by simp at hl ⊢; omega)) rounds ?_)
      simp at hr
      omega

/-- Any number of readings, each after a terminal. -/
theorem many_after {L : Phrase α} {p : Parser α} {x : Terminal} {as : List α}
    (stop : ∀ t, F t → t.is x = false)
    (step : ∀ v a, v.length < u.length → L v a → Reads p v E a)
    (next : ∀ t, t.is x = true → E t)
    (hF : ∀ t, F t → E t)
    (h : Phrase.Many (do Phrase.terminal x; L) u as) :
    Reads (Parser.many (after x p)) u F as := by
  refine many (after_miss stop) (fun v a hv hl => ?_) (fun v a hl => ?_) hF h
  · obtain ⟨_, w, _, rfl, ⟨l, rfl, hx⟩, hw⟩ := hl
    exact after_hit hx (step w a (by simp at hv; omega) hw)
  · obtain ⟨_, w, _, rfl, ⟨l, rfl, hx⟩, hw⟩ := hl
    exact ⟨l, w, rfl, next _ hx⟩

/-- One or more readings with commas between. -/
theorem commaList {L : Phrase α} {p : Parser α} {as : List α}
    (stop : ∀ t, F t → t.is (.symbol .comma) = false)
    (step : ∀ v a, v.length ≤ u.length → L v a → Reads p v E a)
    (next : ∀ t, t.is (.symbol .comma) = true → E t)
    (hF : ∀ t, F t → E t)
    (h : Phrase.commaList L u as) : Reads (Parser.commaList p) u F as := by
  obtain ⟨v, w, a, rfl, hv, w', w'', as, rfl, hw, rfl, rfl⟩ := h
  rw [List.append_nil] at *
  refine bind (step v a (by simp) hv) (bind_pure ?_) fun t ht => firstOf_many hw ?_ (hF t ht)
  · exact many_after stop (fun v a hl => step v a (by simp at hl ⊢; omega)) next hF hw
  · rintro _ _ ⟨_, x, _, rfl, ⟨m, rfl, hm⟩, -⟩
    exact ⟨m, x, rfl, next _ hm⟩

end Reads

end LedgerQuery
