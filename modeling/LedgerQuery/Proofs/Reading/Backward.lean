import LedgerQuery.Proofs.Reading.Forward
import LedgerQuery.Proofs.Phrase.Grammar

/-!
# What a reader finds

`Finds H I J p L` says what the reader `p` did when it found something.  If what
remained satisfied `I`, then it moved over a run that the phrase `L` allows for
what it found, and what remains satisfies `J`.

The one other thing that may have happened is that it halted, at a place that `H` allows.
The readers that follow stay there (`Idle`), so a text on which a reader halts is never read to
its end.  This is how a key may be read that is an integer and is taken for an expression
because of a `NOT` after it.  A query may halt before any token that would continue an
expression (`Halted`).  An expression that is a query without parentheses may only halt before a
`NOT` that dangles (`Dangling`), since it would go on otherwise.

The conditions are about which `SELECT` keywords are to come.  An `Invariant`
survives every token but `FROM`, and `FROM` too, if no query in parentheses
follows it.
-/

namespace LedgerQuery

open Token

/-- Whether a token is next that would continue an expression. -/
def Halted (rest : List Lexeme) : Prop := (nextOf rest).continuesExpression = true

/-- Whether a `NOT` without an `IN` after it is next.  Nothing that ended before it can go on. -/
def Dangling (rest : List Lexeme) : Prop :=
  (nextOf rest).is (.keyword .not) = true ∧ (nextOf rest.tail).is (.keyword .in) = false

/-- Nowhere. -/
abbrev Never : List Lexeme → Prop := fun _ => False

theorem Dangling.halted {rest : List Lexeme} (h : Dangling rest) : Halted rest := by
  obtain ⟨written, hn⟩ := is_keyword_iff.mp h.1
  rw [Halted, hn]
  rfl

/-- No other terminal is next. -/
theorem Dangling.is_eq_false {rest : List Lexeme} (h : Dangling rest) {x : Terminal} (hx : x ≠ .keyword .not) :
    (nextOf rest).is x = false := by
  obtain ⟨written, hn⟩ := is_keyword_iff.mp h.1
  rw [hn]
  exact decide_eq_false fun he => hx (Option.some.inj he).symm

/-- Whether a terminal continues an expression. -/
def Terminal.continues : Terminal → Bool
  | .keyword k => (Token.keyword k "").continuesExpression
  | .symbol s => (Token.symbol s).continuesExpression

/-- Whether a reader that finds something at a place of a kind stays there. -/
def Idle {α : Type} (H : List Lexeme → Prop) (p : Parser α) : Prop :=
  ∀ s a s', H s.rest → p s = .ok (a, s') → s'.rest = s.rest

/-- Whether reading moved over a run. -/
structure Input.Moved (s : Input) (u : List Lexeme) (s' : Input) : Prop where
  /-- The run was in front of what remains. -/
  rest : s.rest = u ++ s'.rest
  /-- The last span is that of the run. -/
  last : s'.last = spanAfter s.last u

/-- What a condition on the lexemes to come has to survive. -/
structure Invariant (I : List Lexeme → Prop) : Prop where
  /-- Any token but `FROM` may be read. -/
  tail : ∀ {l rest}, I (l :: rest) → l.token.is (.keyword .from) = false → I rest
  /-- So may `FROM` before anything but a query in parentheses. -/
  filter : ∀ {l rest}, I (l :: rest) → l.token.is (.keyword .from) = true →
    ¬ Phrase.BeginsWithQuery rest → I rest
  /-- So may `FROM` and the first two tokens of a query in parentheses. -/
  query : ∀ {l m k rest}, I (l :: m :: k :: rest) → l.token.is (.keyword .from) = true →
    m.token.is (.symbol .leftParen) = true → k.token.is (.keyword .select) = true → I rest

/-- A reader finds what a phrase allows, unless it halts where it may halt. -/
def Finds {α : Type} (H I J : List Lexeme → Prop) (p : Parser α) (L : Phrase α) : Prop :=
  ∀ s a s', I s.rest → p s = .ok (a, s') → (∃ u, s.Moved u s' ∧ J s'.rest ∧ L u a) ∨ H s'.rest

namespace Parser

variable {α β : Type} {s s' : Input} {b : β}

theorem bind_eq_ok {p : Parser α} {f : α → Parser β} :
    (p >>= f) s = .ok (b, s') ↔ ∃ a s₁, p s = .ok (a, s₁) ∧ f a s₁ = .ok (b, s') := by
  show (p s >>= fun x => f x.1 x.2) = _ ↔ _
  cases p s with
  | error stop => simp [bind, Except.bind]
  | ok x =>
    obtain ⟨a, s₁⟩ := x
    constructor
    · exact fun h => ⟨a, s₁, rfl, h⟩
    · rintro ⟨_, _, ⟨⟩, h⟩
      exact h

theorem map_eq_ok {p : Parser α} {f : α → β} :
    (f <$> p) s = .ok (b, s') ↔ ∃ a, p s = .ok (a, s') ∧ f a = b := by
  show (p s >>= fun x => .ok (f x.1, x.2)) = _ ↔ _
  cases p s with
  | error stop => simp [bind, Except.bind]
  | ok x =>
    obtain ⟨a, s₁⟩ := x
    simp only [bind, Except.bind, Except.ok.injEq, Prod.mk.injEq]
    constructor
    · rintro ⟨rfl, rfl⟩
      exact ⟨a, ⟨rfl, rfl⟩, rfl⟩
    · rintro ⟨_, ⟨rfl, rfl⟩, rfl⟩
      exact ⟨rfl, rfl⟩

theorem pure_eq_ok {a b : α} : (pure a : Parser α) s = .ok (b, s') ↔ a = b ∧ s = s' := by
  show Except.ok (a, s) = _ ↔ _
  simp

theorem next_eq_nextOf (s : Input) : s.next = nextOf s.rest := by
  obtain ⟨rest, tried, last⟩ := s
  exact Input.next_eq rest tried last

/-- Either a terminal is next and is read, or it is not and nothing is read. -/
theorem acceptQuietly_eq_ok {x : Terminal} {b : Bool} (h : acceptQuietly x s = .ok (b, s')) :
    (b = true ∧ ∃ l rest, s.rest = l :: rest ∧ l.token.is x = true ∧ s' = ⟨rest, [], l.span⟩) ∨
      (b = false ∧ (nextOf s.rest).is x = false ∧ s' = s) := by
  unfold acceptQuietly at h
  obtain ⟨t, s₁, ht, h⟩ := bind_eq_ok.mp h
  obtain ⟨rfl, rfl⟩ : s.next = t ∧ s = s₁ := by simpa [peek] using ht
  rw [next_eq_nextOf] at h
  split at h
  · next hx =>
    obtain ⟨_, s₂, h₂, h⟩ := bind_eq_ok.mp h
    obtain ⟨rfl, rfl⟩ := pure_eq_ok.mp h
    refine .inl ⟨rfl, ?_⟩
    obtain ⟨rest, tried, last⟩ := s
    cases rest with
    | nil => simp [nextOf, is, terminal?] at hx
    | cons l rest => exact ⟨l, rest, rfl, hx, by simpa [advance] using h₂.symm⟩
  · next hx =>
    obtain ⟨rfl, rfl⟩ := pure_eq_ok.mp h
    exact .inr ⟨rfl, by simpa using hx, rfl⟩

theorem accept_eq_ok {x : Terminal} {b : Bool} (h : accept x s = .ok (b, s')) :
    (b = true ∧ ∃ l rest, s.rest = l :: rest ∧ l.token.is x = true ∧ s' = ⟨rest, [], l.span⟩) ∨
      (b = false ∧ (nextOf s.rest).is x = false ∧ s'.rest = s.rest ∧ s'.last = s.last) := by
  unfold accept at h
  obtain ⟨b', s₁, h₁, h₂⟩ := bind_eq_ok.mp h
  rcases acceptQuietly_eq_ok h₁ with ⟨rfl, l, rest, hs, hl, rfl⟩ | ⟨rfl, hl, rfl⟩
  · obtain ⟨rfl, rfl⟩ := pure_eq_ok.mp h₂
    exact .inl ⟨rfl, l, rest, hs, hl, rfl⟩
  · obtain ⟨_, s₂, h₃, h₄⟩ := bind_eq_ok.mp h₂
    obtain ⟨rfl, rfl⟩ := pure_eq_ok.mp h₄
    obtain rfl : { s₁ with tried := .terminal x :: s₁.tried } = s₂ := by simpa [record] using h₃
    exact .inr ⟨rfl, hl, rfl, rfl⟩

theorem unexpected_ne_ok {a : α} : unexpected s ≠ .ok (a, s') := by simp [unexpected]

theorem missing_ne_ok {e : Expected} {a : α} : missing e s ≠ .ok (a, s') := by
  intro h
  unfold missing at h
  obtain ⟨_, s₁, -, h⟩ := bind_eq_ok.mp h
  exact unexpected_ne_ok h

theorem fail_ne_ok {f : Fault} {a : α} : fail f s ≠ .ok (a, s') := by simp [fail]

theorem expect_eq_ok {x : Terminal} {a : Unit} (h : expect x s = .ok (a, s')) :
    ∃ l rest, s.rest = l :: rest ∧ l.token.is x = true ∧ s' = ⟨rest, [], l.span⟩ := by
  unfold expect at h
  obtain ⟨b, s₁, h₁, h⟩ := bind_eq_ok.mp h
  rcases accept_eq_ok h₁ with ⟨rfl, l, rest, hs, hl, rfl⟩ | ⟨rfl, -⟩
  · obtain ⟨rfl, rfl⟩ := pure_eq_ok.mp h
    exact ⟨l, rest, hs, hl, rfl⟩
  · exact absurd h unexpected_ne_ok

/-- A value that is taken was not refused, and its lexeme is read. -/
theorem take_eq_ok {r : Except Fault α} {a : α} (h : take r s = .ok (a, s'))
    (hs : nextOf s.rest ≠ .eof) :
    r = .ok a ∧ ∃ l rest, s.rest = l :: rest ∧ s' = ⟨rest, [], l.span⟩ := by
  cases r with
  | error f => exact absurd h fail_ne_ok
  | ok a' =>
    obtain ⟨_, s₁, h₁, h⟩ := bind_eq_ok.mp h
    obtain ⟨rfl, rfl⟩ := pure_eq_ok.mp h
    obtain ⟨rest, tried, last⟩ := s
    cases rest with
    | nil => exact absurd rfl hs
    | cons l rest => exact ⟨rfl, l, rest, rfl, by simpa [advance] using h₁.symm⟩

end Parser

theorem Token.is_eq_false_of_is {t : Token} {x y : Terminal} (h : t.is x = true) (hxy : x ≠ y) :
    t.is y = false := by
  rw [← Bool.not_eq_true]
  intro hy
  rw [is, decide_eq_true_eq] at h hy
  exact hxy (Option.some.inj (h.symm.trans hy))

namespace Input.Moved

variable {s s' s'' : Input} {u v : List Lexeme}

theorem refl (s : Input) : s.Moved [] s := ⟨rfl, rfl⟩

/-- Only what was tried has changed. -/
theorem of_eq (hr : s'.rest = s.rest) (hl : s'.last = s.last) : s.Moved [] s' := ⟨hr.symm, hl⟩

theorem trans (h : s.Moved u s') (h' : s'.Moved v s'') : s.Moved (u ++ v) s'' :=
  ⟨by rw [h.rest, h'.rest, List.append_assoc], by rw [h'.last, h.last, spanAfter_append]⟩

theorem skip (h : s.Moved [] s') (h' : s'.Moved v s'') : s.Moved v s'' := h.trans h'

theorem single {l : Lexeme} {rest : List Lexeme} (h : s.rest = l :: rest) :
    s.Moved [l] ⟨rest, [], l.span⟩ := ⟨h, rfl⟩

end Input.Moved

namespace Finds

open LedgerQuery.Parser

variable {α β : Type} {H H₁ I J K : List Lexeme → Prop} {L : Phrase α}

/-- A reader that may not halt finds what its phrase allows. -/
theorem exact {p : Parser α} {s s' : Input} {a : α} (hp : Finds Never I J p L) (hI : I s.rest)
    (hs : p s = .ok (a, s')) : ∃ u, s.Moved u s' ∧ J s'.rest ∧ L u a :=
  (hp s a s' hI hs).resolve_right id

theorem of_exact {p : Parser α}
    (hp : ∀ s a s', I s.rest → p s = .ok (a, s') → ∃ u, s.Moved u s' ∧ J s'.rest ∧ L u a) :
    Finds H I J p L := fun s a s' hI hs => .inl (hp s a s' hI hs)

theorem mono {p : Parser α} {L' : Phrase α} (hp : Finds H₁ I J p L) (hH : ∀ {rest}, H₁ rest → H rest)
    (hL : ∀ u a, L u a → L' u a) : Finds H I J p L' := by
  intro s a s' hI hs
  rcases hp s a s' hI hs with ⟨u, hu, hJ, hl⟩ | hhalt
  · exact .inl ⟨u, hu, hJ, hL u a hl⟩
  · exact .inr (hH hhalt)

/-! ## Sequences -/

theorem pure (a : α) : Finds H I I (Pure.pure a) (Pure.pure a) := by
  intro s b s' hI hs
  obtain ⟨rfl, rfl⟩ := pure_eq_ok.mp hs
  exact .inl ⟨[], .refl s, hI, rfl, rfl⟩

/-- A reader and another after it, which stays where the first one may have halted. -/
theorem bind {p : Parser α} {f : α → Parser β} {L' : α → Phrase β} (hp : Finds H₁ I J p L)
    (hf : ∀ a, Finds H J K (f a) (L' a)) (hH : ∀ {rest}, H₁ rest → H rest) (hi : ∀ a, Idle H₁ (f a)) :
    Finds H I K (p >>= f) (L >>= L') := by
  intro s b s' hI hs
  obtain ⟨a, s₁, h₁s, hs⟩ := bind_eq_ok.mp hs
  rcases hp s a s₁ hI h₁s with ⟨u, hu, hJ, hl⟩ | hhalt
  · rcases hf a s₁ b s' hJ hs with ⟨v, hv, hK, hl'⟩ | hhalt
    · exact .inl ⟨u ++ v, hu.trans hv, hK, u, v, a, rfl, hl, hl'⟩
    · exact .inr hhalt
  · have hr := hi a s₁ b s' hhalt hs
    exact .inr (hH (by rw [hr]; exact hhalt))

/-- A reader that may not halt, and another after it. -/
theorem andThen {p : Parser α} {f : α → Parser β} {L' : α → Phrase β} (hp : Finds Never I J p L)
    (hf : ∀ a, Finds H J K (f a) (L' a)) : Finds H I K (p >>= f) (L >>= L') :=
  bind hp hf False.elim fun _ _ _ _ hhalt => hhalt.elim

/-! ## Terminals -/

section
variable (hinv : Invariant I)
include hinv

theorem accept {x : Terminal} (hx : x ≠ .keyword .from) :
    Finds H I I (Parser.accept x) (Phrase.flag x) := by
  refine of_exact fun s b s' hI hs => ?_
  rcases accept_eq_ok hs with ⟨rfl, l, rest, hr, hl, rfl⟩ | ⟨rfl, -, hr, hlast⟩
  · refine ⟨[l], .single hr, hinv.tail (hr ▸ hI) ?_, l, rfl, hl⟩
    exact is_eq_false_of_is hl hx
  · exact ⟨[], .of_eq hr hlast, hr ▸ hI, rfl⟩

theorem expect {x : Terminal} (hx : x ≠ .keyword .from) :
    Finds H I I (Parser.expect x) (Phrase.terminal x) := by
  refine of_exact fun s b s' hI hs => ?_
  obtain ⟨l, rest, hr, hl, rfl⟩ := expect_eq_ok hs
  exact ⟨[l], .single hr, hinv.tail (hr ▸ hI) (is_eq_false_of_is hl hx), l, rfl, hl⟩

theorem after {x : Terminal} {p : Parser α} (hx : x ≠ .keyword .from) (hp : Finds H I I p L) :
    Finds H I I (Parser.after x p) (Phrase.optional (do Phrase.terminal x; L)) := by
  intro s o s' hI hs
  unfold Parser.after at hs
  obtain ⟨b, s₁, h₁, hs⟩ := bind_eq_ok.mp hs
  rcases accept_eq_ok h₁ with ⟨rfl, l, rest, hr, hl, rfl⟩ | ⟨rfl, -, hr, hlast⟩
  · obtain ⟨a, ha, rfl⟩ := map_eq_ok.mp hs
    rcases hp _ a s' (hinv.tail (hr ▸ hI) (is_eq_false_of_is hl hx)) ha with ⟨u, hu, hJ, hl'⟩ | hhalt
    · exact .inl ⟨[l] ++ u, (Input.Moved.single hr).trans hu, hJ, [l], u, (), rfl, ⟨l, rfl, hl⟩, hl'⟩
    · exact .inr hhalt
  · obtain ⟨rfl, rfl⟩ := pure_eq_ok.mp hs
    exact .inl ⟨[], .of_eq hr hlast, hr ▸ hI, rfl⟩

/-- A part of a phrase after its first terminal. -/
theorem after_part {x : Terminal} {p : Parser α} {L' : Phrase α} (hx : x ≠ .keyword .from)
    (hp : Finds H I I p L) (hL : ∀ l u a, l.token.is x = true → L u a → L' (l :: u) a) :
    Finds H I I (Parser.after x p) (Phrase.optional L') := by
  refine mono (after hinv hx hp) id fun u o ho => ?_
  cases o with
  | none => exact ho
  | some a =>
    obtain ⟨_, v, _, rfl, ⟨l, rfl, hl⟩, hv⟩ := ho
    exact hL l v a hl hv

theorem afterQuietly {x : Terminal} {p : Parser α} (hx : x ≠ .keyword .from)
    (hp : Finds H I I p L) :
    Finds H I I (Parser.afterQuietly x p) (Phrase.optional (do Phrase.terminal x; L)) := by
  intro s o s' hI hs
  unfold Parser.afterQuietly at hs
  obtain ⟨b, s₁, h₁, h₂⟩ := bind_eq_ok.mp hs
  rcases acceptQuietly_eq_ok h₁ with ⟨rfl, l, rest, hr, hl, rfl⟩ | ⟨rfl, -, rfl⟩
  · obtain ⟨a, ha, rfl⟩ := map_eq_ok.mp h₂
    rcases hp _ a s' (hinv.tail (hr ▸ hI) (is_eq_false_of_is hl hx)) ha with ⟨u, hu, hJ, hl'⟩ | hhalt
    · exact .inl ⟨[l] ++ u, (Input.Moved.single hr).trans hu, hJ, [l], u, (), rfl, ⟨l, rfl, hl⟩, hl'⟩
    · exact .inr hhalt
  · obtain ⟨rfl, rfl⟩ := pure_eq_ok.mp h₂
    exact .inl ⟨[], .refl _, hI, rfl⟩

/-- A reader that takes the value of the next token. -/
theorem token {p : Parser α} {value : Token → Option α} (heof : value .eof = none)
    (hfrom : ∀ t a, value t = some a → t.is (.keyword .from) = false)
    (hp : ∀ s a s', p s = .ok (a, s') →
      value (nextOf s.rest) = some a ∧ take (.ok a) s = .ok (a, s')) :
    Finds H I I p (Phrase.token value) := by
  refine of_exact fun s a s' hI hs => ?_
  obtain ⟨hv, ht⟩ := hp s a s' hs
  have hne : nextOf s.rest ≠ .eof := fun he => by simp [he, heof] at hv
  obtain ⟨-, l, rest, hr, rfl⟩ := take_eq_ok ht hne
  have hl : value l.token = some a := by simpa [hr] using hv
  exact ⟨[l], .single hr, hinv.tail (hr ▸ hI) (hfrom _ a hl), l, rfl, hl⟩

end

/-! ## Repetition -/

theorem repeatUpTo {p : Parser (Option α)} (hp : Finds H I I p (Phrase.optional L))
    (hi : ∀ rounds, Idle H (Parser.repeatUpTo p rounds)) (rounds : Nat) :
    Finds H I I (Parser.repeatUpTo p rounds) (Phrase.Many L) := by
  induction rounds with
  | zero =>
    intro s as s' hI hs
    obtain ⟨rfl, rfl⟩ := pure_eq_ok.mp hs
    exact .inl ⟨[], .refl _, hI, .nil⟩
  | succ rounds ih =>
    intro s as s' hI hs
    unfold Parser.repeatUpTo at hs
    obtain ⟨o, s₁, h₁, h₂⟩ := bind_eq_ok.mp hs
    rcases hp s o s₁ hI h₁ with ⟨u, hu, hJ, hl⟩ | hhalt
    · cases o with
      | none =>
        obtain ⟨rfl, rfl⟩ := pure_eq_ok.mp h₂
        obtain rfl : u = [] := hl
        exact .inl ⟨[], hu, hJ, .nil⟩
      | some a =>
        obtain ⟨as', s₂, h₃, h₄⟩ := bind_eq_ok.mp h₂
        obtain ⟨rfl, rfl⟩ := pure_eq_ok.mp h₄
        rcases ih s₁ as' s₂ hJ h₃ with ⟨v, hv, hK, hl'⟩ | hhalt
        · exact .inl ⟨u ++ v, hu.trans hv, hK, .cons hl hl'⟩
        · exact .inr hhalt
    · refine .inr ?_
      cases o with
      | none =>
        obtain ⟨rfl, rfl⟩ := pure_eq_ok.mp h₂
        exact hhalt
      | some a =>
        obtain ⟨as', s₂, h₃, h₄⟩ := bind_eq_ok.mp h₂
        obtain ⟨rfl, rfl⟩ := pure_eq_ok.mp h₄
        rw [hi rounds s₁ as' s₂ hhalt h₃]
        exact hhalt

theorem many {p : Parser (Option α)} (hp : Finds H I I p (Phrase.optional L))
    (hi : ∀ rounds, Idle H (Parser.repeatUpTo p rounds)) :
    Finds H I I (Parser.many p) (Phrase.many L) :=
  fun s as s' hI hs => repeatUpTo hp hi _ s as s' hI hs

end Finds

/-! ## Readers that stay -/

namespace Idle

open LedgerQuery.Parser

variable {α β : Type} {H H₁ : List Lexeme → Prop}

theorem mono {p : Parser α} (hp : Idle H p) (hH : ∀ {rest}, H₁ rest → H rest) : Idle H₁ p :=
  fun s a s' hhalt => hp s a s' (hH hhalt)

theorem pure (a : α) : Idle H (Pure.pure a : Parser α) := by
  intro s b s' _ hs
  obtain ⟨-, rfl⟩ := pure_eq_ok.mp hs
  rfl

theorem bind {p : Parser α} {f : α → Parser β} (hp : Idle H p) (hf : ∀ a, Idle H (f a)) :
    Idle H (p >>= f) := by
  intro s b s' hhalt hs
  obtain ⟨a, s₁, h₁, h₂⟩ := bind_eq_ok.mp hs
  have hr := hp s a s₁ hhalt h₁
  rw [hf a s₁ b s' (by rw [hr]; exact hhalt) h₂, hr]

/-- A terminal that cannot continue an expression. -/
theorem ne_of_halted {x : Terminal} {rest rest' : List Lexeme} {l : Lexeme}
    (hx : x.continues = false) (hhalt : Halted rest) (hr : rest = l :: rest') :
    l.token.is x = false := by
  rw [← Bool.not_eq_true]
  intro hl
  have hc : l.token.continuesExpression = true := by simpa [Halted, hr] using hhalt
  cases x with
  | keyword k =>
    obtain ⟨written, ht⟩ := is_keyword_iff.mp hl
    rw [ht] at hc
    exact absurd (hc.symm.trans hx) (by simp)
  | symbol s =>
    rw [is_symbol_iff.mp hl] at hc
    exact absurd (hc.symm.trans hx) (by simp)

theorem accept {x : Terminal} (hx : x.continues = false) : Idle Halted (Parser.accept x) := by
  intro s b s' hhalt hs
  rcases accept_eq_ok hs with ⟨-, l, rest, hr, hl, -⟩ | ⟨-, -, hr, -⟩
  · exact absurd (hl.symm.trans (ne_of_halted hx hhalt hr)) (by simp)
  · exact hr

theorem after {x : Terminal} {p : Parser α} (hx : x.continues = false) : Idle Halted (Parser.after x p) := by
  intro s o s' hhalt hs
  unfold Parser.after at hs
  obtain ⟨b, s₁, h₁, h₂⟩ := bind_eq_ok.mp hs
  rcases accept_eq_ok h₁ with ⟨-, l, rest, hr, hl, -⟩ | ⟨rfl, -, hr, -⟩
  · exact absurd (hl.symm.trans (ne_of_halted hx hhalt hr)) (by simp)
  · obtain ⟨-, rfl⟩ := pure_eq_ok.mp h₂
    exact hr

theorem expect_ne_ok {x : Terminal} (hx : x.continues = false) {s s' : Input} {a : Unit}
    (hhalt : Halted s.rest) : Parser.expect x s ≠ .ok (a, s') := by
  intro hs
  obtain ⟨l, rest, hr, hl, -⟩ := expect_eq_ok hs
  exact absurd (hl.symm.trans (ne_of_halted hx hhalt hr)) (by simp)

theorem repeatUpTo {p : Parser (Option α)} (hp : Idle H p) (rounds : Nat) :
    Idle H (Parser.repeatUpTo p rounds) := by
  induction rounds with
  | zero => exact pure []
  | succ rounds ih =>
    refine bind hp fun o => ?_
    cases o with
    | none => exact pure []
    | some a => exact bind ih fun as => pure _

theorem many {p : Parser (Option α)} (hp : Idle H p) : Idle H (Parser.many p) :=
  fun s as s' hhalt hs => repeatUpTo hp _ s as s' hhalt hs

/-- Before a `NOT` that dangles no other terminal is read. -/
theorem afterQuietly {x : Terminal} {p : Parser α} (hx : x ≠ .keyword .not) :
    Idle Dangling (Parser.afterQuietly x p) := by
  intro s o s' hhalt hs
  unfold Parser.afterQuietly at hs
  obtain ⟨b, s₁, h₁, h₂⟩ := bind_eq_ok.mp hs
  rcases acceptQuietly_eq_ok h₁ with ⟨-, l, rest, hr, hl, -⟩ | ⟨rfl, -, rfl⟩
  · have hmiss := hhalt.is_eq_false hx
    rw [hr] at hmiss
    exact absurd (hl.symm.trans hmiss) (by simp)
  · obtain ⟨-, rfl⟩ := pure_eq_ok.mp h₂
    rfl

end Idle

namespace Finds

open LedgerQuery.Parser

variable {α : Type} {H I : List Lexeme → Prop} {L : Phrase α}

/-- One or more items with commas between. -/
theorem commaList (hinv : Invariant I) (hH : ∀ {rest}, H rest → Halted rest) {p : Parser α}
    (hp : Finds H I I p L) : Finds H I I (Parser.commaList p) (Phrase.commaList L) := by
  have hidle : Idle H (Parser.after (.symbol .comma) p) := (Idle.after (by decide)).mono hH
  refine bind hp (fun first => ?_) id fun first => ?_
  · refine bind (many (after hinv (by decide) hp) (Idle.repeatUpTo hidle))
      (fun others => pure _) id fun others => Idle.pure _
  · exact Idle.bind (Idle.many hidle) fun others => Idle.pure _

end Finds

end LedgerQuery
