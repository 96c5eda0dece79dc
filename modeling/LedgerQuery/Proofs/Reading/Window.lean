import LedgerQuery.Proofs.Reading.LookaheadExpr

/-!
# What readers do not see

A reader looks at most two tokens past the next one, and it does not see how a reserved keyword is spelled.
Of the two tokens past the next one it does not even see how other keywords are spelled.

So take two texts that end with `v` and with `v'`, where the first tokens of `v` and `v'` are the same to a
reader in this sense (`Meets`), and where the texts are the same before (`Input.Agree`).  `Tracks v v' p` says
that `p` does the same in both, unless it reads the first token of `v`, and that it never leaves more than
there was.  Each way that readers are built has its rule.

With nothing for `v` and `v'` the texts differ in the spelling of reserved keywords only.  With `v` and `v'` that
begin at the place of an error they may differ in all that follows the window.
-/

namespace LedgerQuery

open Token LedgerQuery.Parser

/-! ## Spellings that are not seen -/

namespace Token

/-- The same token, where a reserved keyword is in its usual spelling. -/
def folded : Token → Token
  | keyword k w => keyword k (if k.isReserved then k.spelling else w)
  | t => t

/-- The same token, where a keyword is in its usual spelling. -/
def respelled : Token → Token
  | keyword k _ => keyword k k.spelling
  | t => t

@[simp] theorem respelled_folded (t : Token) : t.folded.respelled = t.respelled := by
  cases t <;> rfl

@[simp] theorem is_respelled (t : Token) (x : Terminal) : t.respelled.is x = t.is x := by
  cases t <;> rfl

@[simp] theorem is_folded (t : Token) (x : Terminal) : t.folded.is x = t.is x := by
  cases t <;> rfl

@[simp] theorem isLiteral_respelled (t : Token) : t.respelled.isLiteral = t.isLiteral := by
  cases t <;> rfl

@[simp] theorem continuesExpression_respelled (t : Token) :
    t.respelled.continuesExpression = t.continuesExpression := by
  cases t <;> rfl

@[simp] theorem display_folded (t : Token) : t.folded.display = t.display := by
  cases t <;> rfl

@[simp] theorem name?_folded (t : Token) : t.folded.name? = t.name? := by
  cases t with
  | keyword k w => cases k <;> rfl
  | _ => rfl

@[simp] theorem isName_folded (t : Token) : t.folded.isName = t.isName := by
  rw [isName, isName, name?_folded]

@[simp] theorem literal?_folded (t : Token) : t.folded.literal? = t.literal? := by
  cases t with
  | keyword k w => cases k <;> rfl
  | _ => rfl

end Token

namespace Lexeme

/-- The same lexeme, where a reserved keyword is in its usual spelling. -/
def folded (l : Lexeme) : Lexeme := { l with token := l.token.folded }

/-- The same lexeme, where a keyword is in its usual spelling. -/
def respelled (l : Lexeme) : Lexeme := { l with token := l.token.respelled }

@[simp] theorem respelled_folded (l : Lexeme) : l.folded.respelled = l.respelled := by
  simp [folded, respelled]

end Lexeme

/-! ## Two texts -/

/-- Whether a reader at the front of two texts does not see that they differ, as long as it reads nothing. -/
structure Meets (v v' : List Lexeme) : Prop where
  /-- The next tokens are the same up to the spelling of reserved keywords. -/
  next : (v.map Lexeme.folded).take 1 = (v'.map Lexeme.folded).take 1
  /-- The two tokens after them are the same up to the spelling of keywords. -/
  ahead : (v.map Lexeme.respelled).take 3 = (v'.map Lexeme.respelled).take 3

/-- Whether two texts are the same up to the spelling of reserved keywords, before what they end with. -/
def AgreeUpTo (v v' rest rest' : List Lexeme) : Prop :=
  ∃ u u', rest = u ++ v ∧ rest' = u' ++ v' ∧ u.map Lexeme.folded = u'.map Lexeme.folded

/-- Whether what remains of two inputs agrees, and they are the same otherwise. -/
structure Input.Agree (v v' : List Lexeme) (s s' : Input) : Prop where
  /-- What remains agrees. -/
  rest : AgreeUpTo v v' s.rest s'.rest
  /-- What was tried is the same. -/
  tried : s.tried = s'.tried
  /-- The last span read is the same. -/
  last : s.last = s'.last

section
variable {v v' rest rest' : List Lexeme} {s s' : Input}

/-- What a beginning determines of some items, it determines after the same items. -/
theorem take_append_eq {α : Type} {us xs ys : List α} {n : Nat} (h : xs.take n = ys.take n) :
    (us ++ xs).take n = (us ++ ys).take n := by
  have h := congrArg (List.take (n - us.length)) h
  rw [List.take_take, List.take_take, Nat.min_eq_left (Nat.sub_le ..)] at h
  rw [List.take_append, List.take_append, h]

/-- Texts that agree before what they end with meet, if what they end with does. -/
theorem AgreeUpTo.meets (hv : Meets v v') (h : AgreeUpTo v v' rest rest') : Meets rest rest' := by
  obtain ⟨u, u', rfl, rfl, hu⟩ := h
  have hrespelled : u.map Lexeme.respelled = u'.map Lexeme.respelled := by
    simpa [Function.comp_def] using congrArg (List.map Lexeme.respelled) hu
  constructor
  · rw [List.map_append, List.map_append, hu, take_append_eq hv.next]
  · rw [List.map_append, List.map_append, hrespelled, take_append_eq hv.ahead]

theorem Meets.nextOf (h : Meets rest rest') : (nextOf rest).folded = (nextOf rest').folded := by
  have h := h.next
  cases rest <;> cases rest' <;> simp_all [LedgerQuery.nextOf, Lexeme.folded]

theorem Meets.span (h : Meets rest rest') : rest.head?.map Lexeme.span = rest'.head?.map Lexeme.span := by
  have h := h.next
  cases rest <;> cases rest' <;> simp_all [Lexeme.folded]

theorem Meets.nth {n : Nat} (hn : n ≤ 2) (h : Meets s.rest s'.rest) : (s.nth n).respelled = (s'.nth n).respelled := by
  have hget : ∀ s : Input, (s.nth n).respelled =
      ((((s.rest.map Lexeme.respelled).take 3)[n]?).map Lexeme.token).getD .eof := by
    intro s
    rw [Input.nth, List.getElem?_take_of_lt (by omega), List.getElem?_map]
    cases s.rest[n]? <;> rfl
  rw [hget, hget, h.ahead]

end

/-! ## Two runs -/

variable {α β : Type} {v v' : List Lexeme}

/-- What an outcome leaves. -/
def leftOf : Except Stop (α × Input) → List Lexeme
  | .ok x => x.2.rest
  | .error stop => stop.rest

/-- Whether two outcomes are the same value, or stops with the same fault, and what they leave agrees. -/
inductive Outcome.Same (v v' : List Lexeme) : Except Stop (α × Input) → Except Stop (α × Input) → Prop
  /-- Both found something. -/
  | ok {a s s'} (hs : s.Agree v v' s') : Outcome.Same v v' (.ok (a, s)) (.ok (a, s'))
  /-- Both stopped. -/
  | error {fault rest rest'} (h : AgreeUpTo v v' rest rest') :
    Outcome.Same v v' (.error ⟨fault, rest⟩) (.error ⟨fault, rest'⟩)

/-- Whether a reader does the same in two texts, unless it reads the first token of what they end with. -/
structure Tracks (v v' : List Lexeme) (p : Parser α) : Prop where
  /-- It leaves no more than there was. -/
  shrinks : ∀ s, (leftOf (p s)).length ≤ s.rest.length
  /-- It does the same, or leaves less than what the texts end with. -/
  agrees : ∀ s s', s.Agree v v' s' → (leftOf (p s)).length < v.length ∨ Outcome.Same v v' (p s) (p s')

/-- Whether the readers one nesting level deeper do the same in two texts. -/
structure Nested.Tracks (v v' : List Lexeme) (G : Nested) : Prop where
  /-- Expressions. -/
  expr : LedgerQuery.Tracks v v' G.expr
  /-- Operands of `NOT`. -/
  inversion : LedgerQuery.Tracks v v' G.inversion
  /-- Operands of signs. -/
  factor : LedgerQuery.Tracks v v' G.factor
  /-- Queries. -/
  select : LedgerQuery.Tracks v v' G.select

namespace Tracks

variable {p : Parser α}

theorem length_le (hp : Tracks v v' p) {s t : Input} {a : α} (h : p s = .ok (a, t)) :
    t.rest.length ≤ s.rest.length := by
  have hs := hp.shrinks s
  rwa [h] at hs

/-! ## Sequences -/

theorem bind {f : α → Parser β} (hp : Tracks v v' p) (hf : ∀ a, Tracks v v' (f a)) : Tracks v v' (p >>= f) := by
  have hbind : ∀ s, (p >>= f) s = p s >>= fun x => f x.1 x.2 := fun _ => rfl
  have hleft : ∀ s, (leftOf ((p >>= f) s)).length ≤ (leftOf (p s)).length := by
    intro s
    rw [hbind]
    cases p s with
    | error stop => exact Nat.le_refl _
    | ok x => exact (hf x.1).shrinks x.2
  constructor
  · exact fun s => (hleft s).trans (hp.shrinks s)
  · intro s s' hs
    rcases hp.agrees s s' hs with hlt | hsame
    · exact .inl (Nat.lt_of_le_of_lt (hleft s) hlt)
    · rw [hbind, hbind]
      generalize p s = x at hsame
      generalize p s' = y at hsame
      cases hsame with
      | ok ht => exact (hf _).agrees _ _ ht
      | error h => exact .inr (.error h)

/-- A reader that reads nothing and finds the same. -/
theorem of_stays {value : Input → α} (hp : ∀ s, p s = .ok (value s, s))
    (h : ∀ s s', s.Agree v v' s' → value s = value s') : Tracks v v' p := by
  constructor
  · intro s
    rw [hp]
    exact Nat.le_refl _
  · intro s s' hs
    rw [hp, hp, h s s' hs]
    exact .inr (.ok hs)

theorem pure (a : α) : Tracks v v' (Pure.pure a) := of_stays (fun _ => rfl) fun _ _ _ => rfl

theorem map {f : α → β} (hp : Tracks v v' p) : Tracks v v' (f <$> p) := bind hp fun a => pure (f a)

theorem lastSpan : Tracks v v' Parser.lastSpan := of_stays (fun _ => rfl) fun _ _ h => h.last

theorem record (e : Expected) : Tracks v v' (Parser.record e) :=
  ⟨fun _ => Nat.le_refl _, fun _ _ hs => .inr (.ok ⟨hs.rest, congrArg (e :: ·) hs.tried, hs.last⟩)⟩

theorem fail (f : Fault) : Tracks v v' (Parser.fail f : Parser α) :=
  ⟨fun _ => Nat.le_refl _, fun _ _ hs => .inr (.error hs.rest)⟩

section
variable (hv : Meets v v')
include hv

theorem nextSpan : Tracks v v' Parser.nextSpan :=
  of_stays (fun _ => rfl) fun s s' hs => by rw [(hs.rest.meets hv).span, hs.last]

/-- A reader that looks at the next token, and does not see the spelling of a reserved keyword. -/
theorem peek_bind {f : Token → Parser α} (hf : ∀ t, Tracks v v' (f t)) (hfold : ∀ t, f t.folded = f t) :
    Tracks v v' (peek >>= f) := by
  constructor
  · intro s
    rw [Parser.peek_bind]
    exact (hf _).shrinks s
  · intro s s' hs
    rw [Parser.peek_bind, Parser.peek_bind, ← hfold (nextOf s'.rest), ← (hs.rest.meets hv).nextOf, hfold]
    exact (hf _).agrees s s' hs

/-- A reader that looks at the next token, and of a keyword only at which one it is. -/
theorem peek_bind_keyword {f : Token → Parser α} (hf : ∀ t, Tracks v v' (f t))
    (hk : ∀ k w w', f (.keyword k w) = f (.keyword k w')) : Tracks v v' (peek >>= f) :=
  peek_bind hv hf fun t => by
    cases t with
    | keyword k w => exact hk k _ w
    | _ => rfl

/-- A reader that looks ahead, and does not see the spelling of a keyword. -/
theorem peekNth_bind {n : Nat} (hn : n ≤ 2) {f : Token → Parser α} (hf : ∀ t, Tracks v v' (f t))
    (hfold : ∀ t, f t.respelled = f t) : Tracks v v' (peekNth n >>= f) := by
  have hbind : ∀ s, (peekNth n >>= f) s = f (s.nth n) s := fun _ => rfl
  constructor
  · intro s
    rw [hbind]
    exact (hf _).shrinks s
  · intro s s' hs
    rw [hbind, hbind, ← hfold (s'.nth n), ← Meets.nth hn (hs.rest.meets hv), hfold]
    exact (hf _).agrees s s' hs

theorem unexpected : Tracks v v' (Parser.unexpected : Parser α) := by
  refine ⟨fun s => Nat.le_refl _, fun s s' hs => .inr ?_⟩
  have hnext : s.next.display = s'.next.display := by
    rw [next_eq_nextOf, next_eq_nextOf, ← display_folded, (hs.rest.meets hv).nextOf, display_folded]
  unfold Parser.unexpected
  rw [hs.tried, hnext]
  exact .error hs.rest

theorem missing (e : Expected) : Tracks v v' (Parser.missing e : Parser α) :=
  bind (record e) fun _ => unexpected hv

theorem advance : Tracks v v' Parser.advance := by
  constructor
  · rintro ⟨_ | ⟨l, rest⟩, tried, last⟩
    · exact Nat.le_refl _
    · exact Nat.le_succ _
  · rintro ⟨rest, tried, last⟩ ⟨rest', tried', last'⟩ hs
    obtain ⟨⟨u, u', rfl, rfl, hu⟩, rfl, rfl⟩ := hs
    cases u with
    | nil =>
      obtain rfl : u' = [] := by simpa using hu.symm
      cases v with
      | nil =>
        obtain rfl : v' = [] := by simpa using hv.next.symm
        exact .inr (.ok ⟨⟨[], [], rfl, rfl, rfl⟩, rfl, rfl⟩)
      | cons l v => exact .inl (Nat.lt_succ_self _)
    | cons l u =>
      cases u' with
      | nil => cases hu
      | cons l' u' =>
        obtain ⟨hl, hu⟩ := List.cons.inj hu
        exact .inr (.ok ⟨⟨u, u', rfl, rfl, hu⟩, rfl, (Lexeme.mk.inj hl).2⟩)

theorem take (r : Except Fault α) : Tracks v v' (Parser.take r) := by
  cases r with
  | ok a => exact bind (advance hv) fun _ => pure a
  | error f => exact fail f

/-! ## Terminals -/

theorem acceptQuietly (x : Terminal) : Tracks v v' (Parser.acceptQuietly x) := by
  refine peek_bind hv (fun t => ?_) fun t => by simp only [is_folded]
  split
  · exact bind (advance hv) fun _ => pure _
  · exact pure _

theorem accept (x : Terminal) : Tracks v v' (Parser.accept x) := by
  refine bind (acceptQuietly hv x) fun b => ?_
  split
  · exact pure _
  · exact bind (record _) fun _ => pure _

theorem expect (x : Terminal) : Tracks v v' (Parser.expect x) := by
  refine bind (accept hv x) fun b => ?_
  split
  · exact pure _
  · exact unexpected hv

theorem after (x : Terminal) (hp : Tracks v v' p) : Tracks v v' (Parser.after x p) := by
  refine bind (accept hv x) fun b => ?_
  split
  · exact map hp
  · exact pure _

theorem afterQuietly (x : Terminal) (hp : Tracks v v' p) : Tracks v v' (Parser.afterQuietly x p) := by
  refine bind (acceptQuietly hv x) fun b => ?_
  split
  · exact map hp
  · exact pure _

end

/-! ## Repetition -/

theorem repeatUpTo {p : Parser (Option α)} (hp : Tracks v v' p) (rounds : Nat) :
    Tracks v v' (Parser.repeatUpTo p rounds) := by
  induction rounds with
  | zero => exact pure _
  | succ rounds ih =>
    refine bind hp fun o => ?_
    cases o with
    | none => exact pure _
    | some a => exact bind ih fun _ => pure _

/-- Rounds that are enough for what remains are as good as any more. -/
theorem repeatUpTo_eq {p : Parser (Option α)} (hm : MovesOnSome p) {s : Input} {m n : Nat}
    (hsm : s.rest.length < m) (hmn : m ≤ n) : Parser.repeatUpTo p m s = Parser.repeatUpTo p n s := by
  induction m generalizing s n with
  | zero => exact absurd hsm (Nat.not_lt_zero _)
  | succ m ih =>
    obtain ⟨n, rfl⟩ : ∃ k, n = k + 1 := Nat.exists_eq_succ_of_ne_zero (by omega)
    show (p s >>= fun x => _) = (p s >>= fun x => _)
    cases hps : p s with
    | error stop => rfl
    | ok x =>
      obtain ⟨o, t⟩ := x
      cases o with
      | none => rfl
      | some a =>
        have hlt := hm s a t hps
        show (Parser.repeatUpTo p m t >>= fun x => _) = (Parser.repeatUpTo p n t >>= fun x => _)
        rw [ih (by omega) (Nat.le_of_succ_le_succ hmn)]

/-- A loop may have more rounds in one text than in the other, but it does not need them. -/
theorem many {p : Parser (Option α)} (hp : Tracks v v' p) (hm : MovesOnSome p) : Tracks v v' (Parser.many p) := by
  refine ⟨fun s => (repeatUpTo hp _).shrinks s, fun s s' hs => ?_⟩
  have hmany : ∀ s n, s.rest.length + 1 ≤ n → Parser.many p s = Parser.repeatUpTo p n s := fun s n hn =>
    repeatUpTo_eq hm (Nat.lt_succ_self _) hn
  rw [hmany s _ (Nat.le_max_left _ (s'.rest.length + 1)), hmany s' _ (Nat.le_max_right (s.rest.length + 1) _)]
  exact (repeatUpTo hp _).agrees s s' hs

end Tracks

end LedgerQuery
