import LedgerQuery.Proofs.Reading.SoundSelect
import LedgerQuery.Proofs.Reading.CompleteSelect
import LedgerQuery.Proofs.Tree.Like

/-!
# How far readers look

What a reader finds depends on the tokens it reads, and on little more.  It finds the same before any
other text that resumes like the old one (`Resumes`).  The next token has to be the same.  Or nothing
follows at all, since a reader that could stop can stop at the end as well, and so it can before a right
parenthesis.  Only a `NOT` needs more care: it goes on only with an `IN` after it, and it makes an integer
before it an expression.

`Sees w E p q` says this of a reader and one that may go deeper.  Where the tokens were read does not
matter, so the values are related by `E` and need not be equal.  Each way that readers are built has its
rule.

A loop has more rounds the more lexemes remain.  This makes no difference, because each round that finds
something moves on (`Moves`).
-/

namespace LedgerQuery

open Token LedgerQuery.Parser

/-! ## Texts that resume alike -/

/-- Whether `NOT IN` is next. -/
def NotIn (rest : List Lexeme) : Prop :=
  (nextOf rest).is (.keyword .not) = true ∧ (nextOf rest.tail).is (.keyword .in) = true

/-- Whether nothing follows that a reader could go on with.  With `w`, a right parenthesis may follow. -/
def Closes (w : Prop) (rest : List Lexeme) : Prop := rest = [] ∨ w ∧ nextOf rest = .symbol .rightParen

/-- Whether a reader that looks for a terminal goes on where one can close.  With `w`, a right parenthesis does not. -/
class Terminal.GoesOn (x : Terminal) (w : Prop) : Prop where
  /-- With `w`, it is no right parenthesis. -/
  ne_rightParen : w → x ≠ .symbol .rightParen

instance (x : Terminal) : x.GoesOn False := ⟨False.elim⟩

instance (w : Prop) (k : Keyword) : (Terminal.keyword k).GoesOn w := ⟨nofun⟩

instance (w : Prop) : (Terminal.symbol .comma).GoesOn w := ⟨nofun⟩

instance (w : Prop) : (Terminal.symbol .dot).GoesOn w := ⟨nofun⟩

instance (w : Prop) : (Terminal.symbol .leftBracket).GoesOn w := ⟨nofun⟩

instance (w : Prop) : (Terminal.symbol .star).GoesOn w := ⟨nofun⟩

/-- Whether a text can stand for another one after a reader that found something.  With `w`, what
it found is to be the same. -/
def Resumes (w : Prop) (rest rest' : List Lexeme) : Prop :=
  (nextOf rest' = nextOf rest ∧ (NotIn rest' → NotIn rest)) ∨ Closes w rest' ∧ (w → ¬ Dangling rest)

/-- Whether some lexemes remain of an input where others remain of another one, after the same
tokens. -/
def Beside (s s' : Input) (rest rest' : List Lexeme) : Prop :=
  ∃ u u', s.rest = u ++ rest ∧ s'.rest = u' ++ rest' ∧ u'.map Lexeme.token = u.map Lexeme.token

section
variable {w : Prop} {s s' : Input} {u v v' rest rest' mid : List Lexeme} {l : Lexeme}

theorem nextOf_append_of_map_eq (h : v'.map Lexeme.token = v.map Lexeme.token) (hv : v ≠ []) :
    nextOf (v' ++ rest') = nextOf (v ++ rest) := by
  cases v with
  | nil => exact absurd rfl hv
  | cons l v =>
    cases v' with
    | nil => cases h
    | cons l' v' => exact (List.cons.inj h).1

/-- What is not a right parenthesis is not next where nothing is to go on with. -/
theorem Closes.not_is (h : Closes w rest) {x : Terminal} (hx : w → x ≠ .symbol .rightParen) :
    (nextOf rest).is x = false := by
  rcases h with rfl | ⟨hw, hn⟩
  · rfl
  · rw [hn]
    exact is_eq_false_of_is (x := .symbol .rightParen) rfl (hx hw).symm

theorem Resumes.refl (w : Prop) (rest : List Lexeme) : Resumes w rest rest := .inl ⟨rfl, id⟩

theorem Resumes.append (h : Resumes w rest rest') (hv : v'.map Lexeme.token = v.map Lexeme.token) :
    Resumes w (v ++ rest) (v' ++ rest') := by
  cases v with
  | nil =>
    obtain rfl : v' = [] := by simpa using hv
    exact h
  | cons l v =>
    refine .inl ⟨nextOf_append_of_map_eq hv (by simp), fun ⟨hnot, hin⟩ => ?_⟩
    obtain ⟨l', v', rfl⟩ : ∃ l' v'', v' = l' :: v'' := by
      cases v' with
      | nil => cases hv
      | cons l' v' => exact ⟨l', v', rfl⟩
    obtain ⟨hl, hv⟩ := List.cons.inj hv
    refine ⟨by simpa [hl] using hnot, ?_⟩
    show (nextOf (v ++ rest)).is (.keyword .in) = true
    have hin : (nextOf (v' ++ rest')).is (.keyword .in) = true := hin
    cases v with
    | cons m v => rwa [nextOf_append_of_map_eq hv (by simp)] at hin
    | nil =>
      obtain rfl : v' = [] := by simpa using hv
      rcases h with ⟨hnext, -⟩ | ⟨hc, -⟩
      · rwa [List.nil_append, hnext] at hin
      · exact absurd (hin.symm.trans (hc.not_is fun _ => by decide)) (by decide)

/-- What is not next in a text is not next in one that resumes like it. -/
theorem Resumes.not_is (h : Resumes w rest rest') {x : Terminal} (hx : (nextOf rest).is x = false)
    (hw : w → x ≠ .symbol .rightParen) : (nextOf rest').is x = false := by
  rcases h with ⟨hnext, -⟩ | ⟨hc, -⟩
  · rwa [hnext]
  · exact hc.not_is hw

theorem Beside.refl (h : s.rest = u ++ rest) : Beside s s rest rest := ⟨u, u, h, h, rfl⟩

/-- Two inputs stay beside each other up to any place before. -/
theorem Beside.split (h : Beside s s' rest rest') (hu : s.rest = u ++ mid) (hv : mid = v ++ rest) :
    ∃ v', v'.map Lexeme.token = v.map Lexeme.token ∧ Beside s s' mid (v' ++ rest') := by
  obtain ⟨x, x', hx, hx', hmap⟩ := h
  obtain rfl : x = u ++ v := by
    rw [hx, hv, ← List.append_assoc] at hu
    exact List.append_cancel_right hu
  rw [List.map_append] at hmap
  obtain ⟨u', v', rfl, hu', hv'⟩ := List.map_eq_append_iff.mp hmap
  exact ⟨v', hv', u, u', hu, by rw [hx', List.append_assoc], hu'⟩

theorem Beside.nil (h : Beside s s' rest rest') (hs : s.rest = rest) : s'.rest = rest' := by
  obtain ⟨x, x', hx, hx', hmap⟩ := h
  obtain rfl : x = [] := by
    have := congrArg List.length (hs.symm.trans hx)
    rw [List.length_append] at this
    exact List.length_eq_zero_iff.mp (by omega)
  rw [hx', show x' = [] by simpa using hmap, List.nil_append]

theorem Beside.cons (h : Beside s s' rest rest') (hs : s.rest = l :: (v ++ rest)) :
    ∃ l' v', s'.rest = l' :: (v' ++ rest') ∧ l'.token = l.token ∧
      v'.map Lexeme.token = v.map Lexeme.token := by
  obtain ⟨x, x', hx, hx', hmap⟩ := h
  obtain rfl : x = l :: v := List.append_cancel_right (hx.symm.trans hs)
  obtain ⟨l', v', rfl, hl, hv⟩ := List.map_eq_cons_iff.mp hmap
  exact ⟨l', v', hx', hl, hv⟩

/-- The next tokens are the same after something was read. -/
theorem Beside.next (h : Beside s s' rest rest') (hs : s.rest ≠ rest) :
    nextOf s'.rest = nextOf s.rest := by
  obtain ⟨x, x', hx, hx', hmap⟩ := h
  rw [hx, hx']
  refine nextOf_append_of_map_eq hmap ?_
  rintro rfl
  exact hs hx

/-- The token at any place that was read is the same. -/
theorem Beside.nth (h : Beside s s' rest rest') {n : Nat} (hn : n + rest.length < s.rest.length) :
    s'.nth n = s.nth n := by
  obtain ⟨x, x', hx, hx', hmap⟩ := h
  have hlen : x'.length = x.length := by simpa using congrArg List.length hmap
  have hlt : n < x.length := by
    rw [hx, List.length_append] at hn
    omega
  have htoken : x'[n]?.map Lexeme.token = x[n]?.map Lexeme.token := by
    rw [← List.getElem?_map, ← List.getElem?_map, hmap]
  rw [Input.nth, Input.nth, hx, hx', List.getElem?_append_left hlt, List.getElem?_append_left (hlen ▸ hlt), htoken]

end

/-! ## Sight -/

variable {α β γ δ : Type}

/-- Whether a reader always moves on when it finds something. -/
def Moves (p : Parser α) : Prop := ∀ s a t, p s = .ok (a, t) → t.rest.length < s.rest.length

/-- Whether a reader moves on when it finds something in its turn. -/
def MovesOnSome (p : Parser (Option α)) : Prop :=
  ∀ s a t, p s = .ok (some a, t) → t.rest.length < s.rest.length

/-- What a reader finds at an input, another one finds before any text that resumes alike. -/
def SeesAt (w : Prop) (E : α → β → Prop) (s : Input) (p : Parser α) (q : Parser β) : Prop :=
  ∀ a t, p s = .ok (a, t) → (∃ u, s.rest = u ++ t.rest) ∧
    ∀ s' rest', Beside s s' t.rest rest' → Resumes w t.rest rest' →
      ∃ b t', q s' = .ok (b, t') ∧ t'.rest = rest' ∧ E a b

/-- What a reader finds, another one finds before any text that resumes alike. -/
def Sees (w : Prop) (E : α → β → Prop) (p : Parser α) (q : Parser β) : Prop := ∀ s, SeesAt w E s p q

section
variable {w : Prop} {E : α → β → Prop} {E' : γ → δ → Prop} {s : Input} {p p' : Parser α} {q : Parser β}

namespace SeesAt

theorem of_ne_ok (h : ∀ a t, p s ≠ .ok (a, t)) : SeesAt w E s p q := fun a t hp => absurd hp (h a t)

theorem mono {F : α → β → Prop} (h : SeesAt w E s p q) (hF : ∀ a b, E a b → F a b) : SeesAt w F s p q := by
  intro a t hp
  obtain ⟨hu, hrun⟩ := h a t hp
  refine ⟨hu, fun s' rest' hb hr => ?_⟩
  obtain ⟨b, t', hq, ht', hab⟩ := hrun s' rest' hb hr
  exact ⟨b, t', hq, ht', hF a b hab⟩

theorem length_le (h : SeesAt w E s p q) {a : α} {t : Input} (hp : p s = .ok (a, t)) :
    t.rest.length ≤ s.rest.length := by
  obtain ⟨⟨u, hu⟩, -⟩ := h a t hp
  rw [hu, List.length_append]
  omega

theorem bind {f : α → Parser γ} {g : β → Parser δ} (hp : SeesAt w E s p q)
    (hf : ∀ a s₁, p s = .ok (a, s₁) → ∀ b, E a b → SeesAt w E' s₁ (f a) (g b)) :
    SeesAt w E' s (p >>= f) (q >>= g) := by
  intro c t h
  obtain ⟨a, s₁, h₁, h₂⟩ := bind_eq_ok.mp h
  obtain ⟨⟨u, hu⟩, hrun⟩ := hp a s₁ h₁
  obtain ⟨v, hv⟩ : ∃ v, s₁.rest = v ++ t.rest := by
    obtain ⟨b, -, -, -, hab⟩ := hrun s s₁.rest (.refl hu) (.refl w _)
    exact (hf a s₁ h₁ b hab c t h₂).1
  refine ⟨⟨u ++ v, by rw [hu, hv, List.append_assoc]⟩, fun s' rest' hb hr => ?_⟩
  obtain ⟨v', hmap, hb₁⟩ := hb.split hu hv
  obtain ⟨b, t₁, hq, ht₁, hab⟩ := hrun s' _ hb₁ (hv ▸ hr.append hmap)
  obtain ⟨d, t', hq', ht', hcd⟩ := (hf a s₁ h₁ b hab c t h₂).2 t₁ rest' ⟨v, v', hv, ht₁, hmap⟩ hr
  exact ⟨d, t', bind_eq_ok.mpr ⟨b, t₁, hq, hq'⟩, ht', hcd⟩

/-- A reader that looks at the next token.  If it reads nothing, it may see something else where nothing is to
go on with. -/
theorem peek_bind {f : Token → Parser α} {g : Token → Parser β}
    (h : SeesAt w E s (f (nextOf s.rest)) (g (nextOf s.rest)))
    (hend : ∀ a t, f (nextOf s.rest) s = .ok (a, t) → t.rest = s.rest → ∀ s' : Input, Closes w s'.rest →
      ∃ b t', g (nextOf s'.rest) s' = .ok (b, t') ∧ t'.rest = s'.rest ∧ E a b) :
    SeesAt w E s (peek >>= f) (peek >>= g) := by
  intro a t hp
  rw [Parser.peek_bind] at hp
  obtain ⟨hu, hrun⟩ := h a t hp
  refine ⟨hu, fun s' rest' hb hr => ?_⟩
  rw [Parser.peek_bind]
  have same : nextOf s'.rest = nextOf s.rest → ∃ b t', g (nextOf s'.rest) s' = .ok (b, t') ∧
      t'.rest = rest' ∧ E a b := fun hnext => by
    rw [hnext]
    exact hrun s' rest' hb hr
  by_cases ht : s.rest = t.rest
  · have hs' := hb.nil ht
    rcases hr with ⟨hnext, -⟩ | ⟨hc, -⟩
    · exact same (by rw [hs', hnext, ht])
    · obtain ⟨b, t', hq, ht', hab⟩ := hend a t hp ht.symm s' (hs' ▸ hc)
      exact ⟨b, t', hq, ht'.trans hs', hab⟩
  · exact same (hb.next ht)

/-- A reader that looks at the next token and moves on. -/
theorem peek_bind_moves {f : Token → Parser α} {g : Token → Parser β}
    (h : SeesAt w E s (f (nextOf s.rest)) (g (nextOf s.rest)))
    (hm : ∀ a t, f (nextOf s.rest) s = .ok (a, t) → t.rest.length < s.rest.length) :
    SeesAt w E s (peek >>= f) (peek >>= g) :=
  peek_bind h fun a t hp ht => by
    have := hm a t hp
    rw [ht] at this
    exact absurd this (Nat.lt_irrefl _)

/-- The next lexeme is read. -/
theorem advance (hs : nextOf s.rest ≠ .eof) : SeesAt w Eq s Parser.advance Parser.advance := by
  intro a t hp
  obtain ⟨rest, tried, last⟩ := s
  cases rest with
  | nil => exact absurd rfl hs
  | cons l rest =>
    obtain rfl : Input.mk rest [] l.span = t := by simpa [Parser.advance] using hp
    refine ⟨⟨[l], rfl⟩, fun s' rest' hb _ => ?_⟩
    obtain ⟨l', v', hs', hl', hv'⟩ := hb.cons (v := []) rfl
    obtain rfl : v' = [] := by simpa using hv'
    obtain ⟨_, tried', last'⟩ := s'
    obtain rfl := hs'
    exact ⟨(), _, rfl, rfl, rfl⟩

theorem take_ok (hs : nextOf s.rest ≠ .eof) (a : α) :
    SeesAt w Eq s (Parser.take (.ok a)) (Parser.take (.ok a)) := by
  refine bind (advance hs) fun _ s₁ _ _ _ => ?_
  rintro _ _ ⟨⟩
  exact ⟨⟨[], rfl⟩, fun s' rest' hb _ => ⟨a, s', rfl, hb.nil rfl, rfl⟩⟩

theorem take (hs : nextOf s.rest ≠ .eof) (r : Except Fault α) :
    SeesAt w Eq s (Parser.take r) (Parser.take r) := by
  cases r with
  | ok a => exact take_ok hs a
  | error f => exact of_ne_ok fun _ _ => fail_ne_ok

end SeesAt

namespace Moves

theorem advance_length {a : Unit} {t : Input} (hs : nextOf s.rest ≠ .eof) (h : Parser.advance s = .ok (a, t)) :
    t.rest.length < s.rest.length := by
  obtain ⟨rest, tried, last⟩ := s
  cases rest with
  | nil => exact absurd rfl hs
  | cons l rest =>
    obtain rfl : Input.mk rest [] l.span = t := by simpa [Parser.advance] using h
    simp

/-- A reader that moves on, and another after it. -/
theorem bind {f : α → Parser γ} {g : α → Parser δ} {E : γ → δ → Prop} (hp : Moves p)
    (hf : ∀ a, Sees w E (f a) (g a)) : Moves (p >>= f) := by
  intro s c t h
  obtain ⟨a, s₁, h₁, h₂⟩ := bind_eq_ok.mp h
  exact Nat.lt_of_le_of_lt ((hf a s₁).length_le h₂) (hp s a s₁ h₁)

end Moves

namespace Sees

theorem mono {F : α → β → Prop} (h : Sees w E p q) (hF : ∀ a b, E a b → F a b) : Sees w F p q :=
  fun s => (h s).mono hF

theorem bind {f : α → Parser γ} {g : β → Parser δ} (hp : Sees w E p q)
    (hf : ∀ a b, E a b → Sees w E' (f a) (g b)) : Sees w E' (p >>= f) (q >>= g) :=
  fun s => (hp s).bind fun a s₁ _ b hab => hf a b hab s₁

/-- A reader that finds the same, and another after it. -/
theorem andThen {f : α → Parser γ} {g : α → Parser δ} (hp : Sees w Eq p p')
    (hf : ∀ a, Sees w E' (f a) (g a)) : Sees w E' (p >>= f) (p' >>= g) :=
  bind hp fun a _ h => h ▸ hf a

/-- A reader that reads nothing. -/
theorem of_stays (h : ∀ s, ∃ a t b, p s = .ok (a, t) ∧ t.rest = s.rest ∧ E a b ∧
    ∀ s', ∃ b t', q s' = .ok (b, t') ∧ t'.rest = s'.rest ∧ E a b) : Sees w E p q := by
  intro s a t hp
  obtain ⟨a', t', -, hp', ht, -, hq⟩ := h s
  obtain ⟨rfl, rfl⟩ := Prod.mk.inj (Except.ok.inj (hp'.symm.trans hp))
  refine ⟨⟨[], ht.symm⟩, fun s' rest' hb _ => ?_⟩
  obtain ⟨b, t₁, hq, ht₁, hab⟩ := hq s'
  exact ⟨b, t₁, hq, by rw [ht₁, hb.nil ht.symm], hab⟩

theorem pure {a : α} {b : β} (h : E a b) : Sees w E (Pure.pure a) (Pure.pure b) :=
  of_stays fun s => ⟨a, s, b, rfl, rfl, h, fun s' => ⟨b, s', rfl, rfl, h⟩⟩

theorem map {f : α → γ} {g : β → δ} (hp : Sees w E p q) (hf : ∀ a b, E a b → E' (f a) (g b)) :
    Sees w E' (f <$> p) (g <$> q) := bind hp fun a b h => pure (hf a b h)

theorem record (e : Expected) : Sees w Eq (Parser.record e) (Parser.record e) :=
  of_stays fun _ => ⟨(), _, (), rfl, rfl, rfl, fun _ => ⟨(), _, rfl, rfl, rfl⟩⟩

theorem nextSpan : Sees w (fun _ _ => True) Parser.nextSpan Parser.nextSpan :=
  of_stays fun s => ⟨_, s, ⟨0, 0⟩, rfl, rfl, trivial, fun s' => ⟨_, s', rfl, rfl, trivial⟩⟩

theorem lastSpan : Sees w (fun _ _ => True) Parser.lastSpan Parser.lastSpan :=
  of_stays fun s => ⟨_, s, ⟨0, 0⟩, rfl, rfl, trivial, fun s' => ⟨_, s', rfl, rfl, trivial⟩⟩

theorem fail {f : Fault} : Sees w E (Parser.fail f) q := fun _ => .of_ne_ok fun _ _ => fail_ne_ok

theorem unexpected : Sees w E Parser.unexpected q := fun _ => .of_ne_ok fun _ _ => unexpected_ne_ok

theorem missing {e : Expected} : Sees w E (Parser.missing e) q := fun _ => .of_ne_ok fun _ _ => missing_ne_ok

/-- A reader that takes the value of the next token. -/
theorem token {p : Parser α} {value : Token → Option α}
    (hp : Finds Never (fun _ => True) (fun _ => True) p (Phrase.token value))
    (hr : ∀ u a, Phrase.token value u a → Reads p u (fun _ => True) a) : Sees w Eq p p := by
  intro s a t h
  obtain ⟨_, m, -, l, rfl, hl⟩ := hp.exact trivial h
  refine ⟨⟨[l], m.rest⟩, fun s' rest' hb _ => ?_⟩
  obtain ⟨l', v', hs', hl', hv'⟩ := hb.cons (v := []) m.rest
  obtain rfl : v' = [] := by simpa using hv'
  obtain ⟨_, tried', last'⟩ := s'
  obtain rfl := hs'
  obtain ⟨tried₁, hq⟩ := hr [l'] a ⟨l', rfl, hl' ▸ hl⟩ rest' tried' last' trivial
  exact ⟨a, _, hq, rfl, rfl⟩

/-! ## Terminals -/

theorem acceptQuietly (x : Terminal) [hx : x.GoesOn w] :
    Sees w Eq (Parser.acceptQuietly x) (Parser.acceptQuietly x) := by
  intro s
  refine .peek_bind ?_ fun a t h ht s' hs' => ?_
  · split
    · next hit => exact .bind (.advance fun he => by rw [he] at hit; cases hit) fun _ _ _ _ _ => pure rfl _
    · exact pure rfl s
  · refine ⟨false, s', by rw [hs'.not_is hx.ne_rightParen]; rfl, rfl, ?_⟩
    split at h
    · next hit =>
      obtain ⟨_, s₁, h₁, h₂⟩ := bind_eq_ok.mp h
      obtain ⟨-, rfl⟩ := pure_eq_ok.mp h₂
      have := Moves.advance_length (fun he => by rw [he] at hit; cases hit) h₁
      rw [ht] at this
      exact absurd this (Nat.lt_irrefl _)
    · exact (pure_eq_ok.mp h).1.symm

theorem accept (x : Terminal) [x.GoesOn w] :
    Sees w Eq (Parser.accept x) (Parser.accept x) := by
  refine andThen (acceptQuietly x) fun b => ?_
  split
  · exact pure rfl
  · exact andThen (record _) fun _ => pure rfl

theorem after (x : Terminal) [x.GoesOn w] (h : Sees w E p q) :
    Sees w (Option.Rel E) (Parser.after x p) (Parser.after x q) := by
  refine andThen (accept x) fun b => ?_
  split
  · exact map h fun _ _ => .some
  · exact pure .none

theorem afterQuietly (x : Terminal) [x.GoesOn w] (h : Sees w E p q) :
    Sees w (Option.Rel E) (Parser.afterQuietly x p) (Parser.afterQuietly x q) := by
  refine andThen (acceptQuietly x) fun b => ?_
  split
  · exact map h fun _ _ => .some
  · exact pure .none

/-- What is the same after a terminal. -/
theorem after_eq (x : Terminal) [x.GoesOn w] {p : Parser α} (h : Sees w Eq p p) :
    Sees w Eq (Parser.after x p) (Parser.after x p) :=
  mono (after x h) fun a b hab => by cases hab <;> simp_all

/-- A terminal that may be next, and a reader that moves on if it is not. -/
theorem accept_bind {x : Terminal} {f : Bool → Parser α} {g : Bool → Parser β} (hf : ∀ b, Sees w E (f b) (g b))
    (hm : Moves (f false)) : Sees w E (Parser.accept x >>= f) (Parser.accept x >>= g) := by
  intro s a t h
  obtain ⟨b, s₁, h₁, h₂⟩ := bind_eq_ok.mp h
  obtain ⟨⟨u, hu⟩, hrun⟩ := hf b s₁ a t h₂
  rcases accept_eq_ok h₁ with ⟨rfl, l, rest, hs, hl, rfl⟩ | ⟨rfl, hx, hs, -⟩
  · replace hu : rest = u ++ t.rest := hu
    refine ⟨⟨l :: u, by rw [hs, hu]; rfl⟩, fun s' rest' hb hr => ?_⟩
    obtain ⟨l', u', hs', hl', hu'⟩ := hb.cons (v := u) (by rw [hs, hu])
    obtain ⟨_, tried', last'⟩ := s'
    obtain rfl := hs'
    obtain ⟨tried₁, hq⟩ := Reads.accept_hit (F := fun _ => True) (hl' ▸ hl) (u' ++ rest') tried' last' trivial
    obtain ⟨b, t', hq', ht', hab⟩ := hrun ⟨u' ++ rest', tried₁, l'.span⟩ rest' ⟨u, u', hu, rfl, hu'⟩ hr
    exact ⟨b, t', bind_eq_ok.mpr ⟨true, _, hq, hq'⟩, ht', hab⟩
  · refine ⟨⟨u, by rw [← hs, hu]⟩, fun s' rest' hb hr => ?_⟩
    have hne : s.rest ≠ t.rest := fun he => by
      have := hm s₁ a t h₂
      rw [hs, he] at this
      exact Nat.lt_irrefl _ this
    have hnext := hb.next hne
    obtain ⟨x₀, x₁, hx₀, hx₁, hmap⟩ := hb
    obtain ⟨_, tried', last'⟩ := s'
    obtain rfl := hx₁
    obtain ⟨tried₁, hq⟩ := Reads.accept_miss (F := fun t => t.is x = false) (fun _ h => h) (x₁ ++ rest') tried' last'
      (hnext ▸ hx)
    obtain ⟨b, t', hq', ht', hab⟩ := hrun ⟨x₁ ++ rest', tried₁, _⟩ rest' ⟨x₀, x₁, by rw [hs, hx₀], rfl, hmap⟩ hr
    exact ⟨b, t', bind_eq_ok.mpr ⟨false, _, hq, hq'⟩, ht', hab⟩

/-- A terminal that has to be there was read. -/
theorem expect (x : Terminal) : Sees w Eq (Parser.expect x) (Parser.expect x) := by
  intro s a t h
  obtain ⟨l, rest, hs, hl, rfl⟩ := expect_eq_ok h
  refine ⟨⟨[l], hs⟩, fun s' rest' hb _ => ?_⟩
  obtain ⟨l', v', hs', hl', hv'⟩ := hb.cons (v := []) hs
  obtain rfl : v' = [] := by simpa using hv'
  obtain ⟨_, tried', last'⟩ := s'
  obtain rfl := hs'
  obtain ⟨tried₁, hq⟩ := Reads.expect (F := fun _ => True) (hl' ▸ hl) rest' tried' last' trivial
  exact ⟨a, _, hq, rfl, rfl⟩

end Sees

/-! ## Moving on -/

theorem moves_expect (x : Terminal) : Moves (Parser.expect x) := by
  intro s a t h
  obtain ⟨l, rest, hs, -, rfl⟩ := expect_eq_ok h
  simp [hs]

/-- What is found after a terminal was moved to, if no more remains after it than before. -/
theorem MovesOnSome.after {x : Terminal} {p : Parser α}
    (hp : ∀ s a t, p s = .ok (a, t) → t.rest.length ≤ s.rest.length) : MovesOnSome (Parser.after x p) := by
  intro s a t hs
  unfold Parser.after at hs
  obtain ⟨b, s₁, h₁, hs₁⟩ := bind_eq_ok.mp hs
  rcases accept_eq_ok h₁ with ⟨rfl, l, rest, hr, -, rfl⟩ | ⟨rfl, -⟩
  · obtain ⟨a', ha, -⟩ := map_eq_ok.mp hs₁
    have := hp _ a' t ha
    rw [hr, List.length_cons]
    exact Nat.lt_succ_of_le this
  · cases (pure_eq_ok.mp hs₁).1

theorem MovesOnSome.afterQuietly {x : Terminal} {p : Parser α}
    (hp : ∀ s a t, p s = .ok (a, t) → t.rest.length ≤ s.rest.length) :
    MovesOnSome (Parser.afterQuietly x p) := by
  intro s a t hs
  unfold Parser.afterQuietly at hs
  obtain ⟨b, s₁, h₁, hs₁⟩ := bind_eq_ok.mp hs
  rcases acceptQuietly_eq_ok h₁ with ⟨rfl, l, rest, hr, -, rfl⟩ | ⟨rfl, -⟩
  · obtain ⟨a', ha, -⟩ := map_eq_ok.mp hs₁
    have := hp _ a' t ha
    rw [hr, List.length_cons]
    exact Nat.lt_succ_of_le this
  · cases (pure_eq_ok.mp hs₁).1

theorem Sees.after_moves {x : Terminal} (h : Sees w E p q) : MovesOnSome (Parser.after x p) :=
  .after fun s _ _ => (h s).length_le

theorem Sees.afterQuietly_moves {x : Terminal} (h : Sees w E p q) :
    MovesOnSome (Parser.afterQuietly x p) := .afterQuietly fun s _ _ => (h s).length_le

/-! ## Repetition -/

namespace Sees

/-- Rounds enough for one text are enough for any other one: as many as there are tokens to be read, and
one more. -/
theorem repeatUpTo {p : Parser (Option α)} {q : Parser (Option β)} (h : Sees w (Option.Rel E) p q)
    (hm : MovesOnSome p) {as : List α} {rounds : Nat} {s t : Input} (hr : s.rest.length < rounds)
    (hp : Parser.repeatUpTo p rounds s = .ok (as, t)) :
    (∃ u, s.rest = u ++ t.rest) ∧ ∀ rounds' s' rest', s.rest.length < rounds' + t.rest.length →
      Beside s s' t.rest rest' → Resumes w t.rest rest' →
      ∃ bs t', Parser.repeatUpTo q rounds' s' = .ok (bs, t') ∧ t'.rest = rest' ∧ List.Forall₂ E as bs := by
  induction rounds generalizing s as with
  | zero => exact absurd hr (Nat.not_lt_zero _)
  | succ rounds ih =>
    unfold Parser.repeatUpTo at hp
    obtain ⟨o, s₁, h₁, h₂⟩ := bind_eq_ok.mp hp
    obtain ⟨⟨u, hu⟩, hrun⟩ := h s o s₁ h₁
    cases o with
    | none =>
      obtain ⟨rfl, rfl⟩ := pure_eq_ok.mp h₂
      refine ⟨⟨u, hu⟩, fun rounds' s' rest' hr' hb hres => ?_⟩
      obtain ⟨rounds', rfl⟩ : ∃ n, rounds' = n + 1 :=
        Nat.exists_eq_succ_of_ne_zero (by rw [hu, List.length_append] at hr'; omega)
      obtain ⟨b, t', hq, ht', hab⟩ := hrun s' rest' hb hres
      cases hab
      refine ⟨[], t', ?_, ht', .nil⟩
      unfold Parser.repeatUpTo
      exact bind_eq_ok.mpr ⟨none, t', hq, rfl⟩
    | some a =>
      obtain ⟨as', s₂, h₃, h₄⟩ := bind_eq_ok.mp h₂
      obtain ⟨rfl, rfl⟩ := pure_eq_ok.mp h₄
      have hlt := hm s a s₁ h₁
      obtain ⟨⟨v, hv⟩, hrest⟩ := ih (by omega) h₃
      refine ⟨⟨u ++ v, by rw [hu, hv, List.append_assoc]⟩, fun rounds' s' rest' hr' hb hres => ?_⟩
      obtain ⟨rounds', rfl⟩ : ∃ n, rounds' = n + 1 := Nat.exists_eq_succ_of_ne_zero (by
        rw [hv, List.length_append] at hlt
        omega)
      obtain ⟨v', hmap, hb₁⟩ := hb.split hu hv
      obtain ⟨_, t₁, hq, ht₁, hab⟩ := hrun s' _ hb₁ (hv ▸ hres.append hmap)
      cases hab with
      | some hab =>
        obtain ⟨bs, t', hq', ht', habs⟩ := hrest rounds' t₁ rest' (by omega) ⟨v, v', hv, ht₁, hmap⟩ hres
        refine ⟨_, t', ?_, ht', .cons hab habs⟩
        unfold Parser.repeatUpTo
        exact bind_eq_ok.mpr ⟨_, t₁, hq, bind_eq_ok.mpr ⟨bs, t', hq', rfl⟩⟩

theorem many {p : Parser (Option α)} {q : Parser (Option β)} (h : Sees w (Option.Rel E) p q)
    (hm : MovesOnSome p) : Sees w (List.Forall₂ E) (Parser.many p) (Parser.many q) := by
  intro s as t hp
  obtain ⟨hu, hrun⟩ := repeatUpTo h hm (Nat.lt_succ_self _) hp
  refine ⟨hu, fun s' rest' hb hres => hrun _ s' rest' ?_ hb hres⟩
  obtain ⟨x, x', hx, hx', hmap⟩ := hb
  have hlen : x'.length = x.length := by simpa using congrArg List.length hmap
  rw [hx, hx', List.length_append, List.length_append]
  omega

/-- What is found the same again and again. -/
theorem many_eq {p : Parser (Option α)} (h : Sees w Eq p p) (hm : MovesOnSome p) :
    Sees w Eq (Parser.many p) (Parser.many p) := by
  have hrel : Sees w (Option.Rel Eq) p p := h.mono fun a _ hab => by
    subst hab
    cases a with
    | none => exact .none
    | some a => exact .some rfl
  exact (many hrel hm).mono fun _ _ hs => List.forall₂_eq_eq_eq ▸ hs

theorem commaList (h : Sees w E p q) :
    Sees w (List.Forall₂ E) (Parser.commaList p) (Parser.commaList q) :=
  bind h fun _ _ hab => bind (many (after _ h) h.after_moves) fun _ _ hs => pure (.cons hab hs)

theorem commaList_moves (h : Sees w E p q) (hm : Moves p) : Moves (Parser.commaList p) :=
  hm.bind fun a => bind (many (after _ h) h.after_moves) fun _ _ _ => pure (E := fun _ _ => True) (b := [a]) trivial

end Sees

end

end LedgerQuery
