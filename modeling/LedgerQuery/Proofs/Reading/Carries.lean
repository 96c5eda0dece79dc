import LedgerQuery.Proofs.Reading.Enclosed

/-!
# Reading around a pair of parentheses

A pair of parentheses is put around a run of lexemes (`Enclosure`).  Most of what readers find does not
change.  What was read before the run is read before the parentheses, and what was read after the run is
read after them.  Only a reader that reads beyond the run meets the parentheses, and then it holds what was
read from the run.

`Carries` says this of a reader and one that may go deeper, with a condition `V` on values that says that a
value does not hold what was read from the run.  Either this is so, or the reader began before the run and
the other one finds the same around the parentheses.  What is known of values found before comes in as `P`.
Each way that readers are built has its rule.

A reader that begins at the run itself meets the parentheses first.  For such readers there is `Meets`.
-/

namespace LedgerQuery

open Token LedgerQuery.Parser

/-! ## Enclosures -/

/-- A run of lexemes where a target is, and a pair of parentheses to put around it. -/
structure Enclosure where
  /-- The lexemes before the run. -/
  before : List Lexeme
  /-- The run. -/
  run : List Lexeme
  /-- The lexemes after the run. -/
  after : List Lexeme
  /-- The left parenthesis. -/
  left : Lexeme
  /-- The right parenthesis. -/
  right : Lexeme
  /-- The left one is one. -/
  left_token : left.token = .symbol .leftParen
  /-- And so is the right one. -/
  right_token : right.token = .symbol .rightParen
  /-- A target can begin where the run does. -/
  opens : BeforeTarget before
  /-- The run begins as an expression does. -/
  expression : (nextOf run).opensExpr = true
  /-- Nothing dangles after the run. -/
  ends : ¬ Dangling after
  /-- No arithmetic operator follows the run. -/
  arithmetic : (nextOf after).isArithmetic = false
  /-- The lexemes are in order. -/
  ordered : (before ++ (run ++ after)).Pairwise Lexeme.Before
  /-- None of them is empty. -/
  nonempty : ∀ l ∈ before ++ (run ++ after), l.span.start < l.span.stop

namespace Enclosure

/-- The run and what follows it. -/
def rest (g : Enclosure) : List Lexeme := g.run ++ g.after

/-- All lexemes, without the parentheses. -/
def lexemes (g : Enclosure) : List Lexeme := g.before ++ g.rest

/-- The run in parentheses, and what follows it. -/
def enclosed (g : Enclosure) : List Lexeme := g.left :: (g.run ++ g.right :: g.after)

variable {g : Enclosure} {pre u : List Lexeme}

theorem nextOf_enclosed (g : Enclosure) : nextOf g.enclosed = .symbol .leftParen := g.left_token

theorem run_ne_nil (g : Enclosure) : g.run ≠ [] := by
  intro h
  have := g.expression
  rw [h] at this
  cases this

theorem nextOf_rest (g : Enclosure) : nextOf g.rest = nextOf g.run := by
  obtain ⟨l, v, h⟩ := List.exists_cons_of_ne_nil g.run_ne_nil
  rw [rest, h]
  rfl

section
variable {s s' : Input} (hsuffix : s.rest <:+ g.lexemes) (hs : s.rest = pre ++ g.rest)
include hs

include hsuffix in
/-- A target can begin after what comes before the run. -/
theorem opens_of_suffix (hpre : pre ≠ []) : BeforeTarget pre := by
  obtain ⟨u, hu⟩ := hsuffix
  rw [hs] at hu
  have hbefore : u ++ pre = g.before := by
    rw [← List.append_assoc, lexemes] at hu
    exact List.append_cancel_right hu
  obtain ⟨l, hl, x, hx, h⟩ := hbefore ▸ g.opens
  exact ⟨l, by rwa [List.getLast?_append_of_ne_nil _ hpre] at hl, x, hx, h⟩

include hsuffix in
/-- Two lexemes at least come before the run, if the first one is none that a target can begin after. -/
theorem two_le_length (hpre : pre ≠ []) (hfirst : ∀ x ∈ targetStarts, (nextOf s.rest).is x = false) :
    2 ≤ pre.length := by
  obtain ⟨m, hm, x, hx, h⟩ := opens_of_suffix hsuffix hs hpre
  rcases pre with _ | ⟨l, _ | ⟨k, v⟩⟩
  · exact absurd rfl hpre
  · obtain rfl : l = m := by simpa using hm
    have := hfirst x hx
    rw [hs] at this
    exact absurd (h.symm.trans this) (by simp)
  · simp

/-- Tokens before the run are the same before the parentheses. -/
theorem nth_eq (hs' : s'.rest = pre ++ g.enclosed) {n : Nat} (hn : n < pre.length) : s'.nth n = s.nth n := by
  obtain ⟨_, tried, last⟩ := s
  obtain ⟨_, tried', last'⟩ := s'
  obtain rfl := hs
  obtain rfl := hs'
  rw [Input.nth_append _ _ _ _ (Nat.le_of_lt hn), Input.nth_append _ _ _ _ (Nat.le_of_lt hn),
    List.drop_eq_getElem_cons hn]
  rfl

/-- A terminal that no expression begins with is no more at the parentheses than at the run. -/
theorem nth_is_eq (hs' : s'.rest = pre ++ g.enclosed) {n : Nat} (hn : n ≤ pre.length) {x : Terminal}
    (hx : ∀ t : Token, t.opensExpr = true → t.is x = false) :
    (s'.nth n).is x = (s.nth n).is x := by
  rcases Nat.lt_or_eq_of_le hn with hlt | rfl
  · rw [nth_eq hs hs' hlt]
  · obtain ⟨_, tried, last⟩ := s
    obtain ⟨_, tried', last'⟩ := s'
    obtain rfl := hs
    obtain rfl := hs'
    rw [Input.nth_append _ _ _ _ (Nat.le_refl _), Input.nth_append _ _ _ _ (Nat.le_refl _), List.drop_length,
      firstOf_nil, firstOf_nil, nextOf_enclosed, nextOf_rest, hx _ g.expression, hx _ rfl]

end

/-- What comes before the run goes on alike before the parentheses. -/
theorem resumes (g : Enclosure) (w : Prop) (hpre : pre ≠ []) : Resumes w (pre ++ g.rest) (pre ++ g.enclosed) := by
  obtain ⟨l, v, rfl⟩ := List.exists_cons_of_ne_nil hpre
  refine .inl ⟨rfl, fun ⟨hnot, hin⟩ => ⟨hnot, ?_⟩⟩
  cases v with
  | nil =>
    replace hin : (nextOf g.enclosed).is (.keyword .in) = true := hin
    rw [nextOf_enclosed] at hin
    cases hin
  | cons m v => exact hin

end Enclosure

/-! ## Carrying the parentheses -/

variable {α β γ δ : Type} {g : Enclosure} {P P' : Prop} {V : α → Prop} {V' : γ → Prop}
  {E : α → β → Prop} {E' : γ → δ → Prop} {s : Input} {p p' : Parser α} {q : Parser β}

/-- Whether a value does not hold what was read from the run, or was found from before it, and is found
around the parentheses by another reader. -/
def WrapsAt (g : Enclosure) (V : α → Prop) (E : α → β → Prop) (s : Input) (p : Parser α) (q : Parser β) : Prop :=
  ∀ a t, s.rest <:+ g.lexemes → p s = .ok (a, t) → V a ∨ ∃ pre, pre ≠ [] ∧ s.rest = pre ++ g.rest ∧
    ∀ s' : Input, s'.rest = pre ++ g.enclosed → ∃ b t', q s' = .ok (b, t') ∧ t'.rest = t.rest ∧ E a b

/-- Whether a reader that carries the parentheses at an input also sees as far as readers do. -/
structure CarriesAt (g : Enclosure) (P : Prop) (V : α → Prop) (E : α → β → Prop) (s : Input) (p : Parser α)
    (q : Parser β) : Prop where
  /-- What it finds, the other one finds before any text that resumes alike. -/
  sees : SeesAt True E s p q
  /-- What it finds is found around the parentheses. -/
  wraps : P → WrapsAt g V E s p q

/-- Whether a reader carries the parentheses at any input. -/
def Carries (g : Enclosure) (P : Prop) (V : α → Prop) (E : α → β → Prop) (p : Parser α) (q : Parser β) : Prop :=
  ∀ s, CarriesAt g P V E s p q

/-- The next token is the same before the run and before the parentheses. -/
theorem nextOf_append_enclosed {pre : List Lexeme} (hpre : pre ≠ []) :
    nextOf (pre ++ g.enclosed) = nextOf (pre ++ g.rest) := nextOf_append_of_map_eq rfl hpre

/-- A reader that looks ahead, when what it sees makes no difference. -/
theorem WrapsAt.look {τ : Type} {look : Parser τ} {v : Input → τ} {f : τ → Parser α} {f' : τ → Parser β}
    (hlook : ∀ s, look s = .ok (v s, s)) (h : WrapsAt g V E s (f (v s)) (f' (v s)))
    (hv : ∀ pre (s' : Input), pre ≠ [] → s.rest <:+ g.lexemes → s.rest = pre ++ g.rest →
      s'.rest = pre ++ g.enclosed → f' (v s') = f' (v s)) : WrapsAt g V E s (look >>= f) (look >>= f') := by
  have heq : ∀ {γ : Type} (k : τ → Parser γ) (s : Input), (look >>= k) s = k (v s) s :=
    fun k s => bind_of_ok (hlook s)
  intro a t hsuffix hp
  rw [heq] at hp
  refine (h a t hsuffix hp).imp_right fun ⟨pre, hpre, hs, hrun⟩ => ⟨pre, hpre, hs, fun s' hs' => ?_⟩
  obtain ⟨b, t', hq, ht', hab⟩ := hrun s' hs'
  exact ⟨b, t', by rw [heq, hv pre s' hpre hsuffix hs hs', hq], ht', hab⟩

/-- A reader that looks at the next token. -/
theorem WrapsAt.peek {f : Token → Parser α} {f' : Token → Parser β}
    (h : WrapsAt g V E s (f (nextOf s.rest)) (f' (nextOf s.rest))) :
    WrapsAt g V E s (Parser.peek >>= f) (Parser.peek >>= f') := by
  intro a t hsuffix hp
  rw [Parser.peek_bind] at hp
  refine (h a t hsuffix hp).imp_right fun ⟨pre, hpre, hs, hrun⟩ => ⟨pre, hpre, hs, fun s' hs' => ?_⟩
  obtain ⟨b, t', hq, ht', hab⟩ := hrun s' hs'
  exact ⟨b, t', by rw [Parser.peek_bind, hs', nextOf_append_enclosed hpre, ← hs, hq], ht', hab⟩

namespace CarriesAt

/-- A reader of values that do not hold what was read from the run. -/
theorem of_sees (h : SeesAt True E s p q) (hV : P → ∀ a t, p s = .ok (a, t) → V a) : CarriesAt g P V E s p q :=
  ⟨h, fun hP a t _ ha => .inl (hV hP a t ha)⟩

/-- What is found after a value around the parentheses. -/
theorem found {f : α → Parser γ} {f' : β → Parser δ} {a : α} {b : β} {c : γ} {s₁ t s' t₁ : Input}
    (hf : SeesAt True E' s₁ (f a) (f' b)) (h : f a s₁ = .ok (c, t)) (hq : q s' = .ok (b, t₁))
    (ht₁ : t₁.rest = s₁.rest) : ∃ d t', (q >>= f') s' = .ok (d, t') ∧ t'.rest = t.rest ∧ E' c d := by
  obtain ⟨⟨v, hv⟩, hrun⟩ := hf c t h
  obtain ⟨d, t', hq', ht', hcd⟩ := hrun t₁ t.rest ⟨v, v, hv, by rw [ht₁, hv], rfl⟩ (.refl _ _)
  exact ⟨d, t', bind_eq_ok.mpr ⟨b, t₁, hq, hq'⟩, ht', hcd⟩

/-- What is found after a value that does not hold what was read from the run. -/
theorem wraps_after {w : Prop} {f : α → Parser γ} {f' : β → Parser δ} {a : α} {c : γ} {s₁ t : Input}
    (hp : SeesAt w E s p q) (h₁ : p s = .ok (a, s₁)) (hf : ∀ b, E a b → WrapsAt g V' E' s₁ (f a) (f' b))
    (hsuffix : s.rest <:+ g.lexemes) (h₂ : f a s₁ = .ok (c, t)) :
    V' c ∨ ∃ pre, pre ≠ [] ∧ s.rest = pre ++ g.rest ∧ ∀ s' : Input, s'.rest = pre ++ g.enclosed →
      ∃ d t', (q >>= f') s' = .ok (d, t') ∧ t'.rest = t.rest ∧ E' c d := by
  by_cases hc : V' c
  · exact .inl hc
  obtain ⟨⟨u, hu⟩, hrun⟩ := hp a s₁ h₁
  have hsuffix₁ : s₁.rest <:+ g.lexemes := (show s₁.rest <:+ s.rest from ⟨u, hu.symm⟩).trans hsuffix
  have wraps : ∀ b, E a b → ∃ pre, pre ≠ [] ∧ s₁.rest = pre ++ g.rest ∧ ∀ s' : Input,
      s'.rest = pre ++ g.enclosed → ∃ d t', f' b s' = .ok (d, t') ∧ t'.rest = t.rest ∧ E' c d :=
    fun b hab => (hf b hab c t hsuffix₁ h₂).resolve_left hc
  obtain ⟨b₀, -, -, -, hab₀⟩ := hrun s s₁.rest (.refl hu) (.refl _ _)
  obtain ⟨pre, hpre, hs₁, -⟩ := wraps b₀ hab₀
  refine .inr ⟨u ++ pre, by simp [hpre], by rw [hu, hs₁, List.append_assoc], fun s' hs' => ?_⟩
  obtain ⟨b, t₁, hq, ht₁, hab⟩ := hrun s' (pre ++ g.enclosed) ⟨u, u, hu, by rw [hs', List.append_assoc], rfl⟩
    (hs₁ ▸ g.resumes w hpre)
  obtain ⟨pre', -, hs₁', hrun'⟩ := wraps b hab
  obtain rfl : pre = pre' := List.append_cancel_right (hs₁.symm.trans hs₁')
  obtain ⟨d, t', hq', ht', hcd⟩ := hrun' t₁ ht₁
  exact ⟨d, t', bind_eq_ok.mpr ⟨b, t₁, hq, hq'⟩, ht', hcd⟩

theorem bind {f : α → Parser γ} {f' : β → Parser δ} (hp : CarriesAt g P V E s p q)
    (hf : ∀ a s₁, p s = .ok (a, s₁) → ∀ b, E a b → CarriesAt g (P ∧ V a) V' E' s₁ (f a) (f' b)) :
    CarriesAt g P V' E' s (p >>= f) (q >>= f') := by
  refine ⟨.bind hp.sees fun a s₁ h b hab => (hf a s₁ h b hab).sees, fun hP c t hsuffix h => ?_⟩
  obtain ⟨a, s₁, h₁, h₂⟩ := bind_eq_ok.mp h
  rcases hp.wraps hP a s₁ hsuffix h₁ with ha | ⟨pre, hpre, hs, hrun⟩
  · exact wraps_after hp.sees h₁ (fun b hab => (hf a s₁ h₁ b hab).wraps ⟨hP, ha⟩) hsuffix h₂
  · refine .inr ⟨pre, hpre, hs, fun s' hs' => ?_⟩
    obtain ⟨b, t₁, hq, ht₁, hab⟩ := hrun s' hs'
    exact found (hf a s₁ h₁ b hab).sees h₂ hq ht₁

/-- A reader of no such values that sees no further than it has to, and another one after it. -/
theorem lead {w : Prop} {f : α → Parser γ} {f' : α → Parser δ} (hsees : SeesAt True E' s (p >>= f) (p' >>= f'))
    (hp : SeesAt w Eq s p p') (hf : ∀ a s₁, p s = .ok (a, s₁) → CarriesAt g P V' E' s₁ (f a) (f' a)) :
    CarriesAt g P V' E' s (p >>= f) (p' >>= f') := by
  refine ⟨hsees, fun hP c t hsuffix h => ?_⟩
  obtain ⟨a, s₁, h₁, h₂⟩ := bind_eq_ok.mp h
  exact wraps_after hp h₁ (fun _ hab => hab ▸ (hf a s₁ h₁).wraps hP) hsuffix h₂

theorem andThen {f : α → Parser γ} {f' : α → Parser δ} (hp : SeesAt True Eq s p p')
    (hf : ∀ a s₁, p s = .ok (a, s₁) → CarriesAt g P V' E' s₁ (f a) (f' a)) :
    CarriesAt g P V' E' s (p >>= f) (p' >>= f') :=
  lead (.bind hp fun a s₁ h _ hab => hab ▸ (hf a s₁ h).sees) hp hf

theorem peek {f : Token → Parser α} {f' : Token → Parser β}
    (hsees : SeesAt True E s (Parser.peek >>= f) (Parser.peek >>= f'))
    (h : P → WrapsAt g V E s (f (nextOf s.rest)) (f' (nextOf s.rest))) :
    CarriesAt g P V E s (Parser.peek >>= f) (Parser.peek >>= f') := ⟨hsees, fun hP => .peek (h hP)⟩

end CarriesAt

namespace Carries

theorem of_sees (h : Sees True E p q) (hV : P → ∀ a, V a) : Carries g P V E p q :=
  fun s => .of_sees (h s) fun hP a _ _ => hV hP a

theorem imp (h : Carries g P V E p q) (hP : P' → P) : Carries g P' V E p q :=
  fun s => ⟨(h s).sees, fun h' => (h s).wraps (hP h')⟩

theorem sees (h : Carries g P V E p q) : Sees True E p q := fun s => (h s).sees

theorem bind {f : α → Parser γ} {f' : β → Parser δ} (hp : Carries g P V E p q)
    (hf : ∀ a b, E a b → Carries g (P ∧ V a) V' E' (f a) (f' b)) : Carries g P V' E' (p >>= f) (q >>= f') :=
  fun s => (hp s).bind fun a s₁ _ b hab => hf a b hab s₁

theorem andThen {f : α → Parser γ} {f' : α → Parser δ} (hp : Sees True Eq p p')
    (hf : ∀ a, Carries g P V' E' (f a) (f' a)) : Carries g P V' E' (p >>= f) (p' >>= f') :=
  fun s => .andThen (hp s) fun a s₁ _ => hf a s₁

theorem pure {a : α} {b : β} (h : E a b) (hV : P → V a) : Carries g P V E (Pure.pure a) (Pure.pure b) :=
  fun s => .of_sees (Sees.pure h s) fun hP c t hc => by
    obtain ⟨rfl, -⟩ := pure_eq_ok.mp hc
    exact hV hP

theorem map {f : α → γ} {f' : β → δ} (hp : Carries g P V E p q) (hE : ∀ a b, E a b → E' (f a) (f' b))
    (hV : ∀ a, P → V a → V' (f a)) : Carries g P V' E' (f <$> p) (f' <$> q) :=
  bind hp fun a b hab => pure (hE a b hab) fun h => hV a h.1 h.2

theorem fail {f : Fault} : Carries g P V E (Parser.fail f) q :=
  fun s => ⟨Sees.fail s, fun _ _ _ _ h => absurd h fail_ne_ok⟩

theorem missing {e : Expected} : Carries g P V E (Parser.missing e) q :=
  fun s => ⟨Sees.missing s, fun _ _ _ _ h => absurd h missing_ne_ok⟩

/-! ## Terminals -/

section
variable {x : Terminal}

/-- A terminal that may be next, and a reader that moves on if it is not. -/
theorem accept_bind {f : Bool → Parser α} {f' : Bool → Parser β} (hf : ∀ b, Carries g P V E (f b) (f' b))
    (hm : Moves (f false)) : Carries g P V E (Parser.accept x >>= f) (Parser.accept x >>= f') :=
  fun s => .lead (w := False) (Sees.accept_bind (fun b => (hf b).sees) hm s) (Sees.accept x s)
    fun b s₁ _ => hf b s₁

theorem after [x.GoesOn True] (h : Carries g P V E p q) :
    Carries g P (fun o => ∀ a ∈ o, V a) (Option.Rel E) (Parser.after x p) (Parser.after x q) := by
  refine andThen (Sees.accept (w := True) x) fun b => ?_
  split
  · exact map h (fun _ _ => .some) fun a _ ha _ he => Option.some.inj he ▸ ha
  · exact pure .none fun _ => by simp

theorem afterQuietly [x.GoesOn True] (h : Carries g P V E p q) :
    Carries g P (fun o => ∀ a ∈ o, V a) (Option.Rel E) (Parser.afterQuietly x p) (Parser.afterQuietly x q) := by
  refine andThen (Sees.acceptQuietly (w := True) x) fun b => ?_
  split
  · exact map h (fun _ _ => .some) fun a _ ha _ he => Option.some.inj he ▸ ha
  · exact pure .none fun _ => by simp

end

/-! ## Repetition -/

/-- One round holds what was read from the run, or none does. -/
theorem repeatUpTo {p : Parser (Option α)} {q : Parser (Option β)}
    (h : Carries g P (fun o => ∀ a ∈ o, V a) (Option.Rel E) p q) (hm : MovesOnSome p) (hP : P) {as : List α}
    {rounds : Nat} {s t : Input} (hr : s.rest.length < rounds) (hsuffix : s.rest <:+ g.lexemes)
    (hp : Parser.repeatUpTo p rounds s = .ok (as, t)) : (∀ a ∈ as, V a) ∨ ∃ pre, pre ≠ [] ∧
      s.rest = pre ++ g.rest ∧ ∀ rounds' (s' : Input), s'.rest.length < rounds' → s'.rest = pre ++ g.enclosed →
        ∃ bs t', Parser.repeatUpTo q rounds' s' = .ok (bs, t') ∧ t'.rest = t.rest ∧ List.Forall₂ E as bs := by
  induction rounds generalizing s as with
  | zero => exact absurd hr (Nat.not_lt_zero _)
  | succ rounds ih =>
    unfold Parser.repeatUpTo at hp
    obtain ⟨o, s₁, h₁, h₂⟩ := bind_eq_ok.mp hp
    cases o with
    | none =>
      obtain ⟨rfl, rfl⟩ := pure_eq_ok.mp h₂
      exact .inl (by simp)
    | some a =>
      obtain ⟨as', s₂, h₃, h₄⟩ := bind_eq_ok.mp h₂
      obtain ⟨rfl, rfl⟩ := pure_eq_ok.mp h₄
      have hlt := hm s a s₁ h₁
      obtain ⟨⟨u, hu⟩, hrun⟩ := (h s).sees _ s₁ h₁
      have hsuffix₁ : s₁.rest <:+ g.lexemes := (show s₁.rest <:+ s.rest from ⟨u, hu.symm⟩).trans hsuffix
      rcases (h s).wraps hP _ s₁ hsuffix h₁ with ha | ⟨pre, hpre, hs, hrun₁⟩
      · -- the run comes after this round
        refine (ih (by omega) hsuffix₁ h₃).imp (fun has => by simpa using ⟨ha a rfl, has⟩) ?_
        rintro ⟨pre, hpre, hs₁, hrun₂⟩
        refine ⟨u ++ pre, by simp [hpre], by rw [hu, hs₁, List.append_assoc], fun rounds' s' hr' hs' => ?_⟩
        obtain ⟨rounds', rfl⟩ : ∃ n, rounds' = n + 1 := Nat.exists_eq_succ_of_ne_zero (by omega)
        obtain ⟨_, t₁, hq, ht₁, hab⟩ := hrun s' (pre ++ g.enclosed) ⟨u, u, hu, by rw [hs', List.append_assoc], rfl⟩
          (hs₁ ▸ g.resumes True hpre)
        cases hab with
        | some hab =>
          have hne : u ≠ [] := by
            rintro rfl
            rw [hu] at hlt
            exact Nat.lt_irrefl _ hlt
          have hlen := List.length_pos_of_ne_nil hne
          have hr₁ : t₁.rest.length < rounds' := by
            rw [hs'] at hr'
            rw [ht₁]
            simp only [List.length_append] at hr' ⊢
            omega
          obtain ⟨bs, t', hq', ht', habs⟩ := hrun₂ rounds' t₁ hr₁ ht₁
          refine ⟨_, t', ?_, ht', .cons hab habs⟩
          unfold Parser.repeatUpTo
          exact bind_eq_ok.mpr ⟨_, t₁, hq, bind_eq_ok.mpr ⟨bs, t', hq', rfl⟩⟩
      · -- this round read beyond the run
        refine .inr ⟨pre, hpre, hs, fun rounds' s' hr' hs' => ?_⟩
        obtain ⟨rounds', rfl⟩ : ∃ n, rounds' = n + 1 := Nat.exists_eq_succ_of_ne_zero (by omega)
        obtain ⟨_, t₁, hq, ht₁, hab⟩ := hrun₁ s' hs'
        cases hab with
        | some hab =>
          obtain ⟨⟨v, hv⟩, hrest⟩ := Sees.repeatUpTo h.sees hm (by omega) h₃
          have hlen : s.rest.length ≤ s'.rest.length := by
            rw [hs, hs', List.length_append, List.length_append, Enclosure.rest, Enclosure.enclosed]
            simp only [List.length_append, List.length_cons]
            omega
          obtain ⟨bs, t', hq', ht', habs⟩ := hrest rounds' t₁ s₂.rest (by omega) ⟨v, v, hv, by rw [ht₁, hv], rfl⟩
            (.refl _ _)
          refine ⟨_, t', ?_, ht', .cons hab habs⟩
          unfold Parser.repeatUpTo
          exact bind_eq_ok.mpr ⟨_, t₁, hq, bind_eq_ok.mpr ⟨bs, t', hq', rfl⟩⟩

theorem many {p : Parser (Option α)} {q : Parser (Option β)}
    (h : Carries g P (fun o => ∀ a ∈ o, V a) (Option.Rel E) p q) (hm : MovesOnSome p) :
    Carries g P (fun as => ∀ a ∈ as, V a) (List.Forall₂ E) (Parser.many p) (Parser.many q) := by
  refine fun s => ⟨Sees.many h.sees hm s, fun hP as t hsuffix hp => ?_⟩
  exact (repeatUpTo h hm hP (Nat.lt_succ_self _) hsuffix hp).imp_right fun ⟨pre, hpre, hs, hrun⟩ =>
    ⟨pre, hpre, hs, fun s' hs' => hrun _ s' (Nat.lt_succ_self _) hs'⟩

theorem commaList (h : Carries g True V E p q) :
    Carries g P (fun as => ∀ a ∈ as, V a) (List.Forall₂ E) (Parser.commaList p) (Parser.commaList q) := by
  have hany : ∀ {P : Prop}, Carries g P V E p q := h.imp fun _ => trivial
  exact bind hany fun a b hab => bind (many (after hany) h.sees.after_moves) fun as bs hs =>
    pure (.cons hab hs) fun ⟨⟨_, ha⟩, has⟩ => by simpa using ⟨ha, has⟩

end Carries

/-! ## Reaching the parentheses -/

/-- Whether what a reader finds does not hold what was read from the run, or is found by another one around
the parentheses, which it may meet first. -/
def Reaches (g : Enclosure) (V : α → Prop) (E : α → β → Prop) (p : Parser α) (q : Parser β) : Prop :=
  ∀ s a t, s.rest <:+ g.lexemes → p s = .ok (a, t) → V a ∨ ∃ pre, s.rest = pre ++ g.rest ∧
    ∀ s' : Input, s'.rest = pre ++ g.enclosed → ∃ b t', q s' = .ok (b, t') ∧ t'.rest = t.rest ∧ E a b

namespace Reaches

theorem pure {a : α} (h : V a) : Reaches g V E (Pure.pure a) q := by
  intro s c t _ hc
  obtain ⟨rfl, -⟩ := pure_eq_ok.mp hc
  exact .inl h

/-- A reader that may meet the parentheses, and another one that comes after them or meets them later. -/
theorem bind {f : α → Parser γ} {f' : β → Parser δ} (hsees : Sees True E p q) (hp : Reaches g V E p q)
    (hf : ∀ a b, E a b → Carries g (V a) V' E' (f a) (f' b)) : Reaches g V' E' (p >>= f) (q >>= f') := by
  intro s c t hsuffix h
  obtain ⟨a, s₁, h₁, h₂⟩ := bind_eq_ok.mp h
  rcases hp s a s₁ hsuffix h₁ with ha | ⟨pre, hs, hrun⟩
  · exact (CarriesAt.wraps_after (hsees s) h₁ (fun b hab => (hf a b hab s₁).wraps ha) hsuffix h₂).imp_right
      fun ⟨pre, _, hs, hrun⟩ => ⟨pre, hs, hrun⟩
  · refine .inr ⟨pre, hs, fun s' hs' => ?_⟩
    obtain ⟨b, t₁, hq, ht₁, hab⟩ := hrun s' hs'
    exact CarriesAt.found (hf a b hab s₁).sees h₂ hq ht₁

/-- After a lexeme the parentheses may be met. -/
theorem cons {l : Lexeme} {rest : List Lexeme} {a : α} {t : Input} (hp : Reaches g V E p q)
    (hsuffix : s.rest <:+ g.lexemes) (hs : s.rest = l :: rest) (h : p ⟨rest, [], l.span⟩ = .ok (a, t)) :
    V a ∨ ∃ pre, pre ≠ [] ∧ s.rest = pre ++ g.rest ∧ ∀ s' : Input, s'.rest = pre ++ g.enclosed →
      ∃ rest' b t', s'.rest = l :: rest' ∧ q ⟨rest', [], l.span⟩ = .ok (b, t') ∧ t'.rest = t.rest ∧ E a b := by
  have hsuffix₁ : rest <:+ g.lexemes := (show rest <:+ s.rest from ⟨[l], hs.symm⟩).trans hsuffix
  refine (hp _ a t hsuffix₁ h).imp_right fun ⟨pre, hpre, hrun⟩ => ?_
  replace hpre : rest = pre ++ g.rest := hpre
  refine ⟨l :: pre, by simp, by rw [hs, hpre]; rfl, fun s' hs' => ?_⟩
  obtain ⟨b, t', hq, ht', hab⟩ := hrun ⟨pre ++ g.enclosed, [], l.span⟩ rfl
  exact ⟨_, b, t', hs', hq, ht', hab⟩

/-- A terminal that may be next and is nothing that an expression begins with. -/
theorem accept_bind {x : Terminal} {f : Bool → Parser α} {f' : Bool → Parser β}
    (hx : ∀ t : Token, t.opensExpr = true → t.is x = false) (hf : ∀ b, Reaches g V E (f b) (f' b)) :
    Reaches g V E (Parser.accept x >>= f) (Parser.accept x >>= f') := by
  intro s a t hsuffix h
  obtain ⟨b, s₁, h₁, h₂⟩ := bind_eq_ok.mp h
  rcases accept_eq_ok h₁ with ⟨rfl, l, rest, hs, hl, rfl⟩ | ⟨rfl, hmiss, hr, -⟩
  · refine ((hf true).cons hsuffix hs h₂).imp_right fun ⟨pre, _, hpre, hrun⟩ => ⟨pre, hpre, fun s' hs' => ?_⟩
    obtain ⟨rest', b, t', hr', hq, ht', hab⟩ := hrun s' hs'
    exact ⟨b, t', bind_eq_ok.mpr ⟨true, _, accept_hit hr' hl, hq⟩, ht', hab⟩
  · refine (hf false s₁ a t (hr ▸ hsuffix) h₂).imp_right fun ⟨pre, hpre, hrun⟩ => ?_
    rw [hr] at hpre
    refine ⟨pre, hpre, fun s' hs' => ?_⟩
    have hmiss' : (nextOf s'.rest).is x = false := by
      rw [hs']
      by_cases hnil : pre = []
      · subst hnil
        exact hx _ (by rw [List.nil_append, g.nextOf_enclosed]; rfl)
      · rwa [nextOf_append_enclosed hnil, ← hpre]
    obtain ⟨b, t', hq, ht', hab⟩ := hrun { s' with tried := .terminal x :: s'.tried } hs'
    exact ⟨b, t', bind_eq_ok.mpr ⟨false, _, accept_miss hmiss', hq⟩, ht', hab⟩

/-- A terminal that has to be there, and a reader that may meet the parentheses after it. -/
theorem expect_bind {x : Terminal} {p : Parser α} {q : Parser β} (hsees : Sees True E p q)
    (hp : Reaches g V E p q) : Carries g P V E (Parser.expect x >>= fun _ => p) (Parser.expect x >>= fun _ => q) := by
  refine fun s => ⟨Sees.andThen (Sees.expect x) (fun _ => hsees) s, fun _ a t hsuffix h => ?_⟩
  obtain ⟨_, s₁, h₁, h₂⟩ := bind_eq_ok.mp h
  obtain ⟨l, rest, hs, hl, rfl⟩ := expect_eq_ok h₁
  refine (hp.cons hsuffix hs h₂).imp_right fun ⟨pre, hpre, hs₁, hrun⟩ => ⟨pre, hpre, hs₁, fun s' hs' => ?_⟩
  obtain ⟨rest', b, t', hr', hq, ht', hab⟩ := hrun s' hs'
  exact ⟨b, t', bind_eq_ok.mpr ⟨(), _, expect_hit hr' hl, hq⟩, ht', hab⟩

/-- A terminal that may be next, and a reader that may meet the parentheses after it. -/
theorem after {x : Terminal} [x.GoesOn True] {p : Parser α} {q : Parser β} (hsees : Sees True E p q)
    (hp : Reaches g V E p q) :
    Carries g P (fun o => ∀ a ∈ o, V a) (Option.Rel E) (Parser.after x p) (Parser.after x q) := by
  refine fun s => ⟨Sees.after x hsees s, fun _ o t hsuffix h => ?_⟩
  obtain ⟨b, s₁, h₁, h₂⟩ := bind_eq_ok.mp h
  rcases accept_eq_ok h₁ with ⟨rfl, l, rest, hs, hl, rfl⟩ | ⟨rfl, -⟩
  · obtain ⟨a, ha, rfl⟩ := map_eq_ok.mp h₂
    refine (hp.cons hsuffix hs ha).imp (fun ha _ he => Option.some.inj he ▸ ha) fun ⟨pre, hpre, hs₁, hrun⟩ => ?_
    refine ⟨pre, hpre, hs₁, fun s' hs' => ?_⟩
    obtain ⟨rest', b, t', hr', hq, ht', hab⟩ := hrun s' hs'
    exact ⟨some b, t', bind_eq_ok.mpr ⟨true, _, accept_hit hr' hl, map_eq_ok.mpr ⟨b, hq, rfl⟩⟩, ht', .some hab⟩
  · obtain ⟨rfl, -⟩ := pure_eq_ok.mp h₂
    exact .inl (by simp)

/-- One or more readings with commas between, each of which may meet the parentheses. -/
theorem commaList (hsees : Sees True E p q) (hp : Reaches g V E p q) :
    Reaches g (fun as => ∀ a ∈ as, V a) (List.Forall₂ E) (Parser.commaList p) (Parser.commaList q) :=
  bind hsees hp fun a b hab => .bind (.many (after hsees hp) hsees.after_moves) fun as bs hs =>
    .pure (.cons hab hs) fun ⟨ha, has⟩ => by simpa using ⟨ha, has⟩

end Reaches

end LedgerQuery
