import LedgerQuery.Proofs.Reading.Steps
import LedgerQuery.Proofs.Reading.Tidy

/-!
# What was tried would have been read

An item that was tried in vain at the place where reading stopped would have been read there.  So a text that
is cut off at this place and ends with a sample of the item is read to its end.

`HeedsAt E s p q` says this of the reader `p` that stopped and of a reader `q` that may go deeper.  If `p` found
something, then `q` either reads the sample or finds the like and leaves it.  There are two exceptions, in
which the sample is refused for what stands before it (`Stop.Refuses`): a comma after the second key of a pivot,
and a connective after a number that is too large for an expression.  Each way that readers are built has its
rule.
-/

namespace LedgerQuery

open Token LedgerQuery.Parser

/-! ## Samples -/

namespace Token

/-- The token of a terminal in its usual spelling. -/
def ofTerminal : Terminal → Token
  | .keyword k => .keyword k k.spelling
  | .symbol s => .symbol s

@[simp] theorem terminal?_ofTerminal (x : Terminal) : (ofTerminal x).terminal? = some x := by
  cases x <;> rfl

theorem ofTerminal_is (x : Terminal) : (ofTerminal x).is x = true := by simp [is]

theorem ofTerminal_is_iff {x y : Terminal} : (ofTerminal x).is y = true ↔ x = y := by simp [is]

end Token

/-- A token of the kind that is expected. -/
def Expected.sample : Expected → Token
  | terminal x => .ofTerminal x
  | expression | integer | literal => .integer "1"
  | identifier => .ident "a"
  | date => .date "2000-01-01"
  | string => .string ⟨"", .single⟩
  | table => .table ""
  | endOfInput => .eof

/-- Whether a token is a sample of an item that readers of parts of a statement try. -/
def Token.IsSample (t : Token) : Prop := ∃ e : Expected, e.isOrdinary = true ∧ t = e.sample

namespace Token.IsSample

variable {t : Token}

theorem not_in (h : t.IsSample) : t.is (.keyword .in) = false := by
  obtain ⟨e, he, rfl⟩ := h
  cases e with
  | terminal x =>
    rw [← Bool.not_eq_true]
    intro hx
    obtain rfl := ofTerminal_is_iff.mp hx
    cases he
  | _ => rfl

/-- A sample is not refused for its value. -/
theorem literal?_ok (h : t.IsSample) {r : Except Fault Literal} (hr : t.literal? = some r) : ∃ a, r = .ok a := by
  obtain ⟨e, he, rfl⟩ := h
  cases e with
  | terminal x =>
    cases x with
    | keyword k => cases k <;> simp_all [Expected.sample, ofTerminal, Token.literal?] <;> exact ⟨_, hr.symm⟩
    | symbol s => cases hr
  | endOfInput => cases he
  | table | identifier => cases hr
  | _ => exact ⟨_, (Option.some.inj hr).symm⟩

/-- No comparison begins with a sample alone. -/
theorem compares_eq_false {l : Lexeme} (h : l.token.IsSample) : compares [l] = false := by
  obtain ⟨e, he, hl⟩ := h
  rw [compares, nextOf, firstOf_cons, hl]
  cases e with
  | terminal x =>
    cases x with
    | keyword k => cases k <;> first | rfl | cases he
    | symbol s => cases s <;> first | rfl | cases he
  | _ => rfl

end Token.IsSample

/-! ## Refusals -/

/-- Whether reading stopped because the last lexeme was refused for what stands before it. -/
inductive Stop.Refuses : Stop → Prop
  /-- A comma after the second key of a pivot. -/
  | comma {l : Lexeme} (h : l.token.is (.symbol .comma) = true) : Refuses ⟨.pivotArity, [l]⟩
  /-- A number that is a target's and too large for an expression, and after it something that would make it part
  of one. -/
  | number {l m : Lexeme} {digits : String} (hl : l.token = .integer digits) (hd : ∃ n, countOf digits = .ok n)
    (hm : m.token.continuesExpression = true) : Refuses ⟨.invalidNumber digits, [l, m]⟩

variable {α β γ δ : Type}

/-- Whether a reader did not get to the end, though nothing was refused for what stands before it. -/
structure Halts (r : Except Stop (α × Input)) : Prop where
  /-- Something remains. -/
  left : leftOf r ≠ []
  /-- Nothing was refused. -/
  accepts : ∀ stop, r = .error stop → ¬ stop.Refuses

/-- Whether a reader, where another one has got, reads any sample of what was tried there, or else leaves the
sample and finds the like. -/
def HeedsAt (E : α → β → Prop) (s : Input) (p : Parser α) (q : Parser β) : Prop :=
  ∃ u, s.rest = u ++ leftOf (p s) ∧ ∀ s' v l, s'.rest = v ++ [l] → v.map Lexeme.token = u.map Lexeme.token →
    l.token.IsSample → Halts (q s') →
      (∀ e ∈ missed (p s), l.token = e.sample → u = [] ∧ e ∈ s.tried) ∧
        ∀ a t, p s = .ok (a, t) → ∃ b t', q s' = .ok (b, t') ∧ t'.rest = [l] ∧ E a b

/-- Whether a reader reads what another one tried in vain. -/
structure Heeds (E : α → β → Prop) (p : Parser α) (q : Parser β) : Prop where
  /-- It finds the like before any text that resumes alike. -/
  sees : Sees False E p q
  /-- It leaves an end of what it was given. -/
  tidy : Tidy q
  /-- It reads the samples. -/
  heeds : ∀ s, HeedsAt E s p q

/-- Whatever is found. -/
abbrev Whatever : α → β → Prop := fun _ _ => True

variable {E : α → β → Prop} {E' : γ → δ → Prop} {s : Input} {p : Parser α} {q : Parser β}

/-- A text that begins with the same tokens resumes alike, if what follows these is no `IN`. -/
theorem Resumes.of_ne_nil {w : Prop} {v v' rest rest' : List Lexeme}
    (hv : v'.map Lexeme.token = v.map Lexeme.token) (hne : v ≠ [])
    (hin : (nextOf rest').is (.keyword .in) = false) : Resumes w (v ++ rest) (v' ++ rest') := by
  refine .inl ⟨nextOf_append_of_map_eq hv hne, fun ⟨hnot, hin'⟩ => ?_⟩
  cases v with
  | nil => exact absurd rfl hne
  | cons l v =>
    obtain ⟨l', v', rfl, hl, hv⟩ := List.map_eq_cons_iff.mp hv
    refine ⟨by simpa [hl] using hnot, ?_⟩
    show (nextOf (v ++ rest)).is (.keyword .in) = true
    replace hin' : (nextOf (v' ++ rest')).is (.keyword .in) = true := hin'
    cases v with
    | nil =>
      obtain rfl : v' = [] := by simpa using hv
      exact absurd (hin'.symm.trans hin) (by simp)
    | cons m v => rwa [nextOf_append_of_map_eq hv (by simp)] at hin'

/-- What halts in the first of two readers halts. -/
theorem Halts.of_bind {g : β → Parser δ} (hg : ∀ b, Tidy (g b)) (h : Halts ((q >>= g) s)) : Halts (q s) :=
  ⟨fun hq => h.left (leftOf_bind_eq_nil hg hq), fun stop hq => h.accepts stop (bind_of_error hq)⟩

namespace HeedsAt

theorem mono {E₂ : α → β → Prop} (h : HeedsAt E s p q) (hE : ∀ a b, E a b → E₂ a b) : HeedsAt E₂ s p q := by
  obtain ⟨u, hu, hrun⟩ := h
  refine ⟨u, hu, fun s' v l hs' hv hl hq => ?_⟩
  obtain ⟨hmissed, hok⟩ := hrun s' v l hs' hv hl hq
  refine ⟨hmissed, fun a t hp => ?_⟩
  obtain ⟨b, t', hq, ht', hab⟩ := hok a t hp
  exact ⟨b, t', hq, ht', hE a b hab⟩

theorem bind {f : α → Parser γ} {g : β → Parser δ} (hsees : SeesAt False E s p q) (hp : HeedsAt E s p q)
    (htidy : ∀ b, Tidy (g b)) (hf : ∀ a s₁, p s = .ok (a, s₁) → ∀ b, E a b → HeedsAt E' s₁ (f a) (g b)) :
    HeedsAt E' s (p >>= f) (q >>= g) := by
  obtain ⟨u, hu, hrun⟩ := hp
  cases h : p s with
  | error stop =>
    rw [h] at hu hrun
    refine ⟨u, by rw [bind_of_error h]; exact hu, fun s' v l hs' hv hl hq => ?_⟩
    rw [bind_of_error h]
    exact ⟨(hrun s' v l hs' hv hl (hq.of_bind htidy)).1, fun _ _ he => nomatch he⟩
  | ok x =>
    obtain ⟨a, s₁⟩ := x
    rw [h] at hu hrun
    rw [HeedsAt, bind_of_ok h]
    obtain ⟨b₀, -, -, -, hab₀⟩ := (hsees a s₁ h).2 s s₁.rest (.refl hu) (.refl _ _)
    obtain ⟨v, hv, -⟩ := hf a s₁ h b₀ hab₀
    refine ⟨u ++ v, by rw [hu, List.append_assoc, ← hv]; rfl, fun s' x l hs' hx hl hq => ?_⟩
    rw [List.map_append] at hx
    obtain ⟨u', v', rfl, hu', hv'⟩ := List.map_eq_append_iff.mp hx
    rw [List.append_assoc] at hs'
    by_cases hnil : v = []
    · -- the first reader met the sample and stopped in front of it
      subst hnil
      obtain rfl : v' = [] := by simpa using hv'
      obtain ⟨hmissed, hok⟩ := hrun s' u' l hs' hu' hl (hq.of_bind htidy)
      obtain ⟨b, t₁, hq₁, ht₁, hab⟩ := hok a s₁ rfl
      rw [bind_of_ok hq₁] at hq ⊢
      obtain ⟨v, hv₂, hrun'⟩ := hf a s₁ h b hab
      obtain rfl : v = [] := List.append_cancel_right (hv₂.symm.trans hv)
      obtain ⟨hmissed', hok'⟩ := hrun' t₁ [] l ht₁ rfl hl hq
      exact ⟨fun e he hl => by simpa using hmissed e (hmissed' e he hl).2 hl, hok'⟩
    · -- the first reader did not see the sample
      have hres : Resumes False s₁.rest (v' ++ [l]) := by
        rw [hv]
        exact .of_ne_nil hv' hnil hl.not_in
      obtain ⟨b, t₁, hq₁, ht₁, hab⟩ := (hsees a s₁ h).2 s' (v' ++ [l]) ⟨u, u', hu, hs', hu'⟩ hres
      rw [bind_of_ok hq₁] at hq ⊢
      obtain ⟨x, hx, hrun'⟩ := hf a s₁ h b hab
      obtain rfl : x = v := List.append_cancel_right (hx.symm.trans hv)
      obtain ⟨hmissed', hok'⟩ := hrun' t₁ v' l ht₁ hv' hl hq
      exact ⟨fun e he hl => absurd (hmissed' e he hl).1 hnil, hok'⟩

/-- A reader that has not moved. -/
theorem of_stays (hs : leftOf (p s) = s.rest) (h : ∀ s' l, s'.rest = [l] → l.token.IsSample → Halts (q s') →
    (∀ e ∈ missed (p s), l.token = e.sample → e ∈ s.tried) ∧
      ∀ a t, p s = .ok (a, t) → ∃ b t', q s' = .ok (b, t') ∧ t'.rest = [l] ∧ E a b) : HeedsAt E s p q := by
  refine ⟨[], hs.symm, fun s' v l hs' hv hl hq => ?_⟩
  obtain rfl : v = [] := by simpa using hv
  obtain ⟨hmissed, hok⟩ := h s' l hs' hl hq
  exact ⟨fun e he hl => ⟨rfl, hmissed e he hl⟩, hok⟩

/-- A reader that stopped and lists nothing. -/
theorem of_error (stop : Stop) (hp : p s = .error stop) (hu : ∃ u, s.rest = u ++ stop.rest)
    (hitems : stop.fault.items = []) : HeedsAt E s p q := by
  obtain ⟨u, hu⟩ := hu
  refine ⟨u, by rw [hp]; exact hu, fun s' v l _ _ _ _ => ?_⟩
  rw [hp]
  exact ⟨fun e (he : e ∈ stop.fault.items) => absurd (hitems ▸ he) List.not_mem_nil, fun _ _ h => nomatch h⟩

/-- A reader that finds something without reading. -/
theorem of_found {a : α} {b : β} (hp : p s = .ok (a, s)) (hab : E a b)
    (hq : ∀ s' l, s'.rest = [l] → l.token.IsSample → q s' = .ok (b, s')) : HeedsAt E s p q := by
  refine of_stays (by rw [hp]; rfl) fun s' l hs' hl _ => ?_
  rw [hp]
  refine ⟨fun e he _ => he, ?_⟩
  rintro _ _ ⟨⟩
  exact ⟨b, s', hq s' l hs' hl, hs', hab⟩

theorem pure {a : α} {b : β} (h : E a b) : HeedsAt E s (Pure.pure a) (Pure.pure b) :=
  of_found rfl h fun _ _ _ _ => rfl

theorem unexpected : HeedsAt E s Parser.unexpected q :=
  of_stays rfl fun _ _ _ _ _ => ⟨fun _ he _ => Expected.mem_collect.mp he,
    fun _ _ h => absurd h unexpected_ne_ok⟩

/-- What has moved to a reader goes on there before the same token. -/
theorem of_moved {p₁ : Parser α} {q₁ : Parser β} (hp₁ : HeedsAt E s p₁ q₁) (hp : p s = p₁ s)
    (hmoved : leftOf (p₁ s) ≠ s.rest) (hq : ∀ s' : Input, nextOf s'.rest = nextOf s.rest → q s' = q₁ s') :
    HeedsAt E s p q := by
  obtain ⟨u, hu, hrun⟩ := hp₁
  rw [HeedsAt, hp]
  refine ⟨u, hu, fun s' v l hs' hv => ?_⟩
  have hnil : u ≠ [] := by
    rintro rfl
    exact hmoved hu.symm
  rw [hq s' (by rw [hs', hu]; exact nextOf_append_of_map_eq hv hnil)]
  exact hrun s' v l hs' hv

/-- Readers that go on in others after the same tokens. -/
theorem steps {p₁ : Parser α} {q₁ : Parser β} (u₀ : List Lexeme) (s₁ : Input) (hs : s.rest = u₀ ++ s₁.rest)
    (htried : s₁.tried = []) (hp : p s = p₁ s₁) (hq : ∀ s' v rest', s'.rest = v ++ rest' →
      v.map Lexeme.token = u₀.map Lexeme.token → ∃ t', t'.rest = rest' ∧ q s' = q₁ t')
    (h : HeedsAt E s₁ p₁ q₁) : HeedsAt E s p q := by
  obtain ⟨u, hu, hrun⟩ := h
  rw [HeedsAt, hp]
  refine ⟨u₀ ++ u, by rw [hs, hu, List.append_assoc], fun s' x l hs' hx hl hhalts => ?_⟩
  rw [List.map_append] at hx
  obtain ⟨v₀, v, rfl, hv₀, hv⟩ := List.map_eq_append_iff.mp hx
  rw [List.append_assoc] at hs'
  obtain ⟨t', ht', hqs⟩ := hq s' v₀ (v ++ [l]) hs' hv₀
  rw [hqs] at hhalts ⊢
  obtain ⟨hmissed, hok⟩ := hrun t' v l ht' hv hl hhalts
  refine ⟨fun e he hl => ?_, hok⟩
  have := (hmissed e he hl).2
  rw [htried] at this
  cases this

/-- Readers that go on in others after the same token, if the first one moves from there and the next token is the
same. -/
theorem stepOn {p₁ : Parser α} {q₁ : Parser β} {l₀ : Lexeme} (s₁ : Input) (hs : s.rest = l₀ :: s₁.rest)
    (hp : p s = p₁ s₁) (hmoved : leftOf (p₁ s₁) ≠ s₁.rest)
    (hq : ∀ s' l' rest', s'.rest = l' :: rest' → l'.token = l₀.token → nextOf rest' = nextOf s₁.rest →
      ∃ t', t'.rest = rest' ∧ q s' = q₁ t') (h : HeedsAt E s₁ p₁ q₁) : HeedsAt E s p q := by
  obtain ⟨u, hu, hrun⟩ := h
  rw [HeedsAt, hp]
  refine ⟨l₀ :: u, by rw [hs]; exact congrArg (l₀ :: ·) hu, fun s' x l hs' hx hl hhalts => ?_⟩
  obtain ⟨l', v, rfl, hl', hv⟩ := List.map_eq_cons_iff.mp hx
  have hnil : u ≠ [] := by
    rintro rfl
    exact hmoved hu.symm
  obtain ⟨t', ht', hqs⟩ := hq s' l' (v ++ [l]) hs' hl' (by rw [hu]; exact nextOf_append_of_map_eq hv hnil)
  rw [hqs] at hhalts ⊢
  obtain ⟨hmissed, hok⟩ := hrun t' v l ht' hv hl hhalts
  exact ⟨fun e he hle => absurd (hmissed e he hle).1 hnil, hok⟩

/-- Readers that go on in others after the same token. -/
theorem step {l₀ : Lexeme} (p₁ : Parser α) (q₁ : Parser β) (s₁ : Input) (hs : s.rest = l₀ :: s₁.rest)
    (htried : s₁.tried = []) (hp : p s = p₁ s₁)
    (hq : ∀ s' l' rest', s'.rest = l' :: rest' → l'.token = l₀.token → ∃ t', t'.rest = rest' ∧ q s' = q₁ t')
    (h : HeedsAt E s₁ p₁ q₁) : HeedsAt E s p q := by
  refine steps [l₀] s₁ hs htried hp (fun s' v rest' hs' hv => ?_) h
  obtain ⟨l', rfl, hl'⟩ := List.map_eq_singleton_iff.mp hv
  exact hq s' l' rest' hs' hl'

end HeedsAt

namespace Heeds

theorem mono {E₂ : α → β → Prop} (h : Heeds E p q) (hE : ∀ a b, E a b → E₂ a b) : Heeds E₂ p q where
  sees := h.sees.mono hE
  tidy := h.tidy
  heeds s := (h.heeds s).mono hE

/-! ## Sequences -/

/-- A reader and another one after it, if anything that is found may come of something. -/
theorem bindOf {f : α → Parser γ} {g : β → Parser δ} (hE : ∀ b, ∃ a, E a b) (hp : Heeds E p q)
    (hf : ∀ a b, E a b → Heeds E' (f a) (g b)) : Heeds E' (p >>= f) (q >>= g) := by
  have htidy : ∀ b, Tidy (g b) := fun b => (hE b).elim fun a hab => (hf a b hab).tidy
  exact {
    sees := .bind hp.sees fun a b hab => (hf a b hab).sees
    tidy := .bind hp.tidy htidy
    heeds s := .bind (hp.sees s) (hp.heeds s) htidy fun a s₁ _ b hab => (hf a b hab).heeds s₁ }

/-- A reader and another one after it that is the same for all values. -/
theorem bind [Nonempty α] {f : α → Parser γ} {g : β → Parser δ} (hp : Heeds Whatever p q)
    (hf : ∀ a b, Heeds E' (f a) (g b)) : Heeds E' (p >>= f) (q >>= g) :=
  bindOf (fun _ => ⟨Classical.arbitrary α, trivial⟩) hp fun a b _ => hf a b

/-- A reader that finds the same, and another one after it. -/
theorem andThen {q : Parser α} {f : α → Parser γ} {g : α → Parser δ} (hp : Heeds Eq p q)
    (hf : ∀ a, Heeds E' (f a) (g a)) : Heeds E' (p >>= f) (q >>= g) :=
  bindOf (fun b => ⟨b, rfl⟩) hp fun a _ h => h ▸ hf a

theorem pure {a : α} {b : β} (h : E a b) : Heeds E (Pure.pure a) (Pure.pure b) := ⟨.pure h, .pure b, fun _ => .pure h⟩

theorem nextSpan : Heeds Whatever Parser.nextSpan Parser.nextSpan where
  sees := .nextSpan
  tidy := .nextSpan
  heeds s := by
    refine .of_stays rfl fun s' l hs' _ _ => ⟨fun e he _ => he, ?_⟩
    rintro _ _ ⟨⟩
    exact ⟨_, s', rfl, hs', trivial⟩

theorem lastSpan : Heeds Whatever Parser.lastSpan Parser.lastSpan where
  sees := .lastSpan
  tidy := .lastSpan
  heeds s := by
    refine .of_stays rfl fun s' l hs' _ _ => ⟨fun e he _ => he, ?_⟩
    rintro _ _ ⟨⟩
    exact ⟨_, s', rfl, hs', trivial⟩

/-- A reader that stops and lists nothing. -/
theorem fail {f : Fault} (hf : f.items = []) (hq : Tidy q) : Heeds E (Parser.fail f) q :=
  ⟨.fail, hq, fun _ => .of_error _ rfl ⟨[], rfl⟩ hf⟩

theorem unexpected : Heeds E (Parser.unexpected : Parser α) (Parser.unexpected : Parser β) :=
  ⟨.unexpected, .unexpected, fun _ => .unexpected⟩

/-! ## Choices -/

/-- A choice by the next token.  At some tokens it is known what is done.  At the others some items are tried in
vain, of which those tokens are samples, and then the choice has been made. -/
theorem choice (S : Token → Prop) (es : List Expected) (k : Parser α) (k' : Parser β) (hsees : Sees False E p q)
    (htidy : Tidy q) (hk : Heeds E k k') (heof : ¬ S .eof)
    (hchosen : ∀ (s : Input) l rest, s.rest = l :: rest → S l.token → HeedsAt E s p q)
    (hsample : ∀ (s : Input) l, s.rest = [l] → l.token.IsSample → S l.token → leftOf (q s) = [])
    (hp : ∀ s, ¬ S (nextOf s.rest) → p s = k (s.trying es)) (hq : ∀ s, ¬ S (nextOf s.rest) → q s = k' (s.trying es))
    (hes : ∀ e ∈ es, S e.sample) : Heeds E p q where
  sees := hsees
  tidy := htidy
  heeds s := by
    by_cases hs : S (nextOf s.rest)
    · cases hr : s.rest with
      | nil => rw [hr] at hs; exact absurd hs heof
      | cons l rest => rw [hr] at hs; exact hchosen s l rest hr hs
    obtain ⟨u, hu, hrun⟩ := hk.heeds (s.trying es)
    rw [HeedsAt, hp s hs]
    refine ⟨u, hu, fun s' v l hs' hv hl hhalts => ?_⟩
    by_cases hnil : u = []
    · subst hnil
      obtain rfl : v = [] := by simpa using hv
      have hl' : ¬ S l.token := fun hS => hhalts.left (hsample s' l hs' hl hS)
      rw [hq s' (by rwa [hs'])] at hhalts ⊢
      obtain ⟨hmissed, hok⟩ := hrun (s'.trying es) [] l hs' hv hl hhalts
      refine ⟨fun e he hle => ⟨rfl, ?_⟩, hok⟩
      rcases List.mem_append.mp (hmissed e he hle).2 with he | he
      · exact absurd (hle ▸ hes e he) hl'
      · exact he
    · have hnext : nextOf s'.rest = nextOf s.rest := by
        rw [hs', show s.rest = u ++ _ from hu]
        exact nextOf_append_of_map_eq hv hnil
      rw [hq s' (hnext ▸ hs)] at hhalts ⊢
      obtain ⟨hmissed, hok⟩ := hrun (s'.trying es) v l hs' hv hl hhalts
      exact ⟨fun e he hle => absurd (hmissed e he hle).1 hnil, hok⟩

section
variable {x : Terminal}

/-- A reader that looks for a terminal. -/
theorem look {look : Parser Bool} (es : List Expected) (hsees : Sees False Eq look look) (htidy : Tidy look)
    (hhit : ∀ s l rest, s.rest = l :: rest → l.token.is x = true → look s = .ok (true, ⟨rest, [], l.span⟩))
    (hmiss : ∀ s : Input, (nextOf s.rest).is x = false → look s = .ok (false, s.trying es))
    (hes : ∀ e ∈ es, e = .terminal x) : Heeds Eq look look := by
  refine choice (fun t => t.is x = true) es (Pure.pure false) (Pure.pure false) hsees htidy (pure rfl)
    Bool.false_ne_true (fun s l rest hs hx => ?_) (fun s l hs _ hx => ?_) (fun s hx => hmiss s (by simpa using hx))
    (fun s hx => hmiss s (by simpa using hx)) (fun e he => hes e he ▸ ofTerminal_is x)
  · exact .step (Pure.pure true) (Pure.pure true) ⟨rest, [], l.span⟩ hs rfl (hhit s l rest hs hx)
      (fun s' l' rest' hs' hl' => ⟨⟨rest', [], l'.span⟩, rfl, hhit s' l' rest' hs' (hl' ▸ hx)⟩) (.pure rfl)
  · rw [hhit s l [] hs hx]
    rfl

theorem acceptQuietly : Heeds Eq (Parser.acceptQuietly x) (Parser.acceptQuietly x) :=
  look [] (.acceptQuietly x) (.acceptQuietly x) (fun _ _ _ => acceptQuietly_hit)
    (fun _ => acceptQuietly_miss) (List.forall_mem_nil _)

variable (hx : (Expected.terminal x).isOrdinary = true)
include hx

theorem accept : Heeds Eq (Parser.accept x) (Parser.accept x) :=
  look [.terminal x] (.accept x) (.accept hx) (fun _ _ _ => accept_hit) (fun _ => accept_miss)
    fun _ he => List.mem_singleton.mp he

theorem expect : Heeds Eq (Parser.expect x) (Parser.expect x) := by
  refine andThen (accept hx) fun b => ?_
  split
  · exact pure rfl
  · exact unexpected

theorem after [Nonempty α] (hp : Heeds Whatever p q) :
    Heeds (Option.Rel Whatever) (Parser.after x p) (Parser.after x q) := by
  refine andThen (accept hx) fun b => ?_
  split
  · exact bind hp fun _ _ => pure (.some trivial)
  · exact pure .none

omit hx in
theorem afterQuietly [Nonempty α] (hp : Heeds Whatever p q) :
    Heeds (Option.Rel Whatever) (Parser.afterQuietly x p) (Parser.afterQuietly x q) := by
  refine andThen acceptQuietly fun b => ?_
  split
  · exact bind hp fun _ _ => pure (.some trivial)
  · exact pure .none

end

/-! ## Repetition -/

section
variable {p : Parser (Option α)} {q : Parser (Option β)}

theorem many (hp : Heeds (Option.Rel Whatever) p q) (hm : MovesOnSome p) (hm' : MovesOnSome q) :
    Heeds Whatever (Parser.many p) (Parser.many q) := by
  have hsees : Sees False Whatever (Parser.many p) (Parser.many q) :=
    (Sees.many hp.sees hm).mono fun _ _ _ => trivial
  refine ⟨hsees, .many hp.tidy, fun s => ?_⟩
  -- by the number of lexemes that are left
  induction hn : s.rest.length using Nat.strong_induction_on generalizing s with
  | _ n ih =>
    rw [many_eq hm, many_eq hm']
    refine .bind (hp.sees s) (hp.heeds s) (fun o => ?_) fun o s₁ h o' hrel => ?_
    · cases o with
      | none => exact .pure _
      | some b => exact .bind (.many hp.tidy) fun _ => .pure _
    · cases hrel with
      | none => exact .pure trivial
      | some _ =>
        have hlt := hm s _ s₁ h
        exact .bind (hsees s₁) (ih _ (hn ▸ hlt) s₁ rfl) (fun _ => .pure _) fun _ _ _ _ _ => .pure trivial

end

theorem many_after [Nonempty α] {x : Terminal} (hx : (Expected.terminal x).isOrdinary = true)
    (hp : Heeds Whatever p q) : Heeds Whatever (Parser.many (Parser.after x p)) (Parser.many (Parser.after x q)) :=
  many (after hx hp) hp.sees.after_moves hp.tidy.after_moves

theorem many_afterQuietly [Nonempty α] {x : Terminal} (hp : Heeds Whatever p q) :
    Heeds Whatever (Parser.many (Parser.afterQuietly x p)) (Parser.many (Parser.afterQuietly x q)) :=
  many (afterQuietly hp) hp.sees.afterQuietly_moves hp.tidy.afterQuietly_moves

theorem commaList [Nonempty α] (hp : Heeds Whatever p q) :
    Heeds Whatever (Parser.commaList p) (Parser.commaList q) :=
  bind hp fun _ _ => bind (many_after rfl hp) fun _ _ => pure trivial

/-! ## Values -/

/-- A reader that takes the value of the next token, or else goes on without it. -/
theorem token {value : Token → Option (Except Fault γ)} {found : γ → α} {es : List Expected} {p k : Parser α}
    (hp : TakesOr value found es p k) (hsees : Sees False Eq p p) (htidy : Tidy p) (hk : Heeds Eq k k)
    (heof : value .eof = none) (hitems : ∀ t f, value t = some (.error f) → f.items = [])
    (hsample : ∀ t, t.IsSample → ∀ r, value t = some r → ∃ c, r = .ok c)
    (hes : ∀ e ∈ es, value e.sample ≠ none) : Heeds Eq p p := by
  refine choice (fun t => value t ≠ none) es k k hsees htidy hk (not_not.mpr heof)
    (fun s l rest hs hS => ?_) (fun s l hs hl hS => ?_) (fun s hS => hp.miss (not_not.mp hS))
    (fun s hS => hp.miss (not_not.mp hS)) hes
  · obtain ⟨r, hr⟩ := Option.ne_none_iff_exists'.mp hS
    cases r with
    | error f => exact .of_error _ (hp.refused (by rw [hs]; exact hr)) ⟨[], rfl⟩ (hitems _ f hr)
    | ok c =>
      exact .step (Pure.pure (found c)) (Pure.pure (found c)) ⟨rest, [], l.span⟩ hs rfl
        (hp.hit hs hr) (fun s' l' rest' hs' hl' => ⟨⟨rest', [], l'.span⟩, rfl, hp.hit hs' (hl' ▸ hr)⟩) (.pure rfl)
  · obtain ⟨r, hr⟩ := Option.ne_none_iff_exists'.mp hS
    obtain ⟨c, rfl⟩ := hsample _ hl r hr
    rw [hp.hit hs hr]
    rfl

end Heeds

end LedgerQuery
