import LedgerQuery.Proofs.Lexing.Spelling
import LedgerQuery.Proofs.Reading.Heeds

/-!
# What can still be completed

What a reader has read when it stops can be completed: some more tokens after it, and the reader gets through.
The choices that the reader made up to there have looked at tokens that these replace, so it has to be seen that
it makes them again.

`Completes E w F p q` says this of a reader `p` and of readers `q` that may go deeper.  A reader that has read
nothing is completed by `w` alone.  After what completes it, any token that satisfies `F` may follow, so readers
around it can be completed in their turn.  The readers `q` are a family, because a reader that follows another one
depends on what that one found, and the same tokens have to complete it in any case.  Each way that readers are
built has its rule.
-/

namespace LedgerQuery

open Token LedgerQuery.Parser

/-! ## Tokens that complete -/

namespace Token

/-- Whether a token can be written after any other one with a blank between, and is no `IN`, which would go on with
a `NOT`. -/
structure Plain (t : Token) : Prop where
  /-- It can be written. -/
  legal : t.Legal
  /-- It is not taken for an operator. -/
  notPlaceholder : t.isPlaceholder = false
  /-- It is no `IN`. -/
  notIn : t.is (.keyword .in) = false

theorem isWord_spelling (k : Keyword) : isWord k.spelling.toList = true := by
  cases k <;> decide

theorem plain_ofTerminal {x : Terminal} (hx : x ≠ .keyword .in) : (ofTerminal x).Plain where
  legal := by
    cases x with
    | keyword k => exact ⟨isWord_spelling k, Keyword.lookup?_spelling k⟩
    | symbol s => trivial
  notPlaceholder := by cases x <;> rfl
  notIn := by
    rw [← Bool.not_eq_true, ofTerminal_is_iff]
    exact hx

theorem IsSample.plain {t : Token} (h : t.IsSample) : t.Plain := by
  have hin := h.not_in
  obtain ⟨e, he, rfl⟩ := h
  cases e with
  | terminal x =>
    refine plain_ofTerminal ?_
    rintro rfl
    cases he
  | endOfInput => cases he
  | table => exact ⟨.inl rfl, rfl, rfl⟩
  | date =>
    exact ⟨⟨"2000".toList, "-01-01".toList, by decide, by decide, by decide, by decide, by decide⟩, rfl, rfl⟩
  | string => exact ⟨by simp [Expected.sample, Legal], rfl, rfl⟩
  | identifier | expression | integer | literal => exact ⟨⟨by decide, by decide⟩, rfl, rfl⟩

/-- A terminal that is tried can be written. -/
theorem plain_of_isOrdinary {x : Terminal} (hx : (Expected.terminal x).isOrdinary = true) : (ofTerminal x).Plain :=
  IsSample.plain ⟨_, hx, rfl⟩

theorem plain_one : Plain (.integer "1") := IsSample.plain ⟨.integer, rfl, rfl⟩

end Token

/-! ## Reading runs of tokens -/

variable {ι α β γ δ : Type}

/-- Whether a reader reads a run of tokens before any token that satisfies a condition. -/
def Takes (F : Token → Prop) (ts : List Token) (q : Parser β) : Prop :=
  ∀ s v rest, s.rest = v ++ rest → v.map Lexeme.token = ts → F (nextOf rest) →
    (nextOf rest).is (.keyword .in) = false → ∃ b t, q s = .ok (b, t) ∧ t.rest = rest

theorem nextOf_append_map (v rest : List Lexeme) :
    nextOf (v ++ rest) = (v.map Lexeme.token).headD (nextOf rest) := by
  cases v <;> rfl

/-- What follows some tokens that can be written is no `IN`, if nothing else follows these than what is no `IN`. -/
theorem next_not_in {v rest : List Lexeme} {ts : List Token} (hv : v.map Lexeme.token = ts) (hts : ∀ t ∈ ts, t.Plain)
    (hin : (nextOf rest).is (.keyword .in) = false) : (nextOf (v ++ rest)).is (.keyword .in) = false := by
  rw [nextOf_append_map, hv]
  cases ts with
  | nil => exact hin
  | cons t ts => exact (hts t (List.mem_cons_self ..)).notIn

namespace Takes

variable {F F' : Token → Prop} {ts us : List Token} {q : Parser β}

theorem mono (h : Takes F' ts q) (hF : ∀ t, F t → F' t) : Takes F ts q :=
  fun s v rest hs hv hr hin => h s v rest hs hv (hF _ hr) hin

theorem bind {g : β → Parser δ} (us : List Token) (hq : Takes F' ts q) (hg : ∀ b, Takes F us (g b))
    (hus : ∀ t ∈ us, t.Plain) (hF : ∀ t, F t → F' (us.headD t)) : Takes F (ts ++ us) (q >>= g) := by
  intro s x rest hs hx hr hin
  obtain ⟨v, v', rfl, hv, hv'⟩ := List.map_eq_append_iff.mp hx
  rw [List.append_assoc] at hs
  have hnext : nextOf (v' ++ rest) = us.headD (nextOf rest) := by rw [nextOf_append_map, hv']
  obtain ⟨b, t, hb, ht⟩ := hq s v (v' ++ rest) hs hv (hnext ▸ hF _ hr) (next_not_in hv' hus hin)
  obtain ⟨d, t', hd, ht'⟩ := hg b t v' rest ht hv' hr hin
  exact ⟨d, t', by rw [bind_of_ok hb, hd], ht'⟩

/-- A reader that finds something without reading. -/
theorem of_stays (h : ∀ s : Input, F (nextOf s.rest) → ∃ b t, q s = .ok (b, t) ∧ t.rest = s.rest) :
    Takes F [] q := by
  intro s v rest hs hv hr _
  obtain rfl : v = [] := by simpa using hv
  obtain ⟨b, t, hb, ht⟩ := h s (by rwa [hs])
  exact ⟨b, t, hb, ht.trans hs⟩

theorem pure (b : β) : Takes F [] (Pure.pure b) := of_stays fun s _ => ⟨b, s, rfl, rfl⟩

theorem of_reads (h : ∀ v : List Lexeme, v.map Lexeme.token = ts → ∃ b, Reads q v F b) : Takes F ts q := by
  intro s v rest hs hv hr _
  obtain ⟨b, hb⟩ := h v hv
  obtain ⟨_, tried, last⟩ := s
  obtain rfl := hs
  obtain ⟨tried', hq⟩ := hb rest tried last hr
  exact ⟨b, _, hq, rfl⟩

/-- A reader that goes on in another one after some tokens. -/
theorem steps {q₁ : Parser β} (us : List Token) (hq : ∀ s v rest, s.rest = v ++ rest → v.map Lexeme.token = us →
    ∃ s₁ : Input, s₁.rest = rest ∧ q s = q₁ s₁) (h : Takes F ts q₁) : Takes F (us ++ ts) q := by
  intro s x rest hs hx hr hin
  obtain ⟨v, v', rfl, hv, hv'⟩ := List.map_eq_append_iff.mp hx
  rw [List.append_assoc] at hs
  obtain ⟨s₁, hs₁, hqs⟩ := hq s v (v' ++ rest) hs hv
  rw [hqs]
  exact h s₁ v' rest hs₁ hv' hr hin

/-- A reader that goes on in another one after a token. -/
theorem step {t : Token} (q₁ : Parser β) (hq : ∀ s l rest, s.rest = l :: rest → l.token = t →
    ∃ s₁ : Input, s₁.rest = rest ∧ q s = q₁ s₁) (h : Takes F ts q₁) : Takes F (t :: ts) q := by
  refine steps [t] (fun s v rest hs hv => ?_) h
  obtain ⟨l, rfl, hl⟩ := List.map_eq_singleton_iff.mp hv
  exact hq s l rest hs hl

/-- A reader that goes on in another one before some first token. -/
theorem skip (q₁ : Parser β) (hq : ∀ s : Input, (∃ t, F t ∧ nextOf s.rest = ts.headD t) →
    ∃ s₁ : Input, s₁.rest = s.rest ∧ q s = q₁ s₁) (h : Takes F ts q₁) : Takes F ts q := by
  intro s v rest hs hv hr hin
  obtain ⟨s₁, hs₁, hqs⟩ := hq s ⟨_, hr, by rw [hs, nextOf_append_map, hv]⟩
  rw [hqs]
  exact h s₁ v rest (hs₁.trans hs) hv hr hin

end Takes

/-! ## Completing what was read -/

/-- Whether what a reader has got through, if it is not empty, can be completed for other readers. -/
def CompletesAt (F : Token → Prop) (s : Input) (p : Parser α) (q : ι → Parser β) : Prop :=
  ∃ u, s.rest = u ++ leftOf (p s) ∧ (u ≠ [] → ∃ w, (∀ t ∈ w, t.Plain) ∧
    ∀ i, Takes F (u.map Lexeme.token ++ w) (q i))

namespace CompletesAt

variable {E : α → β → Prop} {F F' : Token → Prop} {s : Input} {p p₁ : Parser α} {q q₁ : ι → Parser β}

theorem mono (h : CompletesAt F' s p q) (hF : ∀ t, F t → F' t) : CompletesAt F s p q := by
  obtain ⟨u, hu, hw⟩ := h
  refine ⟨u, hu, fun hne => ?_⟩
  obtain ⟨w, hplain, htakes⟩ := hw hne
  exact ⟨w, hplain, fun i => (htakes i).mono hF⟩

theorem reindex {κ : Type} (h : CompletesAt F s p q) (k : κ → ι) : CompletesAt F s p fun i => q (k i) := by
  obtain ⟨u, hu, hrun⟩ := h
  refine ⟨u, hu, fun hne => ?_⟩
  obtain ⟨w, hplain, hw⟩ := hrun hne
  exact ⟨w, hplain, fun i => hw (k i)⟩

/-- A reader that has not moved. -/
theorem of_stays (hs : leftOf (p s) = s.rest) : CompletesAt F s p q := ⟨[], hs.symm, fun h => absurd rfl h⟩

/-- A reader and another one after it.  If the second one has not moved, the first one is completed, and then the
second one starts from nothing. -/
theorem bind {f : α → Parser γ} {g : ι → β → Parser δ} (w : List Token) (hsees : ∀ i, SeesAt False E s p (q i))
    (hp : CompletesAt F' s p q)
    (hf : ∀ a s₁, p s = .ok (a, s₁) → CompletesAt F s₁ (f a) fun x : ι × {b // E a b} => g x.1 x.2)
    (hplain : ∀ t ∈ w, t.Plain) (hw : ∀ i b, Takes F w (g i b)) (hF : ∀ t, F t → F' (w.headD t)) :
    CompletesAt F s (p >>= f) fun i => q i >>= g i := by
  obtain ⟨u, hu, hrun⟩ := hp
  have first : u ≠ [] → ∃ w, (∀ t ∈ w, t.Plain) ∧ ∀ i, Takes F (u.map Lexeme.token ++ w) (q i >>= g i) := by
    intro hne
    obtain ⟨w', hplain', hw'⟩ := hrun hne
    refine ⟨w' ++ w, fun t ht => (List.mem_append.mp ht).elim (hplain' t) (hplain t), fun i => ?_⟩
    rw [← List.append_assoc]
    exact (hw' i).bind w (hw i) hplain hF
  cases h : p s with
  | error stop =>
    rw [h] at hu
    exact ⟨u, by rw [bind_of_error h]; exact hu, first⟩
  | ok x =>
    obtain ⟨a, s₁⟩ := x
    rw [h] at hu
    obtain ⟨v, hv, hrun'⟩ := hf a s₁ h
    rw [CompletesAt, bind_of_ok h]
    refine ⟨u ++ v, by rw [hu, List.append_assoc, ← hv]; rfl, fun hne => ?_⟩
    by_cases hnil : v = []
    · subst hnil
      rw [List.append_nil] at hne ⊢
      exact first hne
    · obtain ⟨w', hplain', hw'⟩ := hrun' hnil
      refine ⟨w', hplain', fun i s' x rest hs' hx hr hin => ?_⟩
      rw [List.map_append, List.append_assoc] at hx
      obtain ⟨u', x', rfl, hu', hx'⟩ := List.map_eq_append_iff.mp hx
      obtain ⟨v', y, rfl, hv', hy⟩ := List.map_eq_append_iff.mp hx'
      rw [List.append_assoc, List.append_assoc] at hs'
      have hres : Resumes False s₁.rest (v' ++ (y ++ rest)) := by
        rw [hv]
        exact .of_ne_nil hv' hnil (next_not_in hy hplain' hin)
      obtain ⟨b, t₁, hq, ht₁, hab⟩ := (hsees i a s₁ h).2 s' _ ⟨u, u', hu, hs', hu'⟩ hres
      rw [bind_of_ok hq]
      exact hw' ⟨i, b, hab⟩ t₁ (v' ++ y) rest (by rw [ht₁, List.append_assoc])
        (by rw [List.map_append, hv', hy]) hr hin

/-- A reader that goes on in another one after some tokens. -/
theorem steps {w : List Token} (u₀ : List Lexeme) (s₁ : Input) (hs : s.rest = u₀ ++ s₁.rest) (hp : p s = p₁ s₁)
    (hq : ∀ i s' v rest', s'.rest = v ++ rest' → v.map Lexeme.token = u₀.map Lexeme.token →
      ∃ t' : Input, t'.rest = rest' ∧ q i s' = q₁ i t')
    (h : CompletesAt F s₁ p₁ q₁) (hplain : ∀ t ∈ w, t.Plain) (hw : ∀ i, Takes F w (q₁ i)) :
    CompletesAt F s p q := by
  obtain ⟨u, hu, hrun⟩ := h
  rw [CompletesAt, hp]
  refine ⟨u₀ ++ u, by rw [hs, hu, List.append_assoc], fun _ => ?_⟩
  obtain ⟨w', hplain', hw'⟩ : ∃ w', (∀ t ∈ w', t.Plain) ∧ ∀ i, Takes F (u.map Lexeme.token ++ w') (q₁ i) := by
    by_cases hnil : u = []
    · subst hnil
      exact ⟨w, hplain, hw⟩
    · exact hrun hnil
  refine ⟨w', hplain', fun i => ?_⟩
  rw [List.map_append, List.append_assoc]
  exact (hw' i).steps _ (hq i)

/-- A reader that goes on in another one after a token. -/
theorem step {l₀ : Lexeme} {w : List Token} (p₁ : Parser α) (q₁ : ι → Parser β) (s₁ : Input)
    (hs : s.rest = l₀ :: s₁.rest) (hp : p s = p₁ s₁)
    (hq : ∀ i s' l' rest', s'.rest = l' :: rest' → l'.token = l₀.token →
      ∃ t' : Input, t'.rest = rest' ∧ q i s' = q₁ i t')
    (h : CompletesAt F s₁ p₁ q₁) (hplain : ∀ t ∈ w, t.Plain) (hw : ∀ i, Takes F w (q₁ i)) :
    CompletesAt F s p q := by
  refine steps [l₀] s₁ hs hp (fun i s' v rest' hs' hv => ?_) h hplain hw
  obtain ⟨l', rfl, hl'⟩ := List.map_eq_singleton_iff.mp hv
  exact hq i s' l' rest' hs' hl'

/-- A reader that reads a token. -/
theorem token {l₀ : Lexeme} {s₁ : Input} {a : α} {b : ι → β} (hs : s.rest = l₀ :: s₁.rest) (hp : p s = .ok (a, s₁))
    (hq : ∀ i s' l' rest', s'.rest = l' :: rest' → l'.token = l₀.token →
      ∃ t' : Input, t'.rest = rest' ∧ q i s' = .ok (b i, t')) : CompletesAt F s p q :=
  step (Pure.pure a) (fun i => Pure.pure (b i)) s₁ hs hp hq (of_stays rfl) (List.forall_mem_nil _)
    fun i => .pure (b i)

/-- A reader that goes on in another one without reading, and others that do so before the same token. -/
theorem skip (p₁ : Parser α) (q₁ : ι → Parser β) (s₁ : Input) (hs : s₁.rest = s.rest) (hp : p s = p₁ s₁)
    (hq : ∀ i (s' : Input), nextOf s'.rest = nextOf s.rest → ∃ t' : Input, t'.rest = s'.rest ∧ q i s' = q₁ i t')
    (h : CompletesAt F s₁ p₁ q₁) : CompletesAt F s p q := by
  obtain ⟨u, hu, hrun⟩ := h
  rw [CompletesAt, hp]
  refine ⟨u, hs ▸ hu, fun hne => ?_⟩
  obtain ⟨w, hplain, hw⟩ := hrun hne
  refine ⟨w, hplain, fun i s' x rest hs' hx hr hin => ?_⟩
  obtain ⟨t', ht', hqs⟩ := hq i s' (by
    rw [hs', ← hs, hu, nextOf_append_map, hx, nextOf_append_map]
    cases u with
    | nil => exact absurd rfl hne
    | cons l u => rfl)
  rw [hqs]
  exact hw i t' x rest (ht'.trans hs') hx hr hin

end CompletesAt

/-! ## Readers that can be completed -/

/-- Whether what a reader reads can be completed for readers that may go deeper. -/
structure Completes (E : α → β → Prop) (w : List Token) (F : Token → Prop) (p : Parser α)
    (q : ι → Parser β) : Prop where
  /-- These find the like before any text that resumes alike. -/
  sees : ∀ i, Sees False E p (q i)
  /-- What was read, if anything, can be completed. -/
  completes : ∀ s, CompletesAt F s p q
  /-- The tokens that complete nothing can be written. -/
  plain : ∀ t ∈ w, t.Plain
  /-- They are read. -/
  takes : ∀ i, Takes F w (q i)

namespace Completes

variable {E : α → β → Prop} {D : γ → δ → Prop} {F F' : Token → Prop} {w w' w₁ : List Token} {p : Parser α}
  {q : ι → Parser β}

theorem mono {E₂ : α → β → Prop} (h : Completes E w F' p q) (hE : ∀ a b, E a b → E₂ a b) (hF : ∀ t, F t → F' t) :
    Completes E₂ w F p q where
  sees i := (h.sees i).mono hE
  completes s := (h.completes s).mono hF
  plain := h.plain
  takes i := (h.takes i).mono hF

/-- Fewer tokens may follow. -/
theorem before (h : Completes E w F' p q) (hF : ∀ t, F t → F' t) : Completes E w F p q := h.mono (fun _ _ => id) hF

/-- What is found makes no difference. -/
theorem whatever (h : Completes E w F p q) : Completes Whatever w F p q := h.mono (fun _ _ _ => trivial) fun _ => id

theorem reindex {κ : Type} (h : Completes E w F p q) (k : κ → ι) : Completes E w F p fun i => q (k i) where
  sees i := h.sees (k i)
  completes s := (h.completes s).reindex k
  plain := h.plain
  takes i := h.takes (k i)

/-! ## Sequences -/

theorem pure {a : α} {b : ι → β} (h : ∀ i, E a (b i)) : Completes E [] F (Pure.pure a) fun i => Pure.pure (b i) where
  sees i := .pure (h i)
  completes _ := .of_stays rfl
  plain := List.forall_mem_nil _
  takes i := .pure (b i)

/-- Readers and another one after them, which does the like for all values. -/
theorem bindEach [Nonempty α] {f : α → Parser γ} {g : ι → β → Parser δ} (w : List Token) (hp : Completes E w' F' p q)
    (hf : ∀ a, Completes D w F (f a) fun x : ι × β => g x.1 x.2) (hF : ∀ t, F t → F' (w.headD t)) :
    Completes D (w' ++ w) F (p >>= f) fun i => q i >>= g i := by
  have hg := hf (Classical.arbitrary α)
  exact {
    sees i := .bind (hp.sees i) fun a b _ => (hf a).sees (i, b)
    completes s := .bind w (fun i => hp.sees i s) (hp.completes s)
      (fun a s₁ _ => ((hf a).completes s₁).reindex fun x : ι × {b // E a b} => (x.1, x.2.1))
      hg.plain (fun i b => hg.takes (i, b)) hF
    plain t ht := (List.mem_append.mp ht).elim (hp.plain t) (hg.plain t)
    takes i := (hp.takes i).bind w (fun b => hg.takes (i, b)) hg.plain hF }

/-- A reader and another one after it, which does the like for all values. -/
theorem bind [Nonempty α] {f : α → Parser γ} {q : Parser β} {g : ι → β → Parser δ}
    (w' : List Token) (F' : Token → Prop) (hp : Completes E w' F' p fun _ : Unit => q)
    (hf : ∀ a, Completes D w F (f a) fun x : ι × β => g x.1 x.2)
    (hF : ∀ t, F t → F' (w.headD t)) : Completes D (w' ++ w) F (p >>= f) fun i => q >>= g i :=
  bindEach _ (hp.reindex fun _ => ()) hf hF

/-- A reader that is completed by nothing, and another one after it. -/
theorem optionally [Nonempty α] {f : α → Parser γ} {q : Parser β} {g : ι → β → Parser δ}
    (F' : Token → Prop) (hp : Completes E [] F' p fun _ : Unit => q)
    (hf : ∀ a, Completes D w F (f a) fun x : ι × β => g x.1 x.2)
    (hF : ∀ t, F t → F' (w.headD t)) : Completes D w F (p >>= f) fun i => q >>= g i := bind [] F' hp hf hF

/-- Readers and after them another one that is completed by nothing. -/
theorem andMoreEach [Nonempty α] {f : α → Parser γ} {g : ι → β → Parser δ} (hp : Completes E w F' p q)
    (hf : ∀ a, Completes D [] F (f a) fun x : ι × β => g x.1 x.2) (hF : ∀ t, F t → F' t) :
    Completes D w F (p >>= f) fun i => q i >>= g i := by
  have h := bindEach [] hp hf hF
  rwa [List.append_nil] at h

/-- A reader and after it another one that is completed by nothing. -/
theorem andMore [Nonempty α] {f : α → Parser γ} {q : Parser β} {g : ι → β → Parser δ}
    (hp : Completes E w F' p fun _ : Unit => q) (hf : ∀ a, Completes D [] F (f a) fun x : ι × β => g x.1 x.2)
    (hF : ∀ t, F t → F' t) : Completes D w F (p >>= f) fun i => q >>= g i :=
  andMoreEach (hp.reindex fun _ => ()) hf hF

theorem map [Nonempty α] {f : α → γ} {g : ι → β → δ} {q : Parser β} (hp : Completes E w F p fun _ : Unit => q)
    (h : ∀ i a b, D (f a) (g i b)) : Completes D w F (p >>= fun a => Pure.pure (f a))
      fun i => q >>= fun b => Pure.pure (g i b) :=
  andMore hp (fun a => pure fun x => h x.1 a x.2) fun _ => id

theorem nextSpan : Completes Whatever [] F Parser.nextSpan fun _ : Unit => Parser.nextSpan where
  sees _ := .nextSpan
  completes _ := .of_stays rfl
  plain := List.forall_mem_nil _
  takes _ := .of_stays fun s _ => ⟨_, s, rfl, rfl⟩

theorem lastSpan : Completes Whatever [] F Parser.lastSpan fun _ : Unit => Parser.lastSpan where
  sees _ := .lastSpan
  completes _ := .of_stays rfl
  plain := List.forall_mem_nil _
  takes _ := .of_stays fun s _ => ⟨_, s, rfl, rfl⟩

/-! ## Terminals -/

section
variable {x : Terminal}

/-- A choice by whether a terminal is next. -/
theorem branch {look : Parser Bool} {f : Bool → Parser α} {g : ι → Bool → Parser β} (hsees : Sees False Eq look look)
    (hhit : ∀ s l rest, s.rest = l :: rest → l.token.is x = true → look s = .ok (true, ⟨rest, [], l.span⟩))
    (hmiss : ∀ s : Input, (nextOf s.rest).is x = false → ∃ t : Input, t.rest = s.rest ∧ look s = .ok (false, t))
    (htrue : Completes E w₁ F (f true) fun i => g i true) (hfalse : Completes E w F (f false) fun i => g i false)
    (hF : ∀ t, F t → (w.headD t).is x = false) : Completes E w F (look >>= f) fun i => look >>= g i where
  sees i := .andThen hsees fun b => by cases b; exacts [hfalse.sees i, htrue.sees i]
  completes s := by
    cases hx : (nextOf s.rest).is x with
    | true =>
      obtain ⟨l, rest, hs, hx⟩ := exists_cons_of_is hx
      exact .step (f true) (fun i => g i true) ⟨rest, [], l.span⟩ hs
        (bind_of_ok (hhit s l rest hs hx)) (fun i s' l' rest' hs' hl' => ⟨⟨rest', [], l'.span⟩, rfl,
          bind_of_ok (hhit s' l' rest' hs' (hl' ▸ hx))⟩) (htrue.completes _) htrue.plain htrue.takes
    | false =>
      obtain ⟨t, ht, hlook⟩ := hmiss s hx
      refine .skip (f false) (fun i => g i false) t ht (bind_of_ok hlook) (fun i s' hs' => ?_)
        (hfalse.completes t)
      obtain ⟨t', ht', hlook'⟩ := hmiss s' (hs' ▸ hx)
      exact ⟨t', ht', bind_of_ok hlook'⟩
  plain := hfalse.plain
  takes i := by
    refine .skip (g i false) (fun s ⟨t, hF', hs⟩ => ?_) (hfalse.takes i)
    obtain ⟨t', ht', hlook⟩ := hmiss s (hs ▸ hF t hF')
    exact ⟨t', ht', bind_of_ok hlook⟩

theorem acceptElse {A B : Parser α} {A' B' : ι → Parser β} (hA : Completes E w₁ F A A') (hB : Completes E w F B B')
    (hF : ∀ t, F t → (w.headD t).is x = false) :
    Completes E w F (Parser.accept x >>= fun b => if b = true then A else B)
      fun i => Parser.accept x >>= fun b => if b = true then A' i else B' i :=
  branch (.accept x) (fun _ _ _ => accept_hit) (fun s h => ⟨s.trying [.terminal x], rfl, accept_miss h⟩) hA hB hF

theorem acceptQuietlyElse {A B : Parser α} {A' B' : ι → Parser β} (hA : Completes E w₁ F A A')
    (hB : Completes E w F B B') (hF : ∀ t, F t → (w.headD t).is x = false) :
    Completes E w F (Parser.acceptQuietly x >>= fun b => if b = true then A else B)
      fun i => Parser.acceptQuietly x >>= fun b => if b = true then A' i else B' i :=
  branch (.acceptQuietly x) (fun _ _ _ => acceptQuietly_hit) (fun s h => ⟨s, rfl, acceptQuietly_miss h⟩) hA hB hF

theorem accept : Completes Whatever [] (fun t => t.is x = false) (Parser.accept x) fun _ : Unit => Parser.accept x where
  sees _ := (Sees.accept x).mono fun _ _ _ => trivial
  completes s := by
    cases hx : (nextOf s.rest).is x with
    | true =>
      obtain ⟨l, rest, hs, hx⟩ := exists_cons_of_is hx
      exact .token hs (accept_hit hs hx) fun _ _ _ _ hs' hl' => ⟨_, rfl, accept_hit hs' (hl' ▸ hx)⟩
    | false => exact .of_stays (by rw [accept_miss hx]; rfl)
  plain := List.forall_mem_nil _
  takes _ := .of_stays fun _ hx => ⟨_, _, accept_miss hx, rfl⟩

theorem expect (hx : (Expected.terminal x).isOrdinary = true) :
    Completes Whatever [.ofTerminal x] F (Parser.expect x) fun _ : Unit => Parser.expect x where
  sees _ := (Sees.expect x).mono fun _ _ _ => trivial
  completes s := by
    cases hn : (nextOf s.rest).is x with
    | true =>
      obtain ⟨l, rest, hs, hn⟩ := exists_cons_of_is hn
      exact .token hs (expect_hit hs hn) fun _ _ _ _ hs' hl' => ⟨_, rfl, expect_hit hs' (hl' ▸ hn)⟩
    | false =>
      refine .of_stays ?_
      show leftOf ((Parser.accept x >>= fun b => if b = true then Pure.pure () else Parser.unexpected) s) = _
      rw [bind_of_ok (accept_miss hn)]
      rfl
  plain t ht := by
    obtain rfl := List.mem_singleton.mp ht
    exact plain_of_isOrdinary hx
  takes _ := by
    refine .step (Pure.pure ()) (fun s l rest hs hl => ⟨⟨rest, [], l.span⟩, rfl, ?_⟩) (.pure ())
    exact expect_hit hs (hl ▸ ofTerminal_is x)

/-- A terminal that has to be next, and what follows it. -/
theorem expecting {f : Unit → Parser α} {g : ι → Unit → Parser β} (hx : (Expected.terminal x).isOrdinary = true)
    (hf : Completes E w F (f ()) fun i => g i ()) :
    Completes E (.ofTerminal x :: w) F (Parser.expect x >>= f) fun i => Parser.expect x >>= g i :=
  bind [.ofTerminal x] (fun _ => True) (expect hx) (fun _ => hf.reindex Prod.fst) fun _ _ => trivial

theorem after [Nonempty α] {q : Parser β} (hp : Completes E w F p fun _ : Unit => q) :
    Completes (Option.Rel Whatever) [] (fun t => t.is x = false ∧ F t) (Parser.after x p)
      fun _ : Unit => Parser.after x q :=
  acceptElse ((map hp fun _ _ _ => .some trivial).before fun _ ht => ht.2) (pure fun _ => .none) fun _ ht => ht.1

theorem afterQuietly [Nonempty α] {q : Parser β} (hp : Completes E w F p fun _ : Unit => q) :
    Completes (Option.Rel Whatever) [] (fun t => t.is x = false ∧ F t) (Parser.afterQuietly x p)
      fun _ : Unit => Parser.afterQuietly x q :=
  acceptQuietlyElse ((map hp fun _ _ _ => .some trivial).before fun _ ht => ht.2) (pure fun _ => .none)
    fun _ ht => ht.1

end

/-! ## Repetition -/

section
variable {p : Parser (Option α)} {q : Parser (Option β)}

theorem many (hp : Completes (Option.Rel Whatever) w F' p fun _ : Unit => q) (hm : MovesOnSome p)
    (hm' : MovesOnSome q) (hF : ∀ t, F t → F' t)
    (hnone : ∀ s : Input, F (nextOf s.rest) → ∃ t, q s = .ok (none, t) ∧ t.rest = s.rest) :
    Completes Whatever [] F (Parser.many p) fun _ : Unit => Parser.many q := by
  have hsees : Sees False Whatever (Parser.many p) (Parser.many q) :=
    (Sees.many (hp.sees ()) hm).mono fun _ _ _ => trivial
  have htakes : Takes F [] (Parser.many q) := .of_stays fun s hs => by
    obtain ⟨t, hq, ht⟩ := hnone s hs
    rw [many_eq hm', bind_of_ok hq]
    exact ⟨[], t, rfl, ht⟩
  refine ⟨fun _ => hsees, fun s => ?_, List.forall_mem_nil _, fun _ => htakes⟩
  -- by the number of lexemes that are left
  induction hn : s.rest.length using Nat.strong_induction_on generalizing s with
  | _ n ih =>
    rw [many_eq hm]
    conv in Parser.many q => rw [many_eq hm']
    refine .bind [] (fun _ => hp.sees () s) (hp.completes s) (fun o s₁ h => ?_) (List.forall_mem_nil _)
      (fun _ o => ?_) hF
    · cases o with
      | none => exact .of_stays rfl
      | some a =>
        have hlt := hm s a s₁ h
        have hmore : CompletesAt F s₁ (Parser.many p >>= fun as => Pure.pure (a :: as))
            fun b => Parser.many q >>= fun bs => Pure.pure (b :: bs) :=
          .bind [] (fun _ => hsees s₁) ((ih _ (hn ▸ hlt) s₁ rfl).reindex fun _ => ()) (fun _ _ _ => .of_stays rfl)
            (List.forall_mem_nil _) (fun _ _ => .pure _) fun _ => id
        obtain ⟨u, hu, hrun⟩ := hmore
        refine ⟨u, hu, fun hne => ?_⟩
        obtain ⟨w, hplain, hw⟩ := hrun hne
        refine ⟨w, hplain, fun ⟨_, o, ho⟩ => ?_⟩
        cases ho with
        | some _ => exact hw _
    · cases o with
      | none => exact .pure _
      | some b => exact htakes.bind [] (fun _ => .pure _) (List.forall_mem_nil _) fun _ => id

end

section
variable [Nonempty α] {q : Parser β}

/-- A loop of readers after a terminal. -/
theorem many_after {x : Terminal} (hp : Completes E w F' p fun _ : Unit => q) (hq : Tidy q)
    (hF : ∀ t, F t → t.is x = false ∧ F' t) : Completes Whatever [] F (Parser.many (Parser.after x p))
      fun _ : Unit => Parser.many (Parser.after x q) :=
  many (after hp) (hp.sees ()).after_moves hq.after_moves hF fun _ hs => ⟨_, bind_of_ok (accept_miss (hF _ hs).1), rfl⟩

/-- A loop of readers after a terminal whose misses are not counted. -/
theorem many_afterQuietly {x : Terminal} (hp : Completes E w F' p fun _ : Unit => q) (hq : Tidy q)
    (hF : ∀ t, F t → t.is x = false ∧ F' t) : Completes Whatever [] F (Parser.many (Parser.afterQuietly x p))
      fun _ : Unit => Parser.many (Parser.afterQuietly x q) :=
  many (afterQuietly hp) (hp.sees ()).afterQuietly_moves hq.afterQuietly_moves hF fun s hs =>
    ⟨s, bind_of_ok (acceptQuietly_miss (hF _ hs).1), rfl⟩

theorem commaList (hp : Completes E w F' p fun _ : Unit => q) (hq : Tidy q)
    (hF : ∀ t, F t → t.is (.symbol .comma) = false ∧ F' t) :
    Completes Whatever w F (Parser.commaList p) fun _ : Unit => Parser.commaList q :=
  andMore hp (fun _ => map (many_after hp hq hF) fun _ _ _ => trivial) fun t ht => (hF t ht).2

end

end Completes

end LedgerQuery
