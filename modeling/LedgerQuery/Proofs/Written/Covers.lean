import LedgerQuery.Proofs.Phrase.Place
import LedgerQuery.Proofs.Written.Scanned

/-!
# Runs that cover written forms

A run of lexemes that derives a tree has at least as many tokens as the written form of
the tree, parentheses not counted.  It may have more, as with a plus sign.  When it has
exactly the tokens of the written form, the two are put together in the same way.

`Covers` states this for a run and a written form together with what follows if they are the
same.  It is put together part by part (`Covers.append`), because parts are separated by tokens that are
no parentheses, and parentheses are balanced in each part.

* `Clause` is for parts that do not begin with a parenthesis.
* `Solid` is for parts that are not the written form without parentheses around it.
-/

namespace LedgerQuery

open Token

/-! ## Balance -/

/-- One for a left parenthesis, minus one for a right one. -/
def Token.tilt : Token → Int
  | .symbol .leftParen => 1
  | .symbol .rightParen => -1
  | _ => 0

theorem Token.tilt_eq_zero {t : Token} (h : t.isParen = false) : t.tilt = 0 := by
  cases t with
  | symbol s => cases s <;> first | rfl | cases h
  | _ => rfl

/-- How many more left parentheses there are than right ones. -/
def tilt (ts : List Token) : Int := (ts.map Token.tilt).sum

@[simp] theorem tilt_nil : tilt [] = 0 := rfl

@[simp] theorem tilt_cons (t : Token) (ts : List Token) : tilt (t :: ts) = t.tilt + tilt ts := by
  simp [tilt]

@[simp] theorem tilt_append (ts us : List Token) : tilt (ts ++ us) = tilt ts + tilt us := by
  simp [tilt]

theorem tilt_eq_zero {ts : List Token} (h : ∀ t ∈ ts, t.isParen = false) : tilt ts = 0 := by
  induction ts with
  | nil => rfl
  | cons t ts ih =>
    rw [List.forall_mem_cons] at h
    rw [tilt_cons, Token.tilt_eq_zero h.1, ih h.2, Int.zero_add]

@[simp] theorem weight_cons (t : Token) (ts : List Token) :
    weight (t :: ts) = (if t.isParen then 0 else 1) + weight ts := by
  rw [weight, weight, List.countP_cons, Nat.add_comm]
  cases t.isParen <;> rfl

theorem weight_eq_length {ts : List Token} (h : ∀ t ∈ ts, t.isParen = false) :
    weight ts = ts.length := by
  rw [weight, List.countP_eq_length]
  simpa using h

/-- Left parentheses. -/
def lefts (j : Nat) : List Token := List.replicate j (.symbol .leftParen)

/-- Right parentheses. -/
def rights (j : Nat) : List Token := List.replicate j (.symbol .rightParen)

@[simp] theorem weight_lefts (j : Nat) : weight (lefts j) = 0 := by
  simp [weight, lefts, List.countP_replicate, isParen]

@[simp] theorem weight_rights (j : Nat) : weight (rights j) = 0 := by
  simp [weight, rights, List.countP_replicate, isParen]

@[simp] theorem tilt_lefts (j : Nat) : tilt (lefts j) = j := by
  simp [tilt, lefts, Token.tilt]

@[simp] theorem tilt_rights (j : Nat) : tilt (rights j) = -j := by
  simp [tilt, rights, Token.tilt]

theorem lefts_succ (j : Nat) : lefts (j + 1) = .symbol .leftParen :: lefts j := rfl

theorem rights_succ (j : Nat) : rights (j + 1) = rights j ++ [.symbol .rightParen] := List.replicate_succ'

/-! ## Parts without a parenthesis in front -/

/-- Whether tokens do not begin with a parenthesis. -/
def Opens (ts : List Token) : Prop := ∀ t ∈ ts.head?, t.isParen = false

theorem Opens.nil : Opens [] := fun _ h => by simp at h

theorem Opens.cons {t : Token} {ts : List Token} (h : t.isParen = false) : Opens (t :: ts) :=
  fun u hu => by
    obtain rfl : t = u := by simpa using hu
    exact h

theorem Opens.append {ts us : List Token} (ht : Opens ts) (hu : Opens us) : Opens (ts ++ us) := by
  cases ts with
  | nil => exact hu
  | cons t ts => exact .cons (ht t rfl)

theorem Opens.append_right {ts us : List Token} (ht : Opens ts) (hne : ts ≠ []) : Opens (ts ++ us) := by
  obtain ⟨t, ts, rfl⟩ := List.exists_cons_of_ne_nil hne
  exact .cons (ht t rfl)

/-- What weighs nothing and begins with no parenthesis is nothing. -/
theorem Opens.eq_nil {ts us : List Token} (h : Opens (ts ++ us)) (hw : weight ts = 0) : ts = [] := by
  cases ts with
  | nil => rfl
  | cons t ts =>
    have ht : t.isParen = false := h t rfl
    simp [ht] at hw

/-- Where a list of tokens is cut is found from the weight in front of the cut, if no parenthesis follows
it. -/
theorem append_inj_of_weight {ts us vs ws : List Token} (h : ts ++ us = vs ++ ws)
    (hw : weight ts = weight vs) (hu : Opens us) (hv : Opens ws) : ts = vs ∧ us = ws := by
  rcases List.append_eq_append_iff.mp h with ⟨xs, rfl, rfl⟩ | ⟨xs, rfl, rfl⟩
  · rw [weight_append] at hw
    obtain rfl := hu.eq_nil (by omega)
    simp
  · rw [weight_append] at hw
    obtain rfl := hv.eq_nil (by omega)
    simp

/-! ## Covering -/

/-- Whether tokens weigh at least as much as tokens that were written, both are balanced, and something
holds if they are the same. -/
structure Covers (us ts : List Token) (R : Prop) : Prop where
  /-- There are no fewer tokens, parentheses not counted. -/
  weight_le : weight ts ≤ weight us
  /-- The tokens are balanced. -/
  tilt_left : tilt us = 0
  /-- The written tokens are balanced. -/
  tilt_right : tilt ts = 0
  /-- What holds if they are the same. -/
  exact : us = ts → R

/-- Covering by tokens that do not begin with a parenthesis. -/
structure Clause (us ts : List Token) (R : Prop) : Prop extends Covers us ts R where
  /-- The tokens do not begin with a parenthesis. -/
  opens_left : Opens us
  /-- The written tokens do not begin with a parenthesis. -/
  opens_right : Opens ts

/-- Covering by tokens that do not lack parentheses around them. -/
structure Solid (us ts : List Token) (R : Prop) : Prop extends Covers us ts R where
  /-- No parentheses around the tokens give the written ones. -/
  alone : ∀ j, lefts j ++ us ++ rights j = ts → j = 0

section
variable {us ts vs ws : List Token} {R S : Prop} {t t' : Token}

namespace Covers

theorem imp (h : Covers us ts R) (hRS : R → S) : Covers us ts S :=
  ⟨h.weight_le, h.tilt_left, h.tilt_right, fun he => hRS (h.exact he)⟩

theorem append (h : Covers us ts R) (hc : Clause vs ws S) : Covers (us ++ vs) (ts ++ ws) (R ∧ S) where
  weight_le := by
    rw [weight_append, weight_append]
    exact Nat.add_le_add h.weight_le hc.weight_le
  tilt_left := by simp [h.tilt_left, hc.tilt_left]
  tilt_right := by simp [h.tilt_right, hc.tilt_right]
  exact he := by
    have hw := congrArg weight he
    rw [weight_append, weight_append] at hw
    have hle := h.weight_le
    have hle' := hc.weight_le
    obtain ⟨hut, hvw⟩ := append_inj_of_weight he (by omega) hc.opens_left hc.opens_right
    exact ⟨h.exact hut, hc.exact hvw⟩

/-- Tokens in front that are no parentheses, as many as were written. -/
theorem prepend (h : Covers us ts R) (hlen : vs.length = ws.length)
    (hv : ∀ t ∈ vs, t.isParen = false) (hw : ∀ t ∈ ws, t.isParen = false) :
    Covers (vs ++ us) (ws ++ ts) R where
  weight_le := by
    rw [weight_append, weight_append, weight_eq_length hv, weight_eq_length hw, hlen]
    exact Nat.add_le_add_left h.weight_le _
  tilt_left := by simp [tilt_eq_zero hv, h.tilt_left]
  tilt_right := by simp [tilt_eq_zero hw, h.tilt_right]
  exact he := h.exact (List.append_inj he hlen).2

theorem cons (h : Covers us ts R) (ht : t.isParen = false) (ht' : t'.isParen = false) :
    Covers (t :: us) (t' :: ts) R :=
  @prepend us ts [t] [t'] R h rfl (by simpa using ht) (by simpa using ht')

theorem parenthesised (h : Covers us ts R) :
    Covers (.symbol .leftParen :: (us ++ [.symbol .rightParen]))
      (.symbol .leftParen :: (ts ++ [.symbol .rightParen])) R where
  weight_le := by simpa [isParen] using h.weight_le
  tilt_left := by simp [Token.tilt, h.tilt_left]
  tilt_right := by simp [Token.tilt, h.tilt_right]
  exact he := h.exact (List.append_cancel_right (List.cons.inj he).2)

end Covers

namespace Clause

theorem imp (h : Clause us ts R) (hRS : R → S) : Clause us ts S :=
  ⟨h.toCovers.imp hRS, h.opens_left, h.opens_right⟩

theorem nil : Clause [] [] True :=
  ⟨⟨Nat.le_refl _, rfl, rfl, fun _ => trivial⟩, .nil, .nil⟩

theorem cons (h : Covers us ts R) (ht : t.isParen = false) (ht' : t'.isParen = false) :
    Clause (t :: us) (t' :: ts) R :=
  ⟨h.cons ht ht', .cons ht, .cons ht'⟩

theorem token (ht : t.isParen = false) (ht' : t'.isParen = false) : Clause [t] [t'] True :=
  .cons nil.toCovers ht ht'

theorem append (h : Clause us ts R) (hc : Clause vs ws S) : Clause (us ++ vs) (ts ++ ws) (R ∧ S) :=
  ⟨h.toCovers.append hc, h.opens_left.append hc.opens_left, h.opens_right.append hc.opens_right⟩

end Clause

namespace Solid

theorem imp (h : Solid us ts R) (hRS : R → S) : Solid us ts S := ⟨h.toCovers.imp hRS, h.alone⟩

/-- Tokens with a part that does not begin with a parenthesis lack no parentheses around
them: there would be too many in front of that part. -/
theorem append (h : Covers us ts R) (hc : Clause vs ws S) (hne : vs ≠ []) :
    Solid (us ++ vs) (ts ++ ws) (R ∧ S) where
  toCovers := h.append hc
  alone j he := by
    have hw := congrArg weight he
    simp only [weight_append, weight_lefts, weight_rights] at hw
    have hle := h.weight_le
    have hle' := hc.weight_le
    have hcut : (lefts j ++ us) ++ (vs ++ rights j) = ts ++ ws := by simpa using he
    obtain ⟨hleft, -⟩ := append_inj_of_weight hcut (by simp; omega)
      (hc.opens_left.append_right hne) hc.opens_right
    have ht := congrArg tilt hleft
    simp only [tilt_append, tilt_lefts, h.tilt_left, h.tilt_right] at ht
    omega

/-- A part that does not begin with a parenthesis. -/
theorem of_clause (hc : Clause us ts R) (hne : us ≠ []) : Solid us ts R :=
  (append Clause.nil.toCovers hc hne).imp And.right

end Solid

end

end LedgerQuery
