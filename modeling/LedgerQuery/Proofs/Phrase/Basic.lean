import LedgerQuery.Parse
import Mathlib

/-!
# Phrases

A phrase is a set of runs of lexemes, each run with the value it stands for.
Phrases are built up as a grammar is written down: a phrase after another
(`bind`), a choice (`oneOf`), a part that may be missing (`optional`), a part
that is repeated (`Many`).  They say nothing about how a text is read.  There
is no looking ahead, no longest match and no order among alternatives, and one
run may stand for several values.
-/

namespace LedgerQuery

namespace Token

theorem is_keyword_iff {t : Token} {k : Keyword} :
    t.is (.keyword k) = true ↔ ∃ written, t = .keyword k written := by
  cases t <;> simp [is, terminal?]

theorem is_symbol_iff {t : Token} {s : Symbol} : t.is (.symbol s) = true ↔ t = .symbol s := by
  cases t <;> simp [is, terminal?]

end Token

/-- Runs of lexemes with the values they stand for. -/
def Phrase (α : Type) : Type := List Lexeme → α → Prop

namespace Phrase

variable {α β γ : Type}

/-- One phrase after another; the second may depend on the value of the first. -/
instance : Monad Phrase where
  pure a := fun u b => u = [] ∧ b = a
  bind L f := fun u b => ∃ v w a, u = v ++ w ∧ L v a ∧ f a w b

theorem seq {L : Phrase α} {f : α → Phrase β} {v w : List Lexeme} {a : α} {b : β} (hL : L v a)
    (hf : f a w b) : (L >>= f) (v ++ w) b := ⟨v, w, a, rfl, hL, hf⟩

theorem seq_pure {L : Phrase α} {f : α → β} {u : List Lexeme} {a : α} (hL : L u a) :
    (L >>= fun a => pure (f a)) u (f a) := ⟨u, [], a, (List.append_nil u).symm, hL, rfl, rfl⟩

/-- No run at all. -/
def none : Phrase α := fun _ _ => False

/-- One lexeme whose token stands for a value. -/
def token (value : Token → Option α) : Phrase α := fun u a => ∃ l, u = [l] ∧ value l.token = some a

/-- One lexeme that is a given terminal. -/
def terminal (x : Terminal) : Phrase Unit := fun u _ => ∃ l, u = [l] ∧ l.token.is x = true

theorem single {x : Terminal} {l : Lexeme} (h : l.token.is x = true) : terminal x [l] () :=
  ⟨l, rfl, h⟩

/-- A keyword. -/
abbrev keyword (k : Keyword) : Phrase Unit := terminal (.keyword k)

/-- A symbol. -/
abbrev symbol (s : Symbol) : Phrase Unit := terminal (.symbol s)

/-- A choice. -/
def oneOf (alternatives : List (Phrase α)) : Phrase α := fun u a => ∃ L ∈ alternatives, L u a

@[simp] theorem oneOf_nil {u : List Lexeme} {a : α} : oneOf [] u a ↔ False := by
  simp [oneOf]

@[simp] theorem oneOf_cons {L : Phrase α} {Ls : List (Phrase α)} {u : List Lexeme} {a : α} :
    oneOf (L :: Ls) u a ↔ L u a ∨ oneOf Ls u a := by
  simp [oneOf]

theorem oneOf_head {L : Phrase α} {Ls : List (Phrase α)} {u : List Lexeme} {a : α} (h : L u a) :
    oneOf (L :: Ls) u a := oneOf_cons.mpr (.inl h)

theorem oneOf_tail {L : Phrase α} {Ls : List (Phrase α)} {u : List Lexeme} {a : α}
    (h : oneOf Ls u a) : oneOf (L :: Ls) u a := oneOf_cons.mpr (.inr h)

/-- A phrase that may be missing. -/
def optional (L : Phrase α) : Phrase (Option α)
  | u, some a => L u a
  | u, .none => u = []

/-- A terminal that may be missing, and whether it is there. -/
def flag (x : Terminal) : Phrase Bool
  | u, true => terminal x u ()
  | u, false => u = []

theorem of_flag {x : Terminal} {u : List Lexeme} (h : flag x u true) : terminal x u () := h

/-- Any number of a phrase. -/
inductive Many (L : Phrase α) : List Lexeme → List α → Prop where
  /-- None. -/
  | nil : Many L [] []
  /-- One and any number more. -/
  | cons {u v a as} : L u a → Many L v as → Many L (u ++ v) (a :: as)

/-- What holds of the first token of an item holds of the first token of any number of them. -/
theorem Many.head {L : Phrase α} {P : Token → Prop} {u : List Lexeme} {as : List α}
    (h : Many L u as) (starts : ∀ v a, L v a → ∃ l w, v = l :: w ∧ P l.token) :
    ∀ m ∈ u.head?, P m.token := by
  intro m hm
  cases h with
  | nil => simp at hm
  | cons hv hw =>
    obtain ⟨l, w, rfl, hl⟩ := starts _ _ hv
    obtain rfl : l = m := by simpa using hm
    exact hl

/-- Any number of a phrase are any number of a wider one. -/
theorem Many.map {L : Phrase α} {M : Phrase β} (f : α → β) {u : List Lexeme} {as : List α}
    (h : Many L u as) (hLM : ∀ v a, L v a → M v (f a)) : Many M u (as.map f) := by
  induction h with
  | nil => exact .nil
  | cons hv _ ih => exact .cons (hLM _ _ hv) ih

/-- Any number of a phrase, as a phrase. -/
def many (L : Phrase α) : Phrase (List α) := Many L

/-- One or more of a phrase with commas between. -/
def commaList (L : Phrase α) : Phrase (List α) := do
  let first ← L
  let others ← many (do symbol .comma; L)
  return first :: others

/-- What holds of the first token of an item holds of the first token of a list of them. -/
theorem commaList_head {L : Phrase α} {P : List Lexeme → Prop} {u : List Lexeme} {as : List α}
    (h : commaList L u as) (starts : ∀ v w a, L v a → P (v ++ w)) : P u := by
  obtain ⟨v, w, a, rfl, hv, -⟩ := h
  exact starts v w a hv

/-- The runs of a phrase that have a property. -/
def such (L : Phrase α) (p : List Lexeme → Prop) : Phrase α := fun u a => L u a ∧ p u

/-- A phrase and the span from its first lexeme to its last. -/
def spanned (L : Phrase α) : Phrase (α × Span) := fun u a =>
  L u a.1 ∧ ∃ first ∈ u.head?, ∃ last ∈ u.getLast?, a.2 = first.span.merge last.span

end Phrase

end LedgerQuery
