import LedgerQuery.Proofs.Phrase.Basic

/-!
# Which tokens end what

A reader of operands or clauses takes what belongs to it and stops at the first
token that does not.  The tokens that can follow an operand are ranked by how
much they end.  A reader of some rank goes on at tokens up to its own rank and
stops at all tokens of a higher one.

* Ranks one to seven are those of expressions: the parenthesis of a call, the
  marks of suffixes, multiplicative, additive and comparing operators, `AND`,
  and `OR`.
* Eight is for what follows an expression as part of the same item, and nine
  for the comma between items.
* The other ranks are those of the clauses, in their order, and the highest is
  that of a right parenthesis and of the end.

A token that never follows an operand has rank zero, so no reader has to stop
at it.
-/

namespace LedgerQuery

/-- How much a symbol ends. -/
def Symbol.rank : Symbol → Nat
  | .leftParen => 1
  | .dot | .leftBracket => 2
  | .star | .slash | .percent => 3
  | .plus | .minus => 4
  | .equal | .notEqual | .less | .lessEqual | .greater | .greaterEqual | .tilde | .notTilde => 5
  | .comma => 9
  | .rightParen | .rightBracket => 21

/-- How much a keyword ends. -/
def Keyword.rank : Keyword → Nat
  | .in | .not | .is | .between => 5
  | .and => 6
  | .or => 7
  | .as | .asc | .desc => 8
  | .at => 10
  | .from => 11
  | .open => 12
  | .close | .on => 13
  | .clear => 14
  | .where => 15
  | .group => 16
  | .having => 17
  | .order => 18
  | .pivot => 19
  | .limit => 20
  | _ => 0

/-- How much a terminal ends. -/
def Terminal.rank : Terminal → Nat
  | .keyword k => k.rank
  | .symbol s => s.rank

namespace Token

/-- How much a token ends. -/
def rank : Token → Nat
  | symbol s => s.rank
  | keyword k _ => k.rank
  | eof => 21
  | _ => 0

/-- Whether a reader of a rank stops at a token. -/
def Stops (rank : Nat) (t : Token) : Prop := rank < t.rank

instance (rank : Nat) (t : Token) : Decidable (Stops rank t) := inferInstanceAs (Decidable (_ < _))

/-- The token at the front of a run, or else the token that follows the run. -/
def firstOf (following : Token) : List Lexeme → Token
  | [] => following
  | l :: _ => l.token

@[simp] theorem firstOf_nil (t : Token) : firstOf t [] = t := rfl

@[simp] theorem firstOf_cons (t : Token) (l : Lexeme) (u : List Lexeme) :
    firstOf t (l :: u) = l.token := rfl

@[simp] theorem firstOf_append (t : Token) (u v : List Lexeme) :
    firstOf t (u ++ v) = firstOf (firstOf t v) u := by
  cases u with
  | nil => rfl
  | cons l u => rfl

theorem Stops.mono {p q : Nat} {t : Token} (h : Stops q t) (hpq : p ≤ q) : Stops p t :=
  Nat.lt_of_le_of_lt hpq h

theorem rank_of_is {t : Token} {x : Terminal} (h : t.is x = true) : t.rank = x.rank := by
  cases x with
  | keyword k =>
    obtain ⟨written, rfl⟩ := is_keyword_iff.mp h
    rfl
  | symbol s =>
    rw [is_symbol_iff.mp h]
    rfl

/-- A reader stops at a token of higher rank than a terminal, so this is not the terminal. -/
theorem Stops.not_is {p : Nat} {t : Token} {x : Terminal} (h : Stops p t) (hx : x.rank ≤ p) :
    t.is x = false := by
  rw [← Bool.not_eq_true]
  intro hi
  have := rank_of_is hi
  unfold Stops at h
  omega

theorem stops_of_is {p : Nat} {t : Token} {x : Terminal} (h : t.is x = true) (hx : p < x.rank) :
    Stops p t := by
  unfold Stops
  rw [rank_of_is h]
  exact hx

end Token

end LedgerQuery
