import LedgerQuery.Proofs.Lexing.Values
import LedgerQuery.Proofs.Tree.Parts
import LedgerQuery.Proofs.Written.Pieces

/-!
# Trees that can be written and read again

A tree is well-formed if its names, literals and lists are ones that a text can
hold.  That is so for every tree that is read from a text.

A well-formed tree has a written form, but this is not always read as the same
tree.  There are two kinds of exceptions, and a tree without them rereads.

* The operand of an attribute or a subscript has to be a primary that ends where it
  seems to.  It must not be a subselect, whose own clauses would come first.
  The operand of an attribute must not be an integer, which would take the point
  that follows.
* The expression of a filter must not begin like something else in its place: with
  `OPEN`, `CLOSE` or `CLEAR`, or in a `SELECT` with a query in parentheses.
-/

namespace LedgerQuery

/-! ## What a text can hold -/

/-- Whether a text is a name: a word that is no reserved keyword. -/
def IsName (name : String) : Prop :=
  isWord name.toList = true ∧ ∀ k, Keyword.lookup? name = some k → k.isReserved = false

/-- Whether a text lacks one of the quote characters. -/
def IsQuotable (value : String) : Prop := '\'' ∉ value.toList ∨ '"' ∉ value.toList

/-- Whether a constant is made of literals that a text can hold, at least one. -/
def Constant.Writable : Constant → Prop
  | .literal value => value.Writable
  | .list items => items ≠ [] ∧ ∀ value ∈ items, value.Writable

/-- Whether the outermost construction of an expression is one that a text can hold. -/
def Expr.Writable : Expr → Prop
  | .wildcard => True
  | .column n => IsName n
  | .constant value => value.Writable
  | .placeholder p => (Token.placeholder p).Legal
  | .function n args => IsName n ∧ (.wildcard ∈ args → args = [.wildcard])
  | .attribute x n => IsName n ∧ x ≠ .wildcard
  | .subscript x key => IsQuotable key ∧ x ≠ .wildcard
  | .bool _ args => 2 ≤ args.length ∧ .wildcard ∉ args
  | e => .wildcard ∉ e.parts

/-- Whether targets are ones that a text can hold. -/
def Targets.Writable : Targets → Prop
  | .all => True
  | .list items => items ≠ [] ∧ ∀ t ∈ items, ∀ n ∈ t.name, IsName n

/-- Whether the dates of a filter are ones that a text can hold. -/
def EntryFilter.Writable (f : EntryFilter) : Prop :=
  (∀ d ∈ f.openOn, 0 ≤ d.year ∧ d.year ≤ 9999) ∧
    ∀ d, f.close = some (.on d) → 0 ≤ d.year ∧ d.year ≤ 9999

/-- Whether a source is one that a text can hold. -/
def Source.Writable : Source → Prop
  | .table n => n.toList = [] ∨ isWord n.toList
  | .query _ => True
  | .entries f => f.Writable

/-- Whether a pivot key is one that a text can hold. -/
def PivotKey.Writable : PivotKey → Prop
  | .index _ => True
  | .column n => IsName n

/-- Whether the clauses of a query are ones that a text can hold. -/
def Select.Writable (s : Select) : Prop :=
  s.targets.Writable ∧ (∀ a ∈ s.source, a.Writable) ∧ (∀ g ∈ s.groupBy, g.keys ≠ []) ∧
    s.orderBy ≠ some [] ∧ (∀ p ∈ s.pivotBy, p.row.Writable ∧ p.column.Writable) ∧
      .wildcard ∉ s.parts

/-- Whether an expression is well-formed at every depth. -/
def Expr.WellFormed (e : Expr) : Prop := e.All Expr.Writable Select.Writable

/-- Whether a query is well-formed at every depth. -/
def Select.WellFormed (s : Select) : Prop := s.All Expr.Writable Select.Writable

/-- Whether the filter of a shorthand is well-formed at every depth. -/
def EntryFilter.WellFormed (f : EntryFilter) : Prop :=
  f.Writable ∧ ∀ e ∈ f.expression, e ≠ .wildcard ∧ e.WellFormed

/-- Whether a statement is well-formed at every depth. -/
def Statement.WellFormed : Statement → Prop
  | .select s => s.WellFormed
  | .balances b => (∀ n ∈ b.summary, IsName n) ∧ (∀ f ∈ b.source, f.WellFormed) ∧
      ∀ e ∈ b.condition, e ≠ .wildcard ∧ e.WellFormed
  | .journal j => (∀ value ∈ j.account, IsQuotable value) ∧ (∀ n ∈ j.summary, IsName n) ∧
      ∀ f ∈ j.source, f.WellFormed
  | .print p => ∀ f ∈ p.source, f.WellFormed

/-! ## What is read as it was written -/

/-- Whether tokens begin with some terminals. -/
def StartsWith (terminals : List Terminal) (ts : List Token) : Prop :=
  (ts.take terminals.length).map Token.terminal? = terminals.map some

instance (terminals : List Terminal) (ts : List Token) : Decidable (StartsWith terminals ts) :=
  inferInstanceAs (Decidable (_ = _))

/-- How the modifiers of a filter begin. -/
def modifierStarts : List (List Terminal) := [[.keyword .open], [.keyword .close], [.keyword .clear]]

/-- How a query in parentheses begins. -/
def queryStart : List Terminal := [.symbol .leftParen, .keyword .select]

/-- Whether an expression is read as the operand of a suffix. -/
def Expr.Suffixable (e : Expr) : Prop := e.strength = 8 ∧ ∀ s, e ≠ .subselect s

/-- Whether the outermost construction of an expression is read as it was written. -/
def Expr.Separates : Expr → Prop
  | .attribute x _ => x.Suffixable ∧ ∀ n, x ≠ .literal (.integer n)
  | .subscript x _ => x.Suffixable
  | _ => True

/-- Whether a filter has a part, and its expression does not begin in one of some ways. -/
def EntryFilter.Separates (starts : List (List Terminal)) (f : EntryFilter) : Prop :=
  (f.expression.isSome ∨ f.openOn.isSome ∨ f.close.isSome ∨ f.clear) ∧
    ∀ e ∈ f.expression, ∀ terminals ∈ starts, ¬ StartsWith terminals (Piece.tokens e.pieces)

/-- Whether the source of a query is read as it was written. -/
def Select.Separates (s : Select) : Prop :=
  ∀ f, s.source = some (.entries f) → f.Separates (queryStart :: modifierStarts)

/-- Whether an expression is read as it was written, at every depth. -/
def Expr.Rereads (e : Expr) : Prop := e.All Expr.Separates Select.Separates

/-- Whether a query is read as it was written, at every depth. -/
def Select.Rereads (s : Select) : Prop := s.All Expr.Separates Select.Separates

/-- Whether the filter of a shorthand is read as it was written, at every depth. -/
def EntryFilter.Rereads (f : EntryFilter) : Prop :=
  f.Separates modifierStarts ∧ ∀ e ∈ f.expression, e.Rereads

/-- Whether a statement is read as it was written, at every depth. -/
def Statement.Rereads : Statement → Prop
  | .select s => s.Rereads
  | .balances b => (∀ f ∈ b.source, f.Rereads) ∧ ∀ e ∈ b.condition, e.Rereads
  | .journal j => ∀ f ∈ j.source, f.Rereads
  | .print p => ∀ f ∈ p.source, f.Rereads

end LedgerQuery
