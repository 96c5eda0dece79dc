import LedgerQuery.Query.Basic

/-!
# The written form of a query

Every tree has one written form.  It is made of tokens with spaces in some
places, and its text is the text of these pieces in order.  An operand stands
in parentheses exactly when it binds less strongly than its place asks for.

* Both sides of a comparison bind more strongly than comparisons, since
  comparisons do not chain.
* Arithmetic groups to the left, so only its right operand has to bind more
  strongly than the operator.
* A connective of connectives of its own kind keeps the inner one in
  parentheses, since reading makes one list of a whole chain.

A key to sort or group by that is an integer literal stands in parentheses, so
it is not read as the number of a target.  A list of one literal ends in a
comma, so it is not read as that literal in parentheses.
-/

namespace LedgerQuery

/-- A piece of a written form. -/
inductive Piece where
  /-- A token. -/
  | token (value : Token)
  /-- A space. -/
  | space
deriving DecidableEq, Repr, Inhabited

namespace Piece

/-- The text of a piece. -/
def text : Piece → String
  | token t => t.text
  | space => " "

/-- The text of a list of pieces. -/
def textOf (pieces : List Piece) : String := String.join (pieces.map text)

/-- A keyword in upper case. -/
def keyword (k : Keyword) : Piece := token (.keyword k k.spelling)

/-- A symbol. -/
def symbol (s : Symbol) : Piece := token (.symbol s)

/-- A keyword or symbol. -/
def terminal : Terminal → Piece
  | .keyword k => keyword k
  | .symbol s => symbol s

/-- A name. -/
def word (name : String) : Piece := token (.ofWord name)

/-- Keywords and symbols with spaces between. -/
def spaced (terminals : List Terminal) : List Piece :=
  (terminals.map terminal).intersperse space

/-- Pieces in parentheses. -/
def parenthesised (pieces : List Piece) : List Piece :=
  symbol .leftParen :: pieces ++ [symbol .rightParen]

/-- Lists of pieces with a comma and a space between. -/
def commaSeparated (items : List (List Piece)) : List Piece :=
  [symbol .comma, space].intercalate items

/-- A keyword in front of pieces, with spaces around the keyword. -/
def clause (k : Keyword) (pieces : List Piece) : List Piece :=
  space :: keyword k :: space :: pieces

/-- Two keywords in front of pieces, with spaces around the keywords. -/
def clauseBy (k : Keyword) (pieces : List Piece) : List Piece :=
  space :: keyword k :: clause .by pieces

/-- The number of a target or of rows. -/
def number (n : UInt64) : Piece := token (.integer (toString n.toNat))

end Piece

open Piece

/-! ## Values -/

/-- The token of a literal. -/
def Literal.token : Literal → Token
  | .null => .keyword .null "NULL"
  | .boolean true => .keyword .true "TRUE"
  | .boolean false => .keyword .false "FALSE"
  | .integer n => .integer (Literal.integerText n)
  | .decimal d => .decimal (Literal.decimalText d)
  | .date d => .date d.text
  | .string s => .string s

/-- The pieces of a constant. -/
def Constant.pieces : Constant → List Piece
  | .literal value => [token value.token]
  | .list [value] => parenthesised [token value.token, symbol .comma]
  | .list items => parenthesised (commaSeparated (items.map fun value => [token value.token]))

/-- The pieces of a pivot key. -/
def PivotKey.pieces : PivotKey → List Piece
  | .index n => [number n]
  | .column name => [word name]

/-- The pieces of a pivot. -/
def PivotBy.pieces (p : PivotBy) : List Piece := commaSeparated [p.row.pieces, p.column.pieces]

/-- The pieces of a closing date, with its keyword. -/
def Closing.pieces : Closing → List Piece
  | .default => [keyword .close]
  | .on d => [keyword .close, space, keyword .on, space, token (.date d.text)]

/-! ## Strength of binding -/

/-- How strongly an expression binds, from one for disjunctions to eight for primaries. -/
def Expr.strength : Expr → Nat
  | .bool .or _ => 1
  | .bool .and _ => 2
  | .unary .not _ => 3
  | .unary .isNull _ | .unary .isNotNull _ | .between _ _ _ => 4
  | .binary _ op _ =>
    match op with
    | .add | .sub => 5
    | .mul | .div | .mod => 6
    | _ => 4
  | .unary .neg _ => 7
  | _ => 8

/-- Pieces of an expression of some strength, at a place that asks for some strength. -/
def guarded (strength least : Nat) (pieces : List Piece) : List Piece :=
  if strength < least then parenthesised pieces else pieces

/-! ## Expressions and queries -/

mutual

/-- The pieces of an expression. -/
def Expr.pieces : Expr → List Piece
  | .wildcard => [symbol .star]
  | .column name => [word name]
  | .constant value => value.pieces
  | .placeholder p => [token (.placeholder p)]
  | .function name args => word name :: parenthesised (commaSeparated (Expr.piecesOfList args))
  | .attribute operand name =>
    guarded operand.strength 8 operand.pieces ++ [symbol .dot, word name]
  | .subscript operand key =>
    guarded operand.strength 8 operand.pieces ++
      [symbol .leftBracket, token (.string (.enclosing key)), symbol .rightBracket]
  | .unary op operand =>
    match op with
    | .not => keyword .not :: space :: guarded operand.strength 3 operand.pieces
    | .neg => symbol .minus :: guarded operand.strength 7 operand.pieces
    | .isNull | .isNotNull =>
      guarded operand.strength 5 operand.pieces ++ space :: spaced op.terminals
  | .binary left op right =>
    let strength := (Expr.binary left op right).strength
    guarded left.strength (if strength = 4 then 5 else strength) left.pieces ++
      space :: spaced op.terminals ++
      space :: guarded right.strength (strength + 1) right.pieces
  | .bool op args =>
    let strength := (Expr.bool op args).strength
    [space, keyword op.key, space].intercalate (Expr.guardedPiecesOfList (strength + 1) args)
  | .between operand lower upper =>
    guarded operand.strength 5 operand.pieces ++
      clause .between (guarded lower.strength 5 lower.pieces) ++
      clause .and (guarded upper.strength 5 upper.pieces)
  | .subselect query => parenthesised query.pieces
termination_by structural e => e

/-- The pieces of each of some expressions. -/
def Expr.piecesOfList : List Expr → List (List Piece)
  | [] => []
  | e :: es => e.pieces :: Expr.piecesOfList es
termination_by structural es => es

/-- The pieces of each of some operands of one place. -/
def Expr.guardedPiecesOfList (least : Nat) : List Expr → List (List Piece)
  | [] => []
  | e :: es => guarded e.strength least e.pieces :: Expr.guardedPiecesOfList least es
termination_by structural es => es

/-- The pieces of a query. -/
def Select.pieces : Select → List Piece
  | ⟨targets, distinct, source, condition, groupBy, orderBy, pivotBy, limit⟩ =>
    keyword .select :: space ::
      ((if distinct then [keyword .distinct, space] else []) ++
      targets.pieces ++
      (match source with
        | none => []
        | some s => clause .from s.pieces) ++
      (match condition with
        | none => []
        | some e => clause .where e.pieces) ++
      (match groupBy with
        | none => []
        | some g => clauseBy .group g.pieces) ++
      (match orderBy with
        | none => []
        | some keys => clauseBy .order (commaSeparated (SortKey.piecesOfList keys))) ++
      (match pivotBy with
        | none => []
        | some p => clauseBy .pivot p.pieces) ++
      (match limit with
        | none => []
        | some n => clause .limit [number n]))
termination_by structural s => s

/-- The pieces of the targets of a query. -/
def Targets.pieces : Targets → List Piece
  | .all => [symbol .star]
  | .list items => commaSeparated (Target.piecesOfList items)
termination_by structural t => t

/-- The pieces of each of some targets. -/
def Target.piecesOfList : List Target → List (List Piece)
  | [] => []
  | ⟨e, name, _⟩ :: ts =>
    (match name with
      | none => e.pieces
      | some name => e.pieces ++ clause .as [word name]) :: Target.piecesOfList ts
termination_by structural ts => ts

/-- The pieces of a source. -/
def Source.pieces : Source → List Piece
  | .table name => [token (.table name)]
  | .query select => parenthesised select.pieces
  | .entries filter => filter.pieces
termination_by structural s => s

/-- The pieces of a filter on entries. -/
def EntryFilter.pieces : EntryFilter → List Piece
  | ⟨expression, openOn, close, clear⟩ =>
    [space].intercalate
      ((match expression with
          | none => []
          | some e => [e.pieces]) ++
        (openOn.map fun d =>
          [keyword .open, space, keyword .on, space, token (.date d.text)]).toList ++
        (close.map Closing.pieces).toList ++
        (if clear then [[keyword .clear]] else []))
termination_by structural f => f

/-- The pieces of a key. -/
def ColumnKey.pieces : ColumnKey → List Piece
  | .index n => [number n]
  | .expr e =>
    match e with
    | .constant (.literal (.integer n)) => parenthesised [token (Literal.integer n).token]
    | e => e.pieces
termination_by structural k => k

/-- The pieces of each of some keys. -/
def ColumnKey.piecesOfList : List ColumnKey → List (List Piece)
  | [] => []
  | k :: ks => k.pieces :: ColumnKey.piecesOfList ks
termination_by structural ks => ks

/-- The pieces of a grouping. -/
def GroupBy.pieces : GroupBy → List Piece
  | ⟨keys, having⟩ =>
    commaSeparated (ColumnKey.piecesOfList keys) ++
      match having with
      | none => []
      | some e => clause .having e.pieces
termination_by structural g => g

/-- The pieces of each of some sort keys. -/
def SortKey.piecesOfList : List SortKey → List (List Piece)
  | [] => []
  | ⟨column, direction⟩ :: ks =>
    (match direction with
      | .ascending => column.pieces
      | .descending => column.pieces ++ [space, keyword .desc]) :: SortKey.piecesOfList ks
termination_by structural ks => ks

end

/-! ## Statements -/

/-- The pieces of a name after `AT`, if there is one. -/
def summaryPieces (summary : Option String) : List Piece :=
  (summary.map fun name => clause .at [word name]).getD []

/-- The pieces of the filter of a shorthand, if there is one. -/
def shorthandSourcePieces (source : Option EntryFilter) : List Piece :=
  (source.map fun filter => clause .from filter.pieces).getD []

/-- The pieces of a `BALANCES` query. -/
def Balances.pieces (b : Balances) : List Piece :=
  keyword .balances :: (summaryPieces b.summary ++ shorthandSourcePieces b.source ++
    (b.condition.map fun e => clause .where e.pieces).getD [])

/-- The pieces of a `JOURNAL` query. -/
def Journal.pieces (j : Journal) : List Piece :=
  keyword .journal ::
    ((j.account.map fun account => [space, token (.string (.enclosing account))]).getD [] ++
      summaryPieces j.summary ++ shorthandSourcePieces j.source)

/-- The pieces of a `PRINT` query. -/
def Print.pieces (p : Print) : List Piece :=
  keyword .print :: shorthandSourcePieces p.source

/-- The pieces of a statement. -/
def Statement.pieces : Statement → List Piece
  | .select query => query.pieces
  | .balances query => query.pieces
  | .journal query => query.pieces
  | .print query => query.pieces

/-! ## Texts -/

/-- The written form of an expression. -/
def Expr.text (e : Expr) : String := textOf e.pieces

/-- The written form of a filter on entries. -/
def EntryFilter.text (f : EntryFilter) : String := textOf f.pieces

/-- The written form of a `SELECT` query. -/
def Select.text (s : Select) : String := textOf s.pieces

/-- The written form of a statement. -/
def Statement.text (s : Statement) : String := textOf s.pieces

end LedgerQuery
