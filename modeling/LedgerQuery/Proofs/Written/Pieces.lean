import LedgerQuery.Query.Written
import Mathlib

/-!
# Pieces of written forms

The tokens of some pieces are what is left without the spaces.  The pieces of a list of
trees are those of each tree, and the pieces of a query are those of its clauses, so
both can be taken apart without going through every type of trees.
-/

namespace LedgerQuery

namespace Piece

/-- The tokens of some pieces. -/
def tokens (pieces : List Piece) : List Token := pieces.filterMap fun
  | .token t => some t
  | .space => none

@[simp] theorem tokens_nil : tokens [] = [] := rfl

@[simp] theorem tokens_token (t : Token) (ps : List Piece) :
    tokens (token t :: ps) = t :: tokens ps := rfl

@[simp] theorem tokens_space (ps : List Piece) : tokens (space :: ps) = tokens ps := rfl

@[simp] theorem tokens_append (ps qs : List Piece) : tokens (ps ++ qs) = tokens ps ++ tokens qs := by
  simp [tokens]

theorem tokens_parenthesised (ps : List Piece) : tokens (parenthesised ps) =
    .symbol .leftParen :: (tokens ps ++ [.symbol .rightParen]) := by
  simp [parenthesised, symbol]

theorem tokens_intercalate (sep ps : List Piece) (pss : List (List Piece)) :
    tokens (sep.intercalate (ps :: pss)) =
      tokens ps ++ pss.flatMap fun qs => tokens sep ++ tokens qs := by
  induction pss generalizing ps with
  | nil => simp
  | cons qs pss ih =>
    rw [List.intercalate_cons_cons, tokens_append, tokens_append, ih]
    simp

/-- The pieces of something that may be missing. -/
def ofOption {α : Type} (f : α → List Piece) (o : Option α) : List Piece := (o.map f).getD []

@[simp] theorem ofOption_none {α : Type} (f : α → List Piece) : ofOption f none = [] := rfl

@[simp] theorem ofOption_some {α : Type} (f : α → List Piece) (a : α) : ofOption f (some a) = f a := rfl

end Piece

open Piece

theorem Expr.strength_pos (e : Expr) : 1 ≤ e.strength := by
  cases e with
  | unary op x => cases op <;> simp [Expr.strength]
  | binary l op r => cases op <;> simp [Expr.strength]
  | bool op args => cases op <;> simp [Expr.strength]
  | _ => simp [Expr.strength]

theorem Expr.strength_le (e : Expr) : e.strength ≤ 8 := by
  cases e with
  | unary op x => cases op <;> simp [Expr.strength]
  | binary l op r => cases op <;> simp [Expr.strength]
  | bool op args => cases op <;> simp [Expr.strength]
  | _ => simp [Expr.strength]

theorem Expr.piecesOfList_eq_map (es : List Expr) : Expr.piecesOfList es = es.map Expr.pieces := by
  induction es with
  | nil => rfl
  | cons e es ih => rw [Expr.piecesOfList, ih, List.map_cons]

theorem Expr.guardedPiecesOfList_eq_map (least : Nat) (es : List Expr) :
    Expr.guardedPiecesOfList least es = es.map fun e => guarded e.strength least e.pieces := by
  induction es with
  | nil => rfl
  | cons e es ih => rw [Expr.guardedPiecesOfList, ih, List.map_cons]

theorem Expr.pieces_function (n : String) (args : List Expr) :
    (Expr.function n args).pieces = word n :: parenthesised (commaSeparated (args.map Expr.pieces)) := by
  rw [Expr.pieces, Expr.piecesOfList_eq_map]

/-- The pieces of a target. -/
def Target.pieces (t : Target) : List Piece :=
  t.expr.pieces ++ ofOption (fun name => clause .as [word name]) t.name

theorem Target.piecesOfList_eq_map (ts : List Target) :
    Target.piecesOfList ts = ts.map Target.pieces := by
  induction ts with
  | nil => rfl
  | cons t ts ih =>
    obtain ⟨e, name, span⟩ := t
    cases name <;> simp [Target.piecesOfList, ih, Target.pieces]

theorem ColumnKey.piecesOfList_eq_map (ks : List ColumnKey) :
    ColumnKey.piecesOfList ks = ks.map ColumnKey.pieces := by
  induction ks with
  | nil => rfl
  | cons k ks ih => rw [ColumnKey.piecesOfList, ih, List.map_cons]

theorem ColumnKey.pieces_expr {e : Expr} (he : ∀ n, e ≠ .literal (.integer n)) :
    (ColumnKey.expr e).pieces = e.pieces := by
  unfold ColumnKey.pieces
  split
  · exact absurd rfl (he _)
  · rfl

/-- The pieces of a direction. -/
def SortDirection.pieces : SortDirection → List Piece
  | .ascending => []
  | .descending => [space, keyword .desc]

/-- The pieces of a sort key. -/
def SortKey.pieces (k : SortKey) : List Piece := k.column.pieces ++ k.direction.pieces

theorem SortKey.piecesOfList_eq_map (ks : List SortKey) :
    SortKey.piecesOfList ks = ks.map SortKey.pieces := by
  induction ks with
  | nil => rfl
  | cons k ks ih =>
    obtain ⟨column, direction⟩ := k
    cases direction <;> simp [SortKey.piecesOfList, ih, SortKey.pieces, SortDirection.pieces]

theorem Targets.pieces_list (items : List Target) :
    (Targets.list items).pieces = commaSeparated (items.map Target.pieces) := by
  rw [Targets.pieces, Target.piecesOfList_eq_map]

theorem GroupBy.pieces_eq (g : GroupBy) :
    g.pieces = commaSeparated (g.keys.map ColumnKey.pieces) ++
      ofOption (fun e => clause .having e.pieces) g.having := by
  obtain ⟨keys, having⟩ := g
  cases having <;> simp [GroupBy.pieces, ColumnKey.piecesOfList_eq_map]

/-- The pieces of an opening date, with its keywords. -/
def openingPieces (d : Date) : List Piece := [keyword .open, space, keyword .on, space, token (.date d.text)]

theorem EntryFilter.pieces_eq (f : EntryFilter) :
    f.pieces = [space].intercalate ((f.expression.map Expr.pieces).toList ++
      (f.openOn.map openingPieces).toList ++ (f.close.map Closing.pieces).toList ++
        (if f.clear then [[keyword .clear]] else [])) := by
  obtain ⟨expression, openOn, close, clear⟩ := f
  cases expression <;> rfl

theorem Piece.tokens_intercalate_space (pss : List (List Piece)) :
    tokens ([space].intercalate pss) = pss.flatMap tokens := by
  induction pss with
  | nil => rfl
  | cons ps pss ih =>
    cases pss with
    | nil => simp
    | cons qs pss =>
      simp [List.intercalate_cons_cons, ih]

/-- The tokens of a filter, part by part. -/
theorem EntryFilter.tokens_pieces (f : EntryFilter) : tokens f.pieces = tokens
    (ofOption Expr.pieces f.expression ++ (ofOption openingPieces f.openOn ++
      (ofOption Closing.pieces f.close ++ if f.clear then [keyword .clear] else []))) := by
  rw [EntryFilter.pieces_eq, tokens_intercalate_space]
  cases f.expression <;> cases f.openOn <;> cases f.close <;> cases f.clear <;> simp

/-- The pieces of a query, clause by clause. -/
theorem Select.pieces_eq (s : Select) :
    s.pieces = keyword .select :: space :: ((if s.distinct then [keyword .distinct, space] else []) ++
      s.targets.pieces ++ ofOption (fun a => clause .from a.pieces) s.source ++
      ofOption (fun e => clause .where e.pieces) s.condition ++
      ofOption (fun g => clauseBy .group g.pieces) s.groupBy ++
      ofOption (fun keys => clauseBy .order (commaSeparated (keys.map SortKey.pieces))) s.orderBy ++
      ofOption (fun p => clauseBy .pivot p.pieces) s.pivotBy ++
      ofOption (fun n => clause .limit [number n]) s.limit) := by
  obtain ⟨targets, distinct, source, condition, groupBy, orderBy, pivotBy, limit⟩ := s
  cases orderBy with
  | none => cases source <;> cases condition <;> cases groupBy <;> cases pivotBy <;> cases limit <;> rfl
  | some keys =>
    rw [ofOption_some, ← SortKey.piecesOfList_eq_map]
    cases source <;> cases condition <;> cases groupBy <;> cases pivotBy <;> cases limit <;> rfl

end LedgerQuery
