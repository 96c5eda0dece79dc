import LedgerQuery.Text.Lines

/-!
# Outlines

An outline is a tree for people to read: an atom, a list of outlines, or a node
with a name and named fields.  Lists and nodes stand in parentheses, with one
item or field a line, two spaces further in than the line they start on.

Indenting works on lines of text.  An atom may hold line feeds, and its lines
are indented with the others.  Each level drops one carriage return in front of
a line feed and a line feed at the very end.
-/

namespace LedgerQuery

/-- A tree for people to read. -/
inductive Outline where
  /-- A text. -/
  | atom (text : String)
  /-- Some outlines in order. -/
  | list (items : List Outline)
  /-- A name and fields with names. -/
  | node (name : String) (fields : List (String × Outline))

namespace Outline

instance : Inhabited Outline := ⟨.list []⟩

/-- A text between single quotes. -/
def quoted (text : String) : Outline := .atom ("'" ++ text ++ "'")

/-- A text with each of its lines two spaces further in. -/
def indent (text : List Char) : List Char :=
  ['\n'].intercalate ((unterminatedLines text).map fun line => ' ' :: ' ' :: line)

/-- The lines of a body under a head, in parentheses. -/
def block (head : List Char) (lines : List (List Char)) : List Char :=
  '(' :: head ++ '\n' :: indent (['\n'].intercalate lines) ++ [')']

mutual

/-- The text of an outline. -/
def layout : Outline → List Char
  | .atom text => text.toList
  | .list items =>
    match items with
    | [] => ['(', ')']
    | item :: items => block [] (layout item :: layoutItems items)
  | .node name fields =>
    match fields with
    | [] => '(' :: name.toList ++ [')']
    | (key, value) :: fields =>
      block name.toList ((key.toList ++ ':' :: ' ' :: layout value) :: layoutFields fields)
termination_by structural o => o

/-- The text of each of some outlines. -/
def layoutItems : List Outline → List (List Char)
  | [] => []
  | item :: items => layout item :: layoutItems items
termination_by structural items => items

/-- The text of each of some fields. -/
def layoutFields : List (String × Outline) → List (List Char)
  | [] => []
  | (key, value) :: fields => (key.toList ++ ':' :: ' ' :: layout value) :: layoutFields fields
termination_by structural fields => fields

end

/-- The text of an outline. -/
def text (o : Outline) : String := String.ofList o.layout

end Outline

end LedgerQuery
