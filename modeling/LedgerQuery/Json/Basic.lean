/-!
# JSON values

Trees of JSON, with whole numbers only.  An object is a list of fields in
order.  Looking up a part of a record gives a value that is smaller than the
record, which is what the readers of trees recurse on.
-/

namespace LedgerQuery

/-- A JSON value whose numbers are whole. -/
inductive Json where
  /-- The null value. -/
  | null
  /-- A truth value. -/
  | bool (value : Bool)
  /-- A whole number. -/
  | num (value : Int)
  /-- A string. -/
  | str (value : String)
  /-- An array. -/
  | arr (items : List Json)
  /-- An object. -/
  | obj (fields : List (String × Json))

namespace Json

instance : Inhabited Json := ⟨.null⟩

/-! ## Values -/

/-- The form of a value under a tag: an object with the tag as its only key. -/
def tagged (tag : String) (value : Json) : Json := .obj [(tag, value)]

/-- The form of a natural number. -/
def ofNat (n : Nat) : Json := .num n

/-- The form of a part that may be absent. -/
def ofOption {α : Type} (f : α → Json) : Option α → Json
  | none => .null
  | some a => f a

/-- The truth value of a value. -/
def bool? : Json → Option Bool
  | .bool b => some b
  | _ => none

/-- The text of a string. -/
def str? : Json → Option String
  | .str s => some s
  | _ => none

/-- A natural number of at most sixty-four bits. -/
def word? : Json → Option Nat
  | .num n => if 0 ≤ n ∧ n < UInt64.size then some n.toNat else none
  | _ => none

/-- A part that may be absent. -/
def option? {α : Type} (f : Json → Option α) : Json → Option (Option α)
  | .null => some none
  | j => (f j).map some

/-- The name of a choice without data: a string, or the only key of an object, over null. -/
def name? : Json → Option String
  | .str name => some name
  | .obj [(name, .null)] => some name
  | _ => none

/-! ## Parts of a record

A record is an object with a field for each part, or an array of all its parts
in order. -/

theorem sizeOf_null_lt_obj (fields : List (String × Json)) : sizeOf null < sizeOf (obj fields) := by
  rw [null.sizeOf_spec, obj.sizeOf_spec]
  cases fields with
  | nil => rw [List.nil.sizeOf_spec]; omega
  | cons f fs => rw [List.cons.sizeOf_spec]; omega

theorem sizeOf_null_lt_arr (items : List Json) : sizeOf null < sizeOf (arr items) := by
  rw [null.sizeOf_spec, arr.sizeOf_spec]
  cases items with
  | nil => rw [List.nil.sizeOf_spec]; omega
  | cons i is => rw [List.cons.sizeOf_spec]; omega

/-- The value of the first field with a key. -/
def lookup? (key : String) :
    (fields : List (String × Json)) → Option {v : Json // sizeOf v < sizeOf fields}
  | [] => none
  | (k, v) :: fields =>
    if k = key then some ⟨v, by simp; omega⟩
    else (lookup? key fields).map fun ⟨w, h⟩ => ⟨w, by simp; omega⟩

/-- The item at a place of an array. -/
def item? (place : Nat) (items : List Json) : Option {v : Json // sizeOf v < sizeOf items} :=
  if h : place < items.length then
    some ⟨items[place], List.sizeOf_lt_of_mem (List.getElem_mem h)⟩
  else none

/-- The value of a part of a record that is made of some parts. -/
def field? (parts : List String) (key : String) :
    (j : Json) → Option {v : Json // sizeOf v < sizeOf j}
  | .obj fields => (lookup? key fields).map fun ⟨v, h⟩ => ⟨v, by simp; omega⟩
  | .arr items =>
    if items.length = parts.length then
      (item? (parts.idxOf key) items).map fun ⟨v, h⟩ => ⟨v, by simp; omega⟩
    else none
  | _ => none

/-- The value of a part of a record, null if the record leaves it out. -/
def part? (parts : List String) (key : String) :
    (j : Json) → Option {v : Json // sizeOf v < sizeOf j}
  | .obj fields =>
    match lookup? key fields with
    | some ⟨v, h⟩ => some ⟨v, by simp; omega⟩
    | none => some ⟨.null, sizeOf_null_lt_obj fields⟩
  | .arr items =>
    if items.length ≠ parts.length then none
    else
      match item? (parts.idxOf key) items with
      | some ⟨v, h⟩ => some ⟨v, by simp; omega⟩
      | none => some ⟨.null, sizeOf_null_lt_arr items⟩
  | _ => none

end Json

end LedgerQuery
