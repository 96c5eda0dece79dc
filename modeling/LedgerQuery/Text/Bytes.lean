/-!
# Bytes of a text

A text is measured in bytes of its UTF-8 form, while it is read character by
character.  `byteLength` measures a list of characters.  `splitAtByte?` cuts a
list at a byte offset and answers `none` when the offset is past the end or
inside a character, so a cut that succeeds always falls between two characters.

`splitAtByte?_eq_some_iff` says that a list can be cut at an offset exactly
when that offset is the length of one of its beginnings.
-/

namespace LedgerQuery

/-- The number of bytes of a text in UTF-8. -/
def byteLength : List Char → Nat
  | [] => 0
  | c :: cs => c.utf8Size + byteLength cs

@[simp] theorem byteLength_nil : byteLength [] = 0 := rfl

@[simp] theorem byteLength_cons (c : Char) (cs : List Char) :
    byteLength (c :: cs) = c.utf8Size + byteLength cs := rfl

@[simp] theorem byteLength_append (cs ds : List Char) :
    byteLength (cs ++ ds) = byteLength cs + byteLength ds := by
  induction cs with
  | nil => simp
  | cons c cs ih => simp [ih, Nat.add_assoc]

/-- A text without bytes has no characters. -/
theorem byteLength_eq_zero_iff {cs : List Char} : byteLength cs = 0 ↔ cs = [] := by
  cases cs with
  | nil => simp
  | cons c cs =>
    have := c.utf8Size_pos
    simp only [byteLength_cons, reduceCtorEq, iff_false]
    omega

/-- The characters before a byte offset and those from it on. -/
def splitAtByte? : List Char → Nat → Option (List Char × List Char)
  | cs, 0 => some ([], cs)
  | [], _ + 1 => none
  | c :: cs, n + 1 =>
    if c.utf8Size ≤ n + 1 then
      (splitAtByte? cs (n + 1 - c.utf8Size)).map fun (before, after) => (c :: before, after)
    else none
termination_by structural cs => cs

/-- A cut succeeds exactly at the length of a beginning of the text. -/
theorem splitAtByte?_eq_some_iff {cs before after : List Char} {n : Nat} :
    splitAtByte? cs n = some (before, after) ↔ cs = before ++ after ∧ byteLength before = n := by
  induction cs generalizing n before with
  | nil =>
    cases n with
    | zero => cases before <;> simp [splitAtByte?, eq_comm]
    | succ n => cases before <;> simp [splitAtByte?]
  | cons c cs ih =>
    have hc := c.utf8Size_pos
    cases n with
    | zero =>
      constructor
      · intro h
        simp only [splitAtByte?, Option.some.injEq, Prod.mk.injEq] at h
        obtain ⟨rfl, rfl⟩ := h
        simp
      · rintro ⟨h, hn⟩
        rw [byteLength_eq_zero_iff] at hn
        subst hn
        simpa [splitAtByte?] using h
    | succ n =>
      cases before with
      | nil => simp [splitAtByte?]
      | cons d before =>
        simp only [splitAtByte?, List.cons_append, List.cons.injEq, byteLength_cons]
        by_cases hle : c.utf8Size ≤ n + 1
        · rw [if_pos hle]
          simp only [Option.map_eq_some_iff, Prod.mk.injEq, Prod.exists]
          constructor
          · rintro ⟨b, a, h, ⟨rfl, rfl⟩, rfl⟩
            obtain ⟨rfl, hb⟩ := ih.1 h
            exact ⟨⟨rfl, rfl⟩, by omega⟩
          · rintro ⟨⟨rfl, rfl⟩, hn⟩
            exact ⟨before, after, ih.2 ⟨rfl, by omega⟩, by simp⟩
        · rw [if_neg hle]
          simp only [reduceCtorEq, false_iff, not_and, and_imp]
          rintro rfl - 
          omega

end LedgerQuery
