import LedgerQuery.Text.Location
import Mathlib

/-!
# Locations and offsets

A location is found from an offset by walking over the text before it, so the
line, the column and the offset are counted in one pass.  This module shows that
nothing is lost in the pass: on the boundaries between characters the location
grows strictly with the offset, and the line and the column alone lead back to
it.

The way back is `skip?`, which knows nothing of offsets found before: it passes
a number of line feeds, each with everything before it, and then a number of
characters none of which is a line feed.
-/

namespace LedgerQuery

/-! ## Boundaries -/

/-- The offset falls between two characters of the text, or at one of its ends. -/
def IsBoundary (cs : List Char) (offset : Nat) : Prop :=
  ∃ before after, cs = before ++ after ∧ byteLength before = offset

/-! ## The order of locations -/

namespace Location

/-- The order of reading: by line, and in a line by column. -/
def Before (l m : Location) : Prop :=
  l.line < m.line ∨ l.line = m.line ∧ l.column < m.column

theorem Before.trans {l m n : Location} (hlm : l.Before m) (hmn : m.Before n) : l.Before n := by
  unfold Before at *
  omega

@[simp] theorem next_lineFeed (l : Location) : l.next '\n' = ⟨l.line + 1, 1, l.offset + 1⟩ := rfl

theorem next_of_ne (l : Location) {c : Char} (hc : c ≠ '\n') :
    l.next c = ⟨l.line, l.column + 1, l.offset + c.utf8Size⟩ :=
  if_neg hc

/-- One more character moves the location forward. -/
theorem before_next (l : Location) (c : Char) : l.Before (l.next c) := by
  rcases eq_or_ne c '\n' with rfl | hc
  · exact .inl (Nat.lt_succ_self _)
  · rw [next_of_ne l hc]
    exact .inr ⟨rfl, Nat.lt_succ_self _⟩

/-- A text that is not empty moves the location forward. -/
theorem before_foldl (l : Location) {cs : List Char} (hcs : cs ≠ []) : l.Before (cs.foldl next l) := by
  induction cs generalizing l with
  | nil => exact absurd rfl hcs
  | cons c cs ih =>
    rcases eq_or_ne cs [] with rfl | hne
    · exact l.before_next c
    · exact (l.before_next c).trans (ih _ hne)

/-- A text without line feeds only moves the column. -/
theorem foldl_of_not_mem (l : Location) {line : List Char} (h : '\n' ∉ line) :
    line.foldl next l = ⟨l.line, l.column + line.length, l.offset + byteLength line⟩ := by
  induction line generalizing l with
  | nil => rfl
  | cons c line ih =>
    obtain ⟨hc, hline⟩ := not_or.mp (mt List.mem_cons.mpr h)
    rw [List.foldl_cons, next_of_ne l (Ne.symm hc), ih _ hline, List.length_cons, byteLength_cons]
    simp only [mk.injEq, true_and]
    omega

/-- The line never falls on the way through a text. -/
theorem line_le_foldl (l : Location) (cs : List Char) : l.line ≤ (cs.foldl next l).line := by
  rcases eq_or_ne cs [] with rfl | hne
  · exact le_rfl
  · rcases l.before_foldl hne with h | ⟨h, -⟩ <;> omega

/-- What the walk finds is what three counts find separately: the line feeds, the characters after
the last one, and the bytes. -/
theorem after_eq (cs : List Char) :
    after cs = ⟨cs.count '\n' + 1, (cs.rtakeWhile (· ≠ '\n')).length + 1, byteLength cs⟩ := by
  induction cs using List.reverseRecOn with
  | nil => rfl
  | append_singleton cs c ih =>
    rw [Location.after, List.foldl_append, ← Location.after, ih, List.foldl_cons, List.foldl_nil]
    rcases eq_or_ne c '\n' with rfl | hc
    · rw [List.rtakeWhile_concat_neg _ _ _ (by simp), List.count_append, byteLength_append]
      rfl
    · simp [next_of_ne _ hc, List.rtakeWhile_concat_pos, hc]

/-! ## The way back -/

/-- The offset after a number of line feeds, each with everything before it, and then a number of
characters none of which is a line feed. -/
def skip? : (lineFeeds chars : Nat) → List Char → Option Nat
  | 0, 0, _ => some 0
  | _ + 1, _, [] => none
  | 0, _ + 1, [] => none
  | n + 1, k, c :: cs => (skip? (if c = '\n' then n else n + 1) k cs).map (c.utf8Size + ·)
  | 0, k + 1, c :: cs => if c = '\n' then none else (skip? 0 k cs).map (c.utf8Size + ·)

/-- A line feed is passed with the line before it. -/
theorem skip?_line (n k : Nat) {line : List Char} (h : '\n' ∉ line) (rest : List Char) :
    skip? (n + 1) k (line ++ '\n' :: rest) = (skip? n k rest).map (byteLength line + 1 + ·) := by
  induction line with
  | nil =>
    rw [List.nil_append, skip?, if_pos rfl, byteLength_nil, Nat.zero_add]
    rfl
  | cons c line ih =>
    obtain ⟨hc, hline⟩ := not_or.mp (mt List.mem_cons.mpr h)
    rw [List.cons_append, skip?, if_neg (Ne.symm hc), ih hline, Option.map_map, byteLength_cons]
    congr 1
    funext i
    simp only [Function.comp_apply]
    omega

/-- The characters of a piece of one line are passed one by one. -/
theorem skip?_length {line : List Char} (h : '\n' ∉ line) (rest : List Char) :
    skip? 0 line.length (line ++ rest) = some (byteLength line) := by
  induction line with
  | nil => simp [skip?]
  | cons c line ih =>
    obtain ⟨hc, hline⟩ := not_or.mp (mt List.mem_cons.mpr h)
    simp [skip?, Ne.symm hc, ih hline]

/-- From the first column of a line, the lines that a text adds and the columns it adds to the line
it ends in lead over it.  The induction is on the lines of the text. -/
theorem skip?_foldl {l : Location} (hl : l.column = 1) (before after : List Char) :
    skip? ((before.foldl next l).line - l.line) ((before.foldl next l).column - 1) (before ++ after) =
      some (byteLength before) := by
  by_cases hmem : '\n' ∈ before
  · obtain ⟨line, rest, rfl, hline⟩ := List.eq_append_cons_of_mem hmem
    have hwalk : (line ++ '\n' :: rest).foldl next l =
        rest.foldl next ⟨l.line + 1, 1, l.offset + byteLength line + 1⟩ := by
      rw [List.foldl_append, foldl_of_not_mem l hline, List.foldl_cons, next_lineFeed]
    have hrest := skip?_foldl (l := ⟨l.line + 1, 1, l.offset + byteLength line + 1⟩) rfl rest after
    have hle := line_le_foldl ⟨l.line + 1, 1, l.offset + byteLength line + 1⟩ rest
    rw [hwalk, List.append_assoc, List.cons_append]
    generalize rest.foldl next ⟨l.line + 1, 1, l.offset + byteLength line + 1⟩ = m at hrest hle ⊢
    obtain ⟨n, hn⟩ := Nat.exists_eq_add_of_le hle
    have hlines : m.line - l.line = n + 1 := by
      simp only at hn
      omega
    have hlater : m.line - (l.line + 1) = n := by omega
    rw [hlater] at hrest
    rw [hlines, skip?_line n _ hline, hrest]
    simp only [Option.map_some, byteLength_append, byteLength_cons, Option.some.injEq]
    rw [show Char.utf8Size '\n' = 1 from rfl]
    omega
  · rw [foldl_of_not_mem l hmem, hl, Nat.sub_self, Nat.add_sub_cancel_left]
    exact skip?_length hmem after
termination_by before.length

/-! ## Locations of offsets -/

/-- The place of the length of a beginning is the place after it. -/
theorem ofOffset_append (before after : List Char) :
    ofOffset (before ++ after) (byteLength before) = .after before := by
  rw [ofOffset, splitAtByte?_eq_some_iff.mpr ⟨rfl, rfl⟩]

/-- A boundary further on has a later location. -/
theorem ofOffset_before {cs : List Char} {o p : Nat} (ho : IsBoundary cs o) (hp : IsBoundary cs p)
    (h : o < p) : (ofOffset cs o).Before (ofOffset cs p) := by
  obtain ⟨before, after, rfl, rfl⟩ := ho
  obtain ⟨before', after', heq, rfl⟩ := hp
  obtain ⟨mid, rfl, rfl⟩ | ⟨mid, rfl, rfl⟩ := List.append_eq_append_iff.mp heq
  · have hmid : mid ≠ [] := by
      rintro rfl
      simp at h
    rw [ofOffset_append, ← List.append_assoc, ofOffset_append, Location.after, Location.after, List.foldl_append]
    exact before_foldl _ hmid
  · rw [byteLength_append] at h
    omega

/-- The location of a boundary counts from one, and it leads back to the boundary. -/
theorem skip?_ofOffset {cs : List Char} {o : Nat} (ho : IsBoundary cs o) :
    (ofOffset cs o).offset = o ∧ 1 ≤ (ofOffset cs o).line ∧ 1 ≤ (ofOffset cs o).column ∧
      skip? ((ofOffset cs o).line - 1) ((ofOffset cs o).column - 1) cs = some o := by
  obtain ⟨before, after, rfl, rfl⟩ := ho
  rw [ofOffset_append]
  have hback := skip?_foldl (l := origin) rfl before after
  rw [← Location.after] at hback
  exact ⟨by rw [after_eq], by simp [after_eq], by simp [after_eq], hback⟩

/-- Past the end every offset has the location of the end. -/
theorem ofOffset_of_le {cs : List Char} {o : Nat} (h : byteLength cs ≤ o) :
    ofOffset cs o = ofOffset cs (byteLength cs) := by
  have hend : ofOffset cs (byteLength cs) = .after cs := by simpa using ofOffset_append cs []
  rw [hend]
  rcases h.eq_or_lt with rfl | hlt
  · exact hend
  · have hcut : splitAtByte? cs o = none := by
      by_contra hne
      obtain ⟨⟨before, after⟩, hcut⟩ := Option.ne_none_iff_exists'.mp hne
      obtain ⟨rfl, rfl⟩ := splitAtByte?_eq_some_iff.mp hcut
      simp only [byteLength_append] at hlt
      omega
    have hoffset : (after cs).offset = byteLength cs := by rw [after_eq]
    rw [ofOffset, hcut, min_eq_right h, ← hoffset]

/-- Locations and offsets determine each other.  On the boundaries of a text the location grows
strictly with the offset, in the order of lines and columns, and the line and the column of a
boundary lead back to it from the beginning of the text; past the end there is only the location of
the end. -/
theorem ofOffset_determined (source : String) :
    (∀ o p, IsBoundary source.toList o → IsBoundary source.toList p → o < p →
      (ofOffset source.toList o).Before (ofOffset source.toList p)) ∧
    (∀ o, IsBoundary source.toList o →
      (ofOffset source.toList o).offset = o ∧
        1 ≤ (ofOffset source.toList o).line ∧ 1 ≤ (ofOffset source.toList o).column ∧
        skip? ((ofOffset source.toList o).line - 1) ((ofOffset source.toList o).column - 1) source.toList =
          some o) ∧
    (∀ o, byteLength source.toList ≤ o →
      ofOffset source.toList o = ofOffset source.toList (byteLength source.toList)) :=
  ⟨fun _ _ => ofOffset_before, fun _ => skip?_ofOffset, fun _ => ofOffset_of_le⟩

/-- A text with a line break of two characters, an empty line and characters of several bytes.  The
boundary after its first line feed is the beginning of the second line. -/
theorem ofOffset_determined_breaks :
    IsBoundary "é\r\n\n∞x".toList 4 ∧ IsBoundary "é\r\n\n∞x".toList 8 ∧
      (ofOffset "é\r\n\n∞x".toList 4).Before (ofOffset "é\r\n\n∞x".toList 8) ∧
      skip? ((ofOffset "é\r\n\n∞x".toList 8).line - 1) ((ofOffset "é\r\n\n∞x".toList 8).column - 1)
        "é\r\n\n∞x".toList = some 8 ∧
      ofOffset "é\r\n\n∞x".toList 20 = ofOffset "é\r\n\n∞x".toList (byteLength "é\r\n\n∞x".toList) := by
  have hfour : IsBoundary "é\r\n\n∞x".toList 4 := ⟨['é', '\r', '\n'], ['\n', '∞', 'x'], by decide, by decide⟩
  have height : IsBoundary "é\r\n\n∞x".toList 8 := ⟨['é', '\r', '\n', '\n', '∞'], ['x'], by decide, by decide⟩
  obtain ⟨hbefore, hback, hpast⟩ := ofOffset_determined "é\r\n\n∞x"
  exact ⟨hfour, height, hbefore 4 8 hfour height (by decide), (hback 8 height).2.2.2, hpast 20 (by decide)⟩

end Location

end LedgerQuery
