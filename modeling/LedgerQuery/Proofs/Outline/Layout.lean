import LedgerQuery.Outline
import LedgerQuery.Proofs.Lexing.Spelling
import Mathlib

/-!
# The text of an outline determines it

An outline is legible if its atoms, names and keys can be told apart from what stands around them.  Different
legible outlines have different texts (`layout_injective`).

* Indenting works on lines, and it is done again at each level.  For a legible outline this is the same as to write
  each line at its final depth (`layout_eq_spread`).
* What follows an outline in a text is the end of the outlines around it, so some closing parentheses and then the end
  or a line feed.  An outline is read off the front of any such text (`Legible.spread_injective`).  An atom is what
  stands before the closing parentheses at the end of its line, so it must not end in one itself, unless it begins
  with the opening one that belongs to it.
-/

namespace LedgerQuery

namespace Outline

/-! ## Legible outlines -/

/-- Whether a character belongs to names and keys. -/
def isKeyChar (c : Char) : Bool := c.isLower || c = '-'

/-- Whether a text is a name or a key. -/
def IsKey (cs : List Char) : Prop := cs ≠ [] ∧ ∀ c ∈ cs, isKeyChar c = true

/-- Whether some characters on a line do not begin or end like an outline or a line. -/
structure Inline (cs : List Char) : Prop where
  /-- There is no line feed. -/
  line : '\n' ∉ cs
  /-- The first character is one of no name or key and no parenthesis. -/
  first : ∃ c ∈ cs.head?, isKeyChar c = false ∧ c ∉ ['(', ')']
  /-- The last character is no closing parenthesis and no carriage return. -/
  last : ∀ c ∈ cs.getLast?, c ∉ [')', '\r']

/-- Whether a text is the atom of a legible outline. -/
inductive IsAtom : List Char → Prop where
  /-- The text does not begin or end like an outline. -/
  | plain {cs : List Char} (h : '\n' ∉ cs) (hfirst : ∃ c ∈ cs.head?, c ≠ '(') (hlast : ∀ c ∈ cs.getLast?, c ∉ [')', '\r']) :
    IsAtom cs
  /-- Such a text in parentheses. -/
  | enclosed {cs : List Char} (h : Inline cs) : IsAtom ('(' :: cs ++ [')'])

/-- Whether an outline can be read off its text. -/
inductive Legible : Outline → Prop where
  /-- An atom. -/
  | atom {t : String} (h : IsAtom t.toList) : Legible (.atom t)
  /-- A list. -/
  | list {items : List Outline} (h : ∀ o ∈ items, Legible o) : Legible (.list items)
  /-- A node. -/
  | node {name : String} {fields : List (String × Outline)} (hname : IsKey name.toList)
    (hkeys : ∀ f ∈ fields, IsKey f.1.toList) (hvalues : ∀ f ∈ fields, Legible f.2) : Legible (.node name fields)

/-! ## Lines at their depth -/

/-- A line feed and the blanks of a depth. -/
def margin (depth : Nat) : List Char := '\n' :: List.replicate (2 * depth) ' '

mutual

/-- The text of an outline that stands at a depth. -/
def spread (depth : Nat) : Outline → List Char
  | .atom t => t.toList
  | .list items => '(' :: spreadItems (depth + 1) items ++ [')']
  | .node name fields => '(' :: name.toList ++ spreadFields (depth + 1) fields ++ [')']
termination_by structural o => o

/-- The text of some outlines, each on a line of its own. -/
def spreadItems (depth : Nat) : List Outline → List Char
  | [] => []
  | o :: items => margin depth ++ spread depth o ++ spreadItems depth items
termination_by structural items => items

/-- The text of some fields, each on a line of its own. -/
def spreadFields (depth : Nat) : List (String × Outline) → List Char
  | [] => []
  | (key, value) :: fields =>
    margin depth ++ (key.toList ++ ':' :: ' ' :: spread depth value) ++ spreadFields depth fields
termination_by structural fields => fields

end

/-- A text with blanks after each line feed. -/
def shift (cs : List Char) : List Char := cs.flatMap fun c => if c = '\n' then ['\n', ' ', ' '] else [c]

@[simp] theorem shift_append (cs ds : List Char) : shift (cs ++ ds) = shift cs ++ shift ds := List.flatMap_append

theorem shift_flatMap {α : Type} (as : List α) (f : α → List Char) :
    shift (as.flatMap f) = as.flatMap fun a => shift (f a) := List.flatMap_assoc

/-- Parentheses around a text stay where they are. -/
theorem shift_enclosed (cs : List Char) : shift ('(' :: cs ++ [')']) = '(' :: shift cs ++ [')'] := by
  simp [shift]

theorem shift_of_notMem {cs : List Char} (h : '\n' ∉ cs) : shift cs = cs := by
  induction cs with
  | nil => rfl
  | cons c cs ih =>
    obtain ⟨hc, hcs⟩ := not_or.mp (mt List.mem_cons.mpr h)
    rw [shift, List.flatMap_cons, if_neg (Ne.symm hc), ← shift, ih hcs]
    rfl

theorem shift_margin (depth : Nat) : shift (margin depth) = margin (depth + 1) := by
  have hblanks : shift (List.replicate (2 * depth) ' ') = List.replicate (2 * depth) ' ' :=
    shift_of_notMem fun h => absurd (List.eq_of_mem_replicate h) (by decide)
  show shift (['\n'] ++ List.replicate (2 * depth) ' ') = _
  rw [shift_append, hblanks]
  rfl

/-! ## Lines that keep their ends -/

/-- Whether two characters in a row are no carriage return before a line feed. -/
def NoBreak (c d : Char) : Prop := ¬ (c = '\r' ∧ d = '\n')

/-- Whether no line of a text ends in a carriage return. -/
structure Linked (cs : List Char) : Prop where
  /-- No line before the last one does. -/
  chain : cs.IsChain NoBreak
  /-- The last line does not. -/
  last : ∀ c ∈ cs.getLast?, c ≠ '\r'

/-- Whether cutting a text into lines drops nothing but the line feeds between them. -/
structure Neat (cs : List Char) : Prop where
  /-- No line ends in a carriage return. -/
  linked : Linked cs
  /-- The last line is not empty. -/
  ends : ∃ c ∈ cs.getLast?, c ≠ '\n'

section
variable {cs ds line : List Char}

theorem Linked.nil : Linked [] := ⟨.nil, by simp⟩

theorem Linked.append (h : Linked cs) (h' : Linked ds) : Linked (cs ++ ds) where
  chain := List.isChain_append.mpr ⟨h.chain, h'.chain, fun c hc d _ hbreak => h.last c hc hbreak.1⟩
  last c hc := by
    rw [List.getLast?_append] at hc
    cases hds : ds.getLast? with
    | none =>
      rw [hds] at hc
      exact h.last c hc
    | some d =>
      rw [hds] at hc
      exact h'.last c (hds ▸ hc)

theorem Linked.of_notMem (h : '\n' ∉ cs) (hlast : ∀ c ∈ cs.getLast?, c ≠ '\r') : Linked cs where
  chain := by
    induction cs with
    | nil => exact .nil
    | cons c cs ih =>
      have hcs : '\n' ∉ cs := fun hm => h (List.mem_cons_of_mem c hm)
      refine List.isChain_cons.mpr ⟨?_, ih hcs fun d hd => hlast d ?_⟩
      · rintro d hd ⟨-, rfl⟩
        exact hcs (List.mem_of_mem_head? hd)
      · cases cs with
        | nil => cases hd
        | cons e cs => simpa using hd
  last := hlast

theorem linked_feed : Linked ['\n'] := ⟨.singleton _, by simp⟩

theorem linked_margin (depth : Nat) : Linked (margin depth) := by
  refine linked_feed.append (.of_notMem ?_ ?_)
  · exact fun h => absurd (List.eq_of_mem_replicate h) (by decide)
  · intro c hc
    rw [List.eq_of_mem_replicate (List.mem_of_mem_getLast? hc)]
    decide

theorem IsKey.notMem (h : IsKey cs) : '\n' ∉ cs := fun hm => absurd (h.2 _ hm) (by decide)

theorem IsKey.linked (h : IsKey cs) : Linked cs := .of_notMem h.notMem fun c hc hr => by
  have := h.2 c (List.mem_of_mem_getLast? hc)
  rw [hr] at this
  cases this

theorem Linked.append_neat (h : Linked cs) (h' : Neat ds) : Neat (cs ++ ds) where
  linked := h.append h'.linked
  ends := by
    obtain ⟨c, hc, hne⟩ := h'.ends
    exact ⟨c, by rw [List.getLast?_append, Option.mem_def.mp hc]; rfl, hne⟩

theorem IsAtom.notMem (h : IsAtom cs) : '\n' ∉ cs := by
  cases h with
  | plain h => exact h
  | enclosed h => simpa using h.line

theorem IsAtom.neat (h : IsAtom cs) : Neat cs := by
  have hnot := h.notMem
  have hlast : ∃ c ∈ cs.getLast?, c ≠ '\r' ∧ c ≠ '\n' := by
    cases h with
    | @plain cs _ hfirst hlast =>
      obtain ⟨d, hd, -⟩ := hfirst
      have hne : cs ≠ [] := by
        rintro rfl
        cases hd
      obtain ⟨c, hc⟩ := Option.ne_none_iff_exists'.mp (mt List.getLast?_eq_none_iff.mp hne)
      refine ⟨c, hc, fun hr => hlast c hc (by simp [hr]), ?_⟩
      rintro rfl
      exact hnot (List.mem_of_getLast? hc)
    | enclosed _ => exact ⟨')', by rw [List.getLast?_append]; rfl, by decide, by decide⟩
  obtain ⟨c, hc, hr, hn⟩ := hlast
  refine ⟨.of_notMem hnot fun d hd => ?_, c, hc, hn⟩
  obtain rfl : c = d := Option.some.inj (hc.symm.trans hd)
  exact hr

/-- Indenting a text that is cut without loss. -/
theorem intercalate_lines (hne : line ++ cs ≠ []) (hchain : (line.reverse ++ cs).IsChain NoBreak)
    (hlast : ∀ c ∈ cs.getLast?, c ≠ '\n') :
    ['\n'].intercalate ((unterminatedLinesFrom line cs).map fun l => ' ' :: ' ' :: l) =
      ' ' :: ' ' :: (line.reverse ++ shift cs) := by
  induction cs generalizing line with
  | nil =>
    have hline : line.isEmpty = false := by simpa using hne
    rw [unterminatedLinesFrom, hline]
    simp [shift]
  | cons c cs ih =>
    rw [unterminatedLinesFrom]
    split
    · next hc =>
      subst hc
      have hcs : cs ≠ [] := by
        rintro rfl
        exact hlast '\n' rfl rfl
      have hdrop : dropReturn line.reverse = line.reverse := by
        rw [dropReturn, if_neg]
        intro hreturn
        exact (List.isChain_append.mp hchain).2.2 '\r' hreturn '\n' rfl ⟨rfl, rfl⟩
      have htail : (([] : List Char).reverse ++ cs).IsChain NoBreak :=
        (List.isChain_append.mp hchain).2.1.tail
      have hrest := ih (by simpa using hcs) htail fun d hd => hlast d (by
        rw [List.getLast?_cons_of_ne_nil hcs]
        exact hd)
      obtain ⟨l, ls, hlines⟩ : ∃ l ls, unterminatedLinesFrom [] cs = l :: ls := by
        cases h : unterminatedLinesFrom [] cs with
        | nil =>
          rw [h] at hrest
          cases hrest
        | cons l ls => exact ⟨l, ls, rfl⟩
      rw [hlines, List.map_cons] at hrest
      rw [hlines, hdrop, List.map_cons, List.map_cons, List.intercalate_cons_cons, hrest]
      simp [shift]
    · next hc =>
      have hmoved : ((c :: line).reverse ++ cs).IsChain NoBreak := by simpa using hchain
      rw [ih (by simp) hmoved fun d hd => hlast d (by
        cases cs with
        | nil => cases hd
        | cons e cs => simpa using hd)]
      simp [shift, hc]

theorem Neat.indent (h : Neat cs) : indent cs = ' ' :: ' ' :: shift cs := by
  obtain ⟨c, hc, hn⟩ := h.ends
  refine @intercalate_lines cs [] ?_ h.linked.chain fun d hd => ?_
  · rintro rfl
    cases hc
  · obtain rfl : c = d := Option.some.inj (hc.symm.trans hd)
    exact hn

theorem neat_intercalate {lines : List (List Char)} (hne : lines ≠ []) (h : ∀ l ∈ lines, Neat l) :
    Neat (['\n'].intercalate lines) := by
  induction lines with
  | nil => exact absurd rfl hne
  | cons l lines ih =>
    cases lines with
    | nil => simpa using h l (by simp)
    | cons m lines =>
      rw [List.intercalate_cons_cons]
      refine ((h l (by simp)).linked.append linked_feed).append_neat (ih (by simp) fun x hx => h x ?_)
      exact List.mem_cons_of_mem l hx

theorem shift_intercalate {lines : List (List Char)} (hne : lines ≠ []) :
    margin 1 ++ shift (['\n'].intercalate lines) = lines.flatMap fun l => margin 1 ++ shift l := by
  induction lines with
  | nil => exact absurd rfl hne
  | cons l lines ih =>
    cases lines with
    | nil => simp
    | cons m lines =>
      have hfeed : shift ['\n'] = margin 1 := rfl
      rw [List.intercalate_cons_cons, List.flatMap_cons, ← ih (by simp), shift_append, shift_append, hfeed]
      simp

/-- The lines of a block, each at its depth. -/
theorem block_eq (head : List Char) {lines : List (List Char)} (hne : lines ≠ []) (h : ∀ l ∈ lines, Neat l) :
    block head lines = '(' :: head ++ lines.flatMap (fun l => margin 1 ++ shift l) ++ [')'] := by
  rw [block, (neat_intercalate hne h).indent, ← shift_intercalate hne]
  simp [margin]

end

/-! ## The text of an outline at its depth -/

section
variable {o : Outline} {items : List Outline} {fields : List (String × Outline)}

theorem spreadItems_eq (depth : Nat) (items : List Outline) :
    spreadItems depth items = items.flatMap fun o => margin depth ++ spread depth o := by
  induction items with
  | nil => rfl
  | cons o items ih => rw [spreadItems, ih, List.flatMap_cons]

theorem spreadFields_eq (depth : Nat) (fields : List (String × Outline)) : spreadFields depth fields =
    fields.flatMap fun f => margin depth ++ (f.1.toList ++ ':' :: ' ' :: spread depth f.2) := by
  induction fields with
  | nil => rfl
  | cons f fields ih =>
    obtain ⟨key, value⟩ := f
    rw [spreadFields, ih, List.flatMap_cons]

theorem layoutItems_eq (items : List Outline) : layoutItems items = items.map layout := by
  induction items with
  | nil => rfl
  | cons o items ih => rw [layoutItems, ih, List.map_cons]

theorem layoutFields_eq (fields : List (String × Outline)) :
    layoutFields fields = fields.map fun f => f.1.toList ++ ':' :: ' ' :: layout f.2 := by
  induction fields with
  | nil => rfl
  | cons f fields ih =>
    obtain ⟨key, value⟩ := f
    rw [layoutFields, ih, List.map_cons]

theorem linked_flatMap {α : Type} {as : List α} {f : α → List Char} (h : ∀ a ∈ as, Linked (f a)) :
    Linked (as.flatMap f) := by
  induction as with
  | nil => exact .nil
  | cons a as ih =>
    rw [List.flatMap_cons]
    exact (h a (by simp)).append (ih fun b hb => h b (List.mem_cons_of_mem a hb))

theorem Neat.enclosed {cs : List Char} (h : Linked cs) : Neat ('(' :: cs ++ [')']) := by
  have hopen : Linked ['('] := ⟨.singleton _, by simp⟩
  exact (hopen.append h).append_neat ⟨⟨.singleton _, by simp⟩, ')', rfl, by decide⟩

theorem linked_separator : Linked [':', ' '] := .of_notMem (by simp) (by simp)

/-- The text of a legible outline is cut into lines without loss. -/
theorem Legible.neat (h : Legible o) (depth : Nat) : Neat (spread depth o) := by
  induction h generalizing depth with
  | atom h => exact h.neat
  | list _ ih =>
    rw [spread, spreadItems_eq]
    exact .enclosed (linked_flatMap fun o ho => (linked_margin _).append (ih o ho _).linked)
  | node hname hkeys _ ih =>
    rw [spread, spreadFields_eq]
    refine .enclosed (hname.linked.append (linked_flatMap fun f hf => (linked_margin _).append ?_))
    exact (hkeys f hf).linked.append (linked_separator.append (ih f hf _).linked)

theorem shift_field {key : List Char} (h : IsKey key) (cs : List Char) :
    shift (key ++ ':' :: ' ' :: cs) = key ++ ':' :: ' ' :: shift cs := by
  rw [shift_append, shift_of_notMem h.notMem]
  simp [shift]

/-- A legible outline one step further in has the same lines further in. -/
theorem Legible.shift_spread (h : Legible o) (depth : Nat) : shift (spread depth o) = spread (depth + 1) o := by
  induction h generalizing depth with
  | atom h => exact shift_of_notMem h.notMem
  | @list items _ ih =>
    rw [spread, spread, shift_enclosed, spreadItems_eq, spreadItems_eq, shift_flatMap]
    refine congrArg (fun cs => '(' :: cs ++ [')']) (List.flatMap_congr fun o ho => ?_)
    rw [shift_append, shift_margin, ih o ho]
  | @node name fields hname hkeys _ ih =>
    rw [spread, spread, List.cons_append, shift_enclosed, shift_append, shift_of_notMem hname.notMem, spreadFields_eq,
      spreadFields_eq, shift_flatMap]
    refine congrArg (fun cs => '(' :: (name.toList ++ cs) ++ [')']) (List.flatMap_congr fun f hf => ?_)
    rw [shift_append, shift_margin, shift_field (hkeys f hf), ih f hf]

/-- Laying out a legible outline writes each line at its depth. -/
theorem Legible.layout_eq_spread (h : Legible o) : layout o = spread 0 o := by
  induction h with
  | atom _ => rfl
  | @list items h ih =>
    rw [spread, spreadItems_eq]
    cases items with
    | nil => rfl
    | cons o items =>
      have hlines : layoutItems (o :: items) = (o :: items).map (spread 0) := by
        rw [layoutItems_eq]
        exact List.map_congr_left ih
      show block [] (layoutItems (o :: items)) = _
      rw [hlines, block_eq [] (by simp) (by simpa using ⟨(h o (by simp)).neat 0, fun x hx => (h x (by simp [hx])).neat 0⟩),
        List.flatMap_map]
      refine congrArg (fun cs => '(' :: cs ++ [')']) (List.flatMap_congr fun x hx => ?_)
      rw [(h x hx).shift_spread]
  | @node name fields hname hkeys hvalues ih =>
    rw [spread, spreadFields_eq]
    cases fields with
    | nil => simp [layout]
    | cons f fields =>
      have hlines : layoutFields (f :: fields) = (f :: fields).map fun f => f.1.toList ++ ':' :: ' ' :: spread 0 f.2 := by
        rw [layoutFields_eq]
        exact List.map_congr_left fun x hx => by rw [ih x hx]
      have hneat : ∀ l ∈ (f :: fields).map (fun f => f.1.toList ++ ':' :: ' ' :: spread 0 f.2), Neat l := by
        intro l hl
        obtain ⟨x, hx, rfl⟩ := List.mem_map.mp hl
        exact (hkeys x hx).linked.append_neat (linked_separator.append_neat ((hvalues x hx).neat 0))
      show block name.toList (layoutFields (f :: fields)) = _
      rw [hlines, block_eq name.toList (by simp) hneat, List.flatMap_map]
      refine congrArg (fun cs => '(' :: name.toList ++ cs ++ [')']) (List.flatMap_congr fun x hx => ?_)
      rw [shift_field (hkeys x hx), (hvalues x hx).shift_spread]

end

/-! ## Reading an outline off its text -/

/-- Whether a text is some closing parentheses and then the end or a line feed. -/
def Closes (r : List Char) : Prop :=
  ∃ n rest, r = List.replicate n ')' ++ rest ∧ ∀ c ∈ rest.head?, c = '\n'

section
variable {r r' u u' rest rest' : List Char} {depth : Nat}

theorem closes_nil : Closes [] := ⟨0, [], rfl, by simp⟩

theorem closes_feed (r : List Char) : Closes ('\n' :: r) := ⟨0, '\n' :: r, rfl, by simp⟩

theorem Closes.cons (h : Closes r) : Closes (')' :: r) := by
  obtain ⟨n, rest, rfl, hrest⟩ := h
  exact ⟨n + 1, rest, rfl, hrest⟩

/-- Two texts of one kind of characters before others of another kind. -/
theorem append_inj_of_stop {p : Char → Bool} (hu : u.all p = true) (hu' : u'.all p = true)
    (hr : ∀ c ∈ r.head?, p c = false) (hr' : ∀ c ∈ r'.head?, p c = false) (h : u ++ r = u' ++ r') :
    u = u' ∧ r = r' := by
  obtain ⟨htake, hdrop⟩ := takeWhile_append_of_stop r hu hr
  obtain ⟨htake', hdrop'⟩ := takeWhile_append_of_stop r' hu' hr'
  rw [h] at htake hdrop
  exact ⟨htake.symm.trans htake', hdrop.symm.trans hdrop'⟩

/-- The closing parentheses at the end of a text are determined. -/
theorem append_replicate_inj {n m : Nat} (hu : ∀ c ∈ u.getLast?, c ≠ ')') (hu' : ∀ c ∈ u'.getLast?, c ≠ ')')
    (h : u ++ List.replicate n ')' = u' ++ List.replicate m ')') : u = u' ∧ n = m := by
  induction n generalizing m with
  | zero =>
    cases m with
    | zero => exact ⟨by simpa using h, rfl⟩
    | succ m =>
      rw [List.replicate_zero, List.append_nil] at h
      have hlast : ')' ∈ u.getLast? := by
        rw [h, List.replicate_succ', ← List.append_assoc]
        exact List.getLast?_concat
      exact absurd rfl (hu _ hlast)
  | succ n ih =>
    cases m with
    | zero =>
      rw [List.replicate_zero, List.append_nil] at h
      have hlast : ')' ∈ u'.getLast? := by
        rw [← h, List.replicate_succ', ← List.append_assoc]
        exact List.getLast?_concat
      exact absurd rfl (hu' _ hlast)
    | succ m =>
      rw [List.replicate_succ', List.replicate_succ', ← List.append_assoc, ← List.append_assoc] at h
      obtain ⟨rfl, rfl⟩ := ih (List.append_cancel_right h)
      exact ⟨rfl, rfl⟩

/-- The number of closing parentheses at the end of an atom, by what stands before them. -/
def enclosures (u : List Char) : Nat := if u.head? = some '(' then 1 else 0

/-- An atom is a text on a line without closing parentheses at its end, and then those that belong to it. -/
theorem IsAtom.exists_eq {a : List Char} (h : IsAtom a) : ∃ u, a = u ++ List.replicate (enclosures u) ')' ∧
    '\n' ∉ u ∧ ∀ c ∈ u.getLast?, c ≠ ')' := by
  cases h with
  | plain h hfirst hlast =>
    obtain ⟨c, hc, hne⟩ := hfirst
    refine ⟨a, ?_, h, fun c hc he => hlast c hc (by simp [he])⟩
    rw [enclosures, if_neg, List.replicate_zero, List.append_nil]
    rw [Option.mem_def.mp hc]
    simpa using hne
  | @enclosed cs h =>
    obtain ⟨c, hc, -⟩ := h.first
    have hne : cs ≠ [] := by
      rintro rfl
      cases hc
    refine ⟨'(' :: cs, rfl, by simpa using h.line, fun d hd he => h.last d ?_ (by simp [he])⟩
    rwa [List.getLast?_cons_of_ne_nil hne] at hd

/-- An atom is read off the front of a text. -/
theorem IsAtom.append_inj {a a' : List Char} (h : IsAtom a) (h' : IsAtom a') (hr : Closes r) (hr' : Closes r')
    (he : a ++ r = a' ++ r') : a = a' ∧ r = r' := by
  obtain ⟨u, rfl, hline, hlast⟩ := h.exists_eq
  obtain ⟨u', rfl, hline', hlast'⟩ := h'.exists_eq
  obtain ⟨n, rest, rfl, hrest⟩ := hr
  obtain ⟨n', rest', rfl, hrest'⟩ := hr'
  have hall : ∀ {v : List Char} (k : Nat), '\n' ∉ v → (v ++ List.replicate k ')').all (· ≠ '\n') = true := by
    intro v k hv
    rw [List.all_eq_true]
    intro c hc
    rcases List.mem_append.mp hc with hc | hc
    · exact decide_eq_true fun h => hv (h ▸ hc)
    · rw [List.eq_of_mem_replicate hc]
      decide
  -- first the lines are the same, then what stands before the closing parentheses
  have hlines : (u ++ List.replicate (enclosures u + n) ')') ++ rest = (u' ++ List.replicate (enclosures u' + n') ')') ++ rest' := by
    rw [List.replicate_add, List.replicate_add]
    simpa only [List.append_assoc] using he
  have hstop : ∀ {t : List Char}, (∀ c ∈ t.head?, c = '\n') → ∀ c ∈ t.head?, decide (c ≠ '\n') = false :=
    fun h c hc => decide_eq_false fun hne => hne (h c hc)
  obtain ⟨hsame, rfl⟩ := append_inj_of_stop (hall _ hline) (hall _ hline') (hstop hrest) (hstop hrest') hlines
  obtain ⟨rfl, hn⟩ := append_replicate_inj hlast hlast' hsame
  obtain rfl : n = n' := Nat.add_left_cancel hn
  exact ⟨rfl, rfl⟩

/-- No atom begins like a block. -/
theorem IsAtom.ne_block {a head body : List Char} (h : IsAtom a) (hhead : ∀ c ∈ head, isKeyChar c = true)
    (hbody : ∃ c ∈ body.head?, c = ')' ∨ c = '\n') : a ++ r ≠ '(' :: (head ++ body) := by
  intro he
  cases h with
  | plain _ hfirst _ =>
    obtain ⟨c, hc, hne⟩ := hfirst
    obtain ⟨cs, rfl⟩ := List.head?_eq_some_iff.mp (Option.mem_def.mp hc)
    exact hne (List.cons.inj he).1
  | @enclosed cs h =>
    obtain ⟨c, hc, hkey, hparen⟩ := h.first
    obtain ⟨cs, rfl⟩ := List.head?_eq_some_iff.mp (Option.mem_def.mp hc)
    obtain ⟨d, hd, hor⟩ := hbody
    obtain ⟨ds, rfl⟩ := List.head?_eq_some_iff.mp (Option.mem_def.mp hd)
    have htail : c :: (cs ++ [')'] ++ r) = head ++ d :: ds := by simpa using he
    cases head with
    | nil =>
      obtain ⟨rfl, -⟩ := List.cons.inj htail
      rcases hor with rfl | rfl
      · simp at hparen
      · exact h.line (by simp)
    | cons e head =>
      obtain ⟨rfl, -⟩ := List.cons.inj htail
      exact absurd (hhead c (by simp)) (by simp [hkey])

/-- What follows the name in a block. -/
theorem head?_spreadItems (items : List Outline) (r : List Char) :
    ∃ c ∈ (spreadItems depth items ++ ')' :: r).head?, c = ')' ∨ c = '\n' := by
  cases items with
  | nil => exact ⟨')', rfl, .inl rfl⟩
  | cons o items => exact ⟨'\n', rfl, .inr rfl⟩

theorem head?_spreadFields (fields : List (String × Outline)) (r : List Char) :
    ∃ c ∈ (spreadFields depth fields ++ ')' :: r).head?, c = ')' ∨ c = '\n' := by
  cases fields with
  | nil => exact ⟨')', rfl, .inl rfl⟩
  | cons f fields =>
    obtain ⟨key, value⟩ := f
    exact ⟨'\n', rfl, .inr rfl⟩

/-- What follows an item in a block. -/
theorem closes_of_head? (hr : Closes r) {body : List Char} (hbody : body = [] ∨ body.head? = some '\n') :
    Closes (body ++ ')' :: r) := by
  rcases hbody with rfl | hbody
  · exact hr.cons
  · obtain ⟨cs, rfl⟩ := List.head?_eq_some_iff.mp hbody
    exact closes_feed _

/-- Whether an outline is determined by its text before any closing. -/
def Determined (o : Outline) : Prop := ∀ depth o' r r', Legible o' → Closes r → Closes r' →
  spread depth o ++ r = spread depth o' ++ r' → o = o' ∧ r = r'

theorem spreadItems_inj {items items' : List Outline} (h : ∀ o ∈ items, Determined o)
    (h' : ∀ o ∈ items', Legible o) (hr : Closes r) (hr' : Closes r')
    (he : spreadItems depth items ++ ')' :: r = spreadItems depth items' ++ ')' :: r') :
    items = items' ∧ r = r' := by
  induction items generalizing items' with
  | nil =>
    cases items' with
    | nil => exact ⟨rfl, (List.cons.inj he).2⟩
    | cons o' items' => exact absurd (List.cons.inj he).1 (by decide)
  | cons o items ih =>
    cases items' with
    | nil => exact absurd (List.cons.inj he).1 (by decide)
    | cons o' items' =>
      simp only [spreadItems, List.append_assoc] at he
      have hcloses : ∀ (items : List Outline) {r : List Char}, Closes r → Closes (spreadItems depth items ++ ')' :: r) := by
        intro items r hr
        refine closes_of_head? hr ?_
        cases items with
        | nil => exact .inl rfl
        | cons o items => exact .inr rfl
      obtain ⟨rfl, hrest⟩ := h o (by simp) depth o' _ _ (h' o' (by simp)) (hcloses items hr) (hcloses items' hr')
        (List.append_cancel_left he)
      obtain ⟨rfl, rfl⟩ := ih (fun x hx => h x (List.mem_cons_of_mem o hx))
        (fun x hx => h' x (List.mem_cons_of_mem o hx)) hrest
      exact ⟨rfl, rfl⟩

theorem IsKey.all {cs : List Char} (h : IsKey cs) : cs.all isKeyChar = true := List.all_eq_true.mpr h.2

theorem spreadFields_inj {fields fields' : List (String × Outline)} (hkeys : ∀ f ∈ fields, IsKey f.1.toList)
    (h : ∀ f ∈ fields, Determined f.2) (hkeys' : ∀ f ∈ fields', IsKey f.1.toList)
    (h' : ∀ f ∈ fields', Legible f.2) (hr : Closes r) (hr' : Closes r')
    (he : spreadFields depth fields ++ ')' :: r = spreadFields depth fields' ++ ')' :: r') :
    fields = fields' ∧ r = r' := by
  induction fields generalizing fields' with
  | nil =>
    cases fields' with
    | nil => exact ⟨rfl, (List.cons.inj he).2⟩
    | cons f' fields' =>
      obtain ⟨key', value'⟩ := f'
      exact absurd (List.cons.inj he).1 (by decide)
  | cons f fields ih =>
    obtain ⟨key, value⟩ := f
    cases fields' with
    | nil => exact absurd (List.cons.inj he).1 (by decide)
    | cons f' fields' =>
      obtain ⟨key', value'⟩ := f'
      simp only [spreadFields, List.append_assoc] at he
      have hcloses : ∀ (fields : List (String × Outline)) {r : List Char}, Closes r →
          Closes (spreadFields depth fields ++ ')' :: r) := by
        intro fields r hr
        refine closes_of_head? hr ?_
        cases fields with
        | nil => exact .inl rfl
        | cons f fields =>
          obtain ⟨key, value⟩ := f
          exact .inr rfl
      obtain ⟨hkey, hvalue⟩ := append_inj_of_stop (hkeys (key, value) (by simp)).all (hkeys' (key', value') (by simp)).all
        (by simp [isKeyChar]) (by simp [isKeyChar]) (List.append_cancel_left he)
      obtain rfl : key = key' := String.toList_inj.mp hkey
      obtain ⟨rfl, hrest⟩ := h (key, value) (by simp) depth value' _ _ (h' (key, value') (by simp)) (hcloses fields hr)
        (hcloses fields' hr') (List.cons.inj (List.cons.inj hvalue).2).2
      obtain ⟨rfl, rfl⟩ := ih (fun x hx => hkeys x (List.mem_cons_of_mem _ hx)) (fun x hx => h x (List.mem_cons_of_mem _ hx))
        (fun x hx => hkeys' x (List.mem_cons_of_mem _ hx)) (fun x hx => h' x (List.mem_cons_of_mem _ hx)) hrest
      exact ⟨rfl, rfl⟩

/-- No name or key goes on after a block's name. -/
theorem stop_of_head? {body : List Char} (h : ∃ c ∈ body.head?, c = ')' ∨ c = '\n') :
    ∀ c ∈ body.head?, isKeyChar c = false := by
  obtain ⟨c, hc, hor⟩ := h
  intro d hd
  obtain rfl : c = d := Option.some.inj (hc.symm.trans hd)
  rcases hor with rfl | rfl <;> decide

theorem spread_list_append (items : List Outline) (r : List Char) :
    spread depth (.list items) ++ r = '(' :: ([] ++ (spreadItems (depth + 1) items ++ ')' :: r)) := by
  simp [spread]

theorem spread_node_append (name : String) (fields : List (String × Outline)) (r : List Char) :
    spread depth (.node name fields) ++ r =
      '(' :: (name.toList ++ (spreadFields (depth + 1) fields ++ ')' :: r)) := by
  simp [spread]

/-- A list does not begin like a node. -/
theorem spread_list_ne_node {items : List Outline} {name : String} {fields : List (String × Outline)}
    (h : IsKey name.toList) : spread depth (.list items) ++ r ≠ spread depth (.node name fields) ++ r' := by
  rw [spread_list_append, spread_node_append]
  intro he
  obtain ⟨hname, -⟩ := append_inj_of_stop List.all_nil h.all (stop_of_head? (head?_spreadItems items r))
    (stop_of_head? (head?_spreadFields fields r')) (List.cons.inj he).2
  exact h.1 hname.symm

/-- A legible outline is determined by its text before any closing. -/
theorem Legible.spread_injective {o : Outline} (h : Legible o) : Determined o := by
  induction h with
  | @atom t h =>
    intro depth o' r r' h' hr hr' he
    cases h' with
    | @atom t' h' =>
      obtain ⟨ht, rfl⟩ := h.append_inj h' hr hr' he
      obtain rfl : t = t' := String.toList_inj.mp ht
      exact ⟨rfl, rfl⟩
    | list _ =>
      rw [spread_list_append] at he
      exact absurd he (h.ne_block (by simp) (head?_spreadItems _ _))
    | node hname _ _ =>
      rw [spread_node_append] at he
      exact absurd he (h.ne_block hname.2 (head?_spreadFields _ _))
  | @list items h ih =>
    intro depth o' r r' h' hr hr' he
    cases h' with
    | atom h' =>
      rw [spread_list_append] at he
      exact absurd he.symm (h'.ne_block (by simp) (head?_spreadItems _ _))
    | list h' =>
      rw [spread_list_append, spread_list_append] at he
      obtain ⟨rfl, rfl⟩ := spreadItems_inj ih h' hr hr' (List.cons.inj he).2
      exact ⟨rfl, rfl⟩
    | node hname' _ _ => exact absurd he (spread_list_ne_node hname')
  | @node name fields hname hkeys h ih =>
    intro depth o' r r' h' hr hr' he
    cases h' with
    | atom h' =>
      rw [spread_node_append] at he
      exact absurd he.symm (h'.ne_block hname.2 (head?_spreadFields _ _))
    | list _ => exact absurd he.symm (spread_list_ne_node hname)
    | @node name' fields' hname' hkeys' h' =>
      rw [spread_node_append, spread_node_append] at he
      obtain ⟨hnames, hfields⟩ := append_inj_of_stop hname.all hname'.all (stop_of_head? (head?_spreadFields _ _))
        (stop_of_head? (head?_spreadFields _ _)) (List.cons.inj he).2
      obtain rfl : name = name' := String.toList_inj.mp hnames
      obtain ⟨rfl, rfl⟩ := spreadFields_inj hkeys ih hkeys' h' hr hr' hfields
      exact ⟨rfl, rfl⟩

/-- Different legible outlines have different texts. -/
theorem layout_injective {o o' : Outline} (h : Legible o) (h' : Legible o') (he : o.layout = o'.layout) : o = o' := by
  rw [h.layout_eq_spread, h'.layout_eq_spread] at he
  exact (h.spread_injective 0 o' [] [] h' closes_nil closes_nil (congrArg (· ++ []) he)).1

end

end Outline

end LedgerQuery
