import LedgerQuery.Proofs.Lexing.Spelling
import LedgerQuery.Proofs.Tree.Conditions

/-!
# Scanning written forms

The written form of a well-formed tree is scanned as the tokens it is made of, but
for one exception.  An integer takes the point of an attribute after it, and the two
are read as a decimal.  Then there are fewer tokens than were written.

`Scanned` says this of some pieces.  It is put together as the pieces are
(`Scanned.append`), under conditions on two borders.

* Before the pieces stands a token that ends an operand or not.  A placeholder can only
  be read after one that does not.
* After the pieces stands a character that ends their last token (`Breaks`).
-/

namespace LedgerQuery

open Token

namespace Piece

/-- The characters of some pieces. -/
def chars (ps : List Piece) : List Char := (textOf ps).toList

@[simp] theorem chars_nil : chars [] = [] := rfl

@[simp] theorem chars_cons (p : Piece) (ps : List Piece) :
    chars (p :: ps) = p.text.toList ++ chars ps := by
  simp [chars, textOf, String.toList_join]

@[simp] theorem chars_append (ps qs : List Piece) : chars (ps ++ qs) = chars ps ++ chars qs := by
  simp [chars, textOf, String.toList_join]

end Piece

/-! ## Borders -/

/-- Whether a token is a parenthesis. -/
def Token.isParen : Token → Bool
  | .symbol .leftParen | .symbol .rightParen => true
  | _ => false

/-- The number of tokens that are no parentheses. -/
def weight (ts : List Token) : Nat := ts.countP (!·.isParen)

@[simp] theorem weight_nil : weight [] = 0 := rfl

@[simp] theorem weight_append (ts us : List Token) : weight (ts ++ us) = weight ts + weight us :=
  List.countP_append

/-- Whether a text that follows a written form ends its last token, whatever this is. -/
def Breaks (ds : List Char) : Prop := ∀ d ∈ ds.head?, d ∈ [' ', ')', ',', '[']

/-- Whether a text that follows a written form ends its last token, if this is no integer. -/
def Points (ds : List Char) : Prop := ∀ d ∈ ds.head?, d ∈ [' ', ')', ',', '[', '.']

theorem Breaks.points {ds : List Char} (h : Breaks ds) : Points ds := fun d hd => by
  have := h d hd
  simp only [List.mem_cons, List.not_mem_nil, or_false] at this ⊢
  rcases this with h | h | h | h <;> simp [h]

theorem Breaks.ends {ds : List Char} (h : Breaks ds) (t : Token) : t.Ends ds := fun d hd => by
  have := h d hd
  simp only [List.mem_cons, List.not_mem_nil, or_false] at this
  rcases this with rfl | rfl | rfl | rfl <;>
  · cases t with
    | placeholder p => cases p <;> rfl
    | symbol s => cases s <;> decide
    | _ => simp [endsBefore]; try decide

theorem Points.ends {ds : List Char} (h : Points ds) {t : Token} (ht : ∀ digits, t ≠ .integer digits) :
    t.Ends ds := fun d hd => by
  have := h d hd
  simp only [List.mem_cons, List.not_mem_nil, or_false] at this
  rcases this with rfl | rfl | rfl | rfl | rfl <;>
  · cases t with
    | placeholder p => cases p <;> rfl
    | symbol s => cases s <;> decide
    | integer digits => exact absurd rfl (ht digits)
    | _ => simp [endsBefore]; try decide

/-- Any token may stand before. -/
abbrev Anywhere : Bool → Prop := fun _ => True

/-- A token that does not end an operand stands before. -/
abbrev Outside : Bool → Prop := (· = false)

/-- Whether tokens are the ones that were written if a condition holds, and fewer if not. -/
def Shrinks (c : Prop) (us ts : List Token) : Prop :=
  (c → us = ts) ∧ (¬ c → weight us < weight ts)

theorem Shrinks.weight_le {c : Prop} {us ts : List Token} (h : Shrinks c us ts) :
    weight us ≤ weight ts := by
  by_cases hc : c
  · exact Nat.le_of_eq (congrArg weight (h.1 hc))
  · exact Nat.le_of_lt (h.2 hc)

/-- Whether pieces are scanned as their tokens if a condition holds, and as fewer if not.  They
stand after a token with one property and before a text with another, and this text is
scanned after a token with a third property. -/
def Scanned (c : Prop) (I : Bool → Prop) (ps : List Piece) (E : List Char → Prop)
    (O : Bool → Prop) : Prop :=
  ∃ us, Shrinks c us (Piece.tokens ps) ∧ ∀ ds ts, E ds → (∀ b, O b → Scans b ds ts) →
    ∀ b, I b → Scans b (Piece.chars ps ++ ds) (us ++ ts)

namespace Scanned

open Piece

variable {c c' : Prop} {I O O' : Bool → Prop} {E E' : List Char → Prop} {ps qs : List Piece}

/-! ## Putting pieces together -/

theorem congr (h : Scanned c I ps E O) (hc : c ↔ c') : Scanned c' I ps E O := by
  rwa [← propext hc]

/-- A stricter condition on what follows. -/
theorem before (h : Scanned c I ps E O) (hE : ∀ ds, E' ds → E ds) : Scanned c I ps E' O := by
  obtain ⟨us, hc, h⟩ := h
  exact ⟨us, hc, fun ds ts hd => h ds ts (hE ds hd)⟩

/-- A stricter condition on what stands before. -/
theorem outside (h : Scanned c Anywhere ps E O) : Scanned c I ps E O := by
  obtain ⟨us, hc, h⟩ := h
  exact ⟨us, hc, fun ds ts hd hs b _ => h ds ts hd hs b trivial⟩

theorem nil (h : ∀ b, I b → O b) : Scanned True I [] E O :=
  ⟨[], ⟨fun _ => rfl, fun h => absurd trivial h⟩, fun _ _ _ hs b hb => hs b (h b hb)⟩

theorem append (h : Scanned c I ps E O) (h' : Scanned c' O qs E' O')
    (hE : ∀ ds, E' ds → E (chars qs ++ ds)) : Scanned (c ∧ c') I (ps ++ qs) E' O' := by
  obtain ⟨us, ⟨heq, hlt⟩, h⟩ := h
  obtain ⟨vs, ⟨heq', hlt'⟩, h'⟩ := h'
  refine ⟨us ++ vs, ⟨?_, ?_⟩, fun ds ts hd hs b hb => ?_⟩
  · rintro ⟨hc, hc'⟩
    rw [heq hc, heq' hc', tokens_append]
  · intro hn
    have hle := Shrinks.weight_le ⟨heq, hlt⟩
    have hle' := Shrinks.weight_le ⟨heq', hlt'⟩
    rw [tokens_append, weight_append, weight_append]
    by_cases hc : c
    · have := hlt' fun hc' => hn ⟨hc, hc'⟩
      omega
    · have := hlt hc
      omega
  · rw [chars_append, List.append_assoc, List.append_assoc]
    exact h _ _ (hE ds hd) (fun b' hb' => h' ds ts hd hs b' hb') b hb

theorem cons {p : Piece} (h : Scanned True I [p] E O) (h' : Scanned c O ps E' O')
    (hE : ∀ ds, E' ds → E (chars ps ++ ds)) : Scanned c I (p :: ps) E' O' :=
  (h.append h' hE).congr (by simp)

theorem space : Scanned True I [Piece.space] E I := by
  refine ⟨[], ⟨fun _ => rfl, fun h => absurd trivial h⟩, fun ds ts _ hs b hb => ?_⟩
  exact (hs b hb).space

theorem token {t : Token} (hl : t.Legal) (hE : ∀ ds, E ds → t.Ends ds) (hO : O t.endsOperand)
    (hp : t.isPlaceholder = true → ∀ b, I b → b = false) : Scanned True I [Piece.token t] E O := by
  refine ⟨[t], ⟨fun _ => rfl, fun h => absurd trivial h⟩, fun ds ts hd hs b hb => ?_⟩
  rw [chars_cons, chars_nil, List.append_nil]
  exact (hs _ hO).token hl (hE ds hd) fun ht => hp ht b hb

/-! ## Single tokens -/

theorem keyword_legal (k : Keyword) : (Token.keyword k k.spelling).Legal :=
  ⟨by cases k <;> decide, k.lookup?_spelling⟩

theorem keyword {k : Keyword} (hO : O (Token.keyword k k.spelling).endsOperand) :
    Scanned True I [Piece.keyword k] Breaks O :=
  token (keyword_legal k) (fun _ h => h.ends _) hO (by simp [isPlaceholder])

/-- A symbol that stands before any text. -/
theorem symbol {s : Symbol} (hs : s ∉ [Symbol.dot, .slash, .percent, .less, .greater])
    (hO : O (Token.symbol s).endsOperand) : Scanned True I [Piece.symbol s] E O := by
  refine token trivial (fun ds _ d _ => ?_) hO (by simp [isPlaceholder])
  cases s <;> first | rfl | simp at hs

theorem isPlaceholder_ofWord (word : String) : (Token.ofWord word).isPlaceholder = false := by
  unfold Token.ofWord
  split <;> rfl

theorem ends_ofWord {word : String} {ds : List Char} (h : ∀ d ∈ ds.head?, isWordChar d = false) :
    (Token.ofWord word).Ends ds := by
  intro d hd
  unfold Token.ofWord
  split <;> simp [endsBefore, h d hd]

theorem word {n : String} (hn : IsName n) (hE : ∀ ds, E ds → ∀ d ∈ ds.head?, isWordChar d = false) :
    Scanned True I [Piece.word n] E Anywhere :=
  token (legal_ofWord hn.1) (fun ds hd => ends_ofWord (hE ds hd)) trivial
    (by simp [isPlaceholder_ofWord])

theorem Points.not_wordChar {ds : List Char} (h : Points ds) : ∀ d ∈ ds.head?, isWordChar d = false := by
  intro d hd
  have := h d hd
  simp only [List.mem_cons, List.not_mem_nil, or_false] at this
  rcases this with rfl | rfl | rfl | rfl | rfl <;> decide

theorem isPlaceholder_literal (l : Literal) : l.token.isPlaceholder = false := by
  cases l with
  | boolean b => cases b <;> rfl
  | _ => rfl

theorem literal {l : Literal} (h : l.Writable) :
    Scanned True I [Piece.token l.token] Breaks Anywhere :=
  token h.token_legal (fun _ hd => hd.ends _) trivial (by simp [isPlaceholder_literal])

theorem number {n : UInt64} : Scanned True I [Piece.number n] Breaks Anywhere := by
  refine token ?_ (fun _ hd => hd.ends _) trivial (by simp [isPlaceholder])
  show (toString n.toNat).toList ≠ [] ∧ (toString n.toNat).toList.all Char.isDigit = true
  rw [toList_toString]
  exact ⟨Nat.toDigits_ne_nil, List.all_eq_true.mpr fun _ => isDigit_of_mem_numeral⟩

theorem date {d : Date} (h : 0 ≤ d.year ∧ d.year ≤ 9999) :
    Scanned True I [Piece.token (.date d.text)] Breaks Anywhere :=
  token (d.legal_text h) (fun _ hd => hd.ends _) trivial (by simp [isPlaceholder])

theorem legal_enclosing {value : String} (h : IsQuotable value) :
    (Token.string (.enclosing value)).Legal := by
  show (StringLiteral.enclosing value).quote.char ∉ value.toList
  unfold StringLiteral.enclosing
  by_cases hq : '\'' ∈ value.toList
  · rw [if_pos hq]
    exact h.resolve_left fun hn => hn hq
  · rw [if_neg hq]
    exact hq

theorem quoted {value : String} (h : IsQuotable value) :
    Scanned True I [Piece.token (.string (.enclosing value))] E Anywhere :=
  token (legal_enclosing h) (fun _ _ _ _ => rfl) trivial (by simp [isPlaceholder])

/-! ## Groups of pieces -/

theorem breaks_of_mem (d : Char) {ds : List Char} (h : d ∈ [' ', ')', ',', '[']) :
    Breaks (d :: ds) := by
  intro d' hd
  obtain rfl : d = d' := by simpa using hd
  exact h

theorem breaks_space (ps : List Piece) (ds : List Char) :
    Breaks (chars (Piece.space :: ps) ++ ds) := by
  rw [chars_cons]
  exact breaks_of_mem ' ' (by simp)

theorem parenthesised (h : Scanned c Outside ps Breaks Anywhere) :
    Scanned c I (Piece.parenthesised ps) E Anywhere := by
  have hclose : Scanned True Anywhere [Piece.symbol .rightParen] E Anywhere :=
    symbol (by simp) trivial
  exact cons (symbol (E := fun _ => True) (O := Outside) (by simp) rfl)
    ((h.append hclose fun _ _ => breaks_of_mem ')' (by simp)).congr (iff_of_eq (and_true c)))
    fun _ _ => trivial

/-- Items with a separator between that begins with a character that ends an item. -/
theorem intercalate {α : Type} {s : List Piece} (items : List α) {f : α → List Piece}
    {c : α → Prop} (hsep : Scanned True Anywhere s (fun _ => True) Outside)
    (hE : ∀ ds, Breaks (chars s ++ ds)) (h : ∀ a ∈ items, Scanned (c a) Outside (f a) Breaks Anywhere) :
    Scanned (∀ a ∈ items, c a) Outside (s.intercalate (items.map f)) Breaks Anywhere := by
  induction items with
  | nil => exact (nil fun _ _ => trivial).congr (by simp)
  | cons a items ih =>
    rw [List.forall_mem_cons] at h
    cases items with
    | nil =>
      rw [List.map_cons, List.map_nil, List.intercalate_singleton]
      exact h.1.congr (by simp)
    | cons b items =>
      rw [List.map_cons, List.map_cons, List.intercalate_cons_cons, List.append_assoc]
      have hrest := (hsep.append (ih h.2) fun _ _ => trivial).congr (iff_of_eq (true_and _))
      refine (h.1.append hrest fun ds _ => ?_).congr (by simp)
      rw [chars_append, List.append_assoc]
      exact hE _

theorem commaSeparated {α : Type} (items : List α) {f : α → List Piece} {c : α → Prop}
    (h : ∀ a ∈ items, Scanned (c a) Outside (f a) Breaks Anywhere) :
    Scanned (∀ a ∈ items, c a) Outside (Piece.commaSeparated (items.map f)) Breaks Anywhere :=
  intercalate items (cons (symbol (E := fun _ => True) (O := Outside) (by simp) rfl) space
    fun _ _ => trivial) (fun _ => breaks_of_mem ',' (by simp)) h

theorem clause {k : Keyword} (hk : (Token.keyword k k.spelling).endsOperand = false)
    (h : Scanned c Outside ps E O) : Scanned c Anywhere (Piece.clause k ps) E O :=
  cons (space (E := fun _ => True)) (cons (keyword (O := Outside) hk)
    (cons (space (E := fun _ => True)) h fun _ _ => trivial) fun _ _ => breaks_space _ _)
    fun _ _ => trivial

/-- Keywords and symbols with spaces between. -/
theorem spaced {xs : List Terminal} (hO : ∀ x ∈ xs, ∀ t, Piece.terminal x = Piece.token t →
      O t.endsOperand) (hne : xs ≠ []) :
    Scanned True Anywhere (Piece.spaced xs) Breaks O := by
  have single : ∀ {O : Bool → Prop} x, (∀ t, Piece.terminal x = Piece.token t → O t.endsOperand) →
      Scanned True Anywhere [Piece.terminal x] Breaks O := by
    intro O x hx
    cases x with
    | keyword k => exact keyword (hx _ rfl)
    | symbol s => exact token trivial (fun _ hd => hd.ends _) (hx _ rfl) (by simp [isPlaceholder])
  induction xs with
  | nil => exact absurd rfl hne
  | cons x xs ih =>
    rw [List.forall_mem_cons] at hO
    cases xs with
    | nil => exact single x hO.1
    | cons y xs =>
      have hrest := ih hO.2 (by simp)
      exact cons (single (O := Anywhere) x fun _ _ => trivial)
        (cons (space (E := fun _ => True)) hrest fun _ _ => trivial) fun _ _ => breaks_space _ _

end Scanned

end LedgerQuery
