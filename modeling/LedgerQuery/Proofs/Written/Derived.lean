import LedgerQuery.Proofs.Phrase.Place
import LedgerQuery.Proofs.Tree.Conditions
import LedgerQuery.Proofs.Tree.Levels

/-!
# Written expressions are expressions of the grammar

The tokens of a written expression derive the expression, in the grammar with
subselects in parentheses, as long as the grammar has the levels that the expression
needs.  The tree of the derivation may differ in the spans of its targets.

`Derived` says so of an expression, given the same of its parts.  Where an expression
stands at a place that asks for more strength, it is in parentheses, and these take one
more level (`Derived.place`).
-/

namespace LedgerQuery

open Token Piece

variable {u v w : List Lexeme} {ps qs : List Piece}

/-! ## Runs of lexemes for pieces -/

/-- Whether a run of lexemes has the tokens of some pieces. -/
def Spelled (ps : List Piece) (u : List Lexeme) : Prop := u.map Lexeme.token = tokens ps

namespace Spelled

theorem nil_iff : Spelled [] u ↔ u = [] := by
  simp [Spelled]

theorem token_iff {t : Token} :
    Spelled (token t :: ps) u ↔ ∃ l v, u = l :: v ∧ l.token = t ∧ Spelled ps v := by
  simp [Spelled, List.map_eq_cons_iff]

theorem space_iff : Spelled (space :: ps) u ↔ Spelled ps u := Iff.rfl

theorem append_iff :
    Spelled (ps ++ qs) u ↔ ∃ v w, u = v ++ w ∧ Spelled ps v ∧ Spelled qs w := by
  simp only [Spelled, tokens_append, List.map_eq_append_iff]

theorem symbol_iff {s : Symbol} :
    Spelled (symbol s :: ps) u ↔ ∃ l v, u = l :: v ∧ l.token.is (.symbol s) = true ∧ Spelled ps v := by
  rw [Piece.symbol, token_iff]
  simp only [is_symbol_iff]

theorem keyword {k : Keyword} (h : Spelled (Piece.keyword k :: ps) u) :
    ∃ l v, u = l :: v ∧ l.token.is (.keyword k) = true ∧ Spelled ps v := by
  obtain ⟨l, v, rfl, hl, hv⟩ := token_iff.mp h
  exact ⟨l, v, rfl, is_keyword_iff.mpr ⟨_, hl⟩, hv⟩

theorem one {t : Token} (h : Spelled [token t] u) : ∃ l, u = [l] ∧ l.token = t := by
  obtain ⟨l, v, rfl, hl, hv⟩ := token_iff.mp h
  obtain rfl := nil_iff.mp hv
  exact ⟨l, rfl, hl⟩

theorem name?_ofWord {n : String} (h : IsName n) : (Token.ofWord n).name? = some n := by
  unfold Token.ofWord
  split
  · next k hk => simp [name?, h.2 k hk]
  · rfl

theorem word {n : String} (hn : IsName n) (h : Spelled (Piece.word n :: ps) u) :
    ∃ l v, u = l :: v ∧ l.token.name? = some n ∧ Spelled ps v := by
  obtain ⟨l, v, rfl, hl, hv⟩ := token_iff.mp h
  exact ⟨l, v, rfl, by rw [hl, name?_ofWord hn], hv⟩

theorem name {n : String} (hn : IsName n) (h : Spelled [Piece.word n] u) : Phrase.name u n := by
  obtain ⟨l, v, rfl, hl, hv⟩ := word hn h
  obtain rfl := nil_iff.mp hv
  exact ⟨l, rfl, hl⟩

theorem literal {a : Literal} (ha : a.Writable) (h : Spelled [token a.token] u) :
    Phrase.literal u a := by
  obtain ⟨l, rfl, hl⟩ := one h
  exact Phrase.literal_iff.mpr ⟨l, rfl, by rw [hl, ha.literal?_token]⟩

theorem number {n : UInt64} (h : Spelled [Piece.number n] u) : Phrase.count u n := by
  obtain ⟨l, rfl, hl⟩ := one h
  exact Phrase.count_iff.mpr ⟨l, _, rfl, hl, countOf_toString n⟩

theorem date {d : Date} (hd : 0 ≤ d.year ∧ d.year ≤ 9999) (h : Spelled [token (.date d.text)] u) :
    Phrase.date u d := by
  obtain ⟨l, rfl, hl⟩ := one h
  exact Phrase.date_iff.mpr ⟨l, _, rfl, hl, d.dateOf_text hd⟩

theorem stringValue {value : String} (h : Spelled [token (.string (.enclosing value))] u) :
    Phrase.stringValue u value := by
  obtain ⟨l, rfl, hl⟩ := one h
  exact Phrase.stringValue_iff.mpr ⟨l, _, rfl, hl, rfl⟩

theorem parenthesised (h : Spelled (Piece.parenthesised ps) u) :
    ∃ l v r, u = [l] ++ (v ++ [r]) ∧ l.token.is (.symbol .leftParen) = true ∧
      r.token.is (.symbol .rightParen) = true ∧ Spelled ps v := by
  obtain ⟨l, w, rfl, hl, hw⟩ := symbol_iff.mp h
  obtain ⟨v, x, rfl, hv, hx⟩ := append_iff.mp hw
  obtain ⟨r, y, rfl, hr, hy⟩ := symbol_iff.mp hx
  obtain rfl := nil_iff.mp hy
  exact ⟨l, v, r, rfl, hl, hr, hv⟩

theorem terminals {xs : List Terminal} (h : Spelled (Piece.spaced xs) u) : Phrase.terminals xs u := by
  induction xs generalizing u with
  | nil =>
    obtain rfl := nil_iff.mp h
    rfl
  | cons x xs ih =>
    have first : ∀ ps, Spelled (Piece.terminal x :: ps) u →
        ∃ l v, u = l :: v ∧ l.token.is x = true ∧ Spelled ps v := by
      intro ps h
      cases x with
      | keyword k => exact keyword h
      | symbol s => exact symbol_iff.mp h
    cases xs with
    | nil =>
      obtain ⟨l, v, rfl, hl, hv⟩ := first [] h
      obtain rfl := nil_iff.mp hv
      exact Phrase.terminals_one.mpr (Phrase.single hl)
    | cons y xs =>
      obtain ⟨l, v, rfl, hl, hv⟩ := first (space :: Piece.spaced (y :: xs)) h
      exact Phrase.terminals_cons.mpr ⟨l, v, rfl, hl, ih hv⟩

/-- Items with a separator of one terminal between. -/
theorem intercalate {α β γ : Type} {sep : List Piece} {x : Terminal} {L : Phrase β}
    {f : α → List Piece} (g : α → γ) (g' : β → γ) {a : α} {items : List α}
    (hsep : ∀ v, Spelled sep v → Phrase.terminal x v ())
    (h : ∀ b ∈ a :: items, ∀ v, Spelled (f b) v → ∃ c, g' c = g b ∧ L v c)
    (hu : Spelled (sep.intercalate ((a :: items).map f)) u) :
    ∃ c cs v w, u = v ++ w ∧ L v c ∧ Phrase.Many (do Phrase.terminal x; L) w cs ∧
      (c :: cs).map g' = (a :: items).map g := by
  induction items generalizing a u with
  | nil =>
    rw [List.map_cons, List.map_nil, List.intercalate_singleton] at hu
    obtain ⟨c, hc, hl⟩ := h a (by simp) u hu
    exact ⟨c, [], u, [], by simp, hl, .nil, by simp [hc]⟩
  | cons b items ih =>
    rw [List.map_cons, List.map_cons, List.intercalate_cons_cons, List.append_assoc] at hu
    obtain ⟨v, y, rfl, hv, hy⟩ := append_iff.mp hu
    obtain ⟨y, z, rfl, hyx, hz⟩ := append_iff.mp hy
    obtain ⟨c, hc, hl⟩ := h a (by simp) v hv
    obtain ⟨d, ds, v', w', rfl, hd, hds, hmap⟩ := ih (fun b hb => h b (List.mem_cons_of_mem _ hb)) hz
    refine ⟨c, d :: ds, v, y ++ (v' ++ w'), rfl, hl, ?_, by simp [hc, ← hmap]⟩
    rw [← List.append_assoc]
    exact .cons (Phrase.seq (hsep y hyx) hd) hds

theorem comma (h : Spelled [Piece.symbol .comma, space] u) : Phrase.terminal (.symbol .comma) u () := by
  obtain ⟨l, v, rfl, hl, hv⟩ := symbol_iff.mp h
  obtain rfl : v = [] := nil_iff.mp hv
  exact Phrase.single hl

/-- One or more items with commas between. -/
theorem commaList {α β γ : Type} {L : Phrase β} {f : α → List Piece} (g : α → γ) (g' : β → γ)
    {items : List α} (hne : items ≠ [])
    (h : ∀ a ∈ items, ∀ v, Spelled (f a) v → ∃ c, g' c = g a ∧ L v c)
    (hu : Spelled (commaSeparated (items.map f)) u) :
    ∃ cs, cs.map g' = items.map g ∧ Phrase.commaList L u cs := by
  obtain ⟨a, items, rfl⟩ := List.exists_cons_of_ne_nil hne
  obtain ⟨c, cs, v, w, rfl, hc, hcs, hmap⟩ := intercalate g g' (fun _ => comma) h hu
  exact ⟨c :: cs, hmap, Phrase.seq hc (Phrase.seq_pure hcs)⟩

/-- A part that may be missing. -/
theorem optional {α β γ : Type} {L : Phrase β} {f : α → List Piece} (g : α → γ) (g' : β → γ)
    {o : Option α} (h : ∀ a ∈ o, ∀ v, Spelled (f a) v → ∃ c, g' c = g a ∧ L v c)
    (hu : Spelled (ofOption f o) u) : ∃ o', o'.map g' = o.map g ∧ Phrase.optional L u o' := by
  cases o with
  | none => exact ⟨none, rfl, nil_iff.mp hu⟩
  | some a =>
    obtain ⟨c, hc, hl⟩ := h a rfl u hu
    exact ⟨some c, congrArg some hc, hl⟩

end Spelled

/-! ## Expressions at their places -/

/-- Whether the tokens of an expression derive it as its outermost construction, or in
parentheses if it is a subselect. -/
def Expr.Derived (e : Expr) : Prop :=
  ∀ k u, e.levels ≤ k → Spelled e.pieces u → ∃ e', e'.plain = e.plain ∧
    (Phrase.node (phrases .parenthesised k) u e' ∨
      (∃ s, e = .subselect s) ∧ Phrase.bracketed (phrases .parenthesised k) u e')

namespace Expr.Derived

variable {e : Expr} {k : Nat}

/-- An expression that binds as strongly as its place asks for. -/
theorem strong (h : e.Derived) {m : Nat} (hm : m ≤ e.strength) (hm' : m ≤ 7) (hk : e.levels ≤ k)
    (hu : Spelled e.pieces u) :
    ∃ e', e'.plain = e.plain ∧ Phrase.place (phrases .parenthesised k) m u e' := by
  obtain ⟨e', he, hn⟩ := h k u hk hu
  refine ⟨e', he, (Phrase.place_iff hm').mpr ?_⟩
  rcases hn with hn | ⟨-, hb⟩
  · exact .inr ⟨by rwa [strength_eq_of_plain he], hn⟩
  · exact .inl hb

/-- An expression one level deeper. -/
theorem expr (h : e.Derived) (hk : e.levels + 1 ≤ k) (hu : Spelled e.pieces u) :
    ∃ e', e'.plain = e.plain ∧ (phrases .parenthesised k).expr u e' := by
  obtain ⟨k, rfl⟩ : ∃ j, k = j + 1 := ⟨k - 1, by omega⟩
  exact h.strong (m := 1) e.strength_pos (by decide) (by omega) hu

/-- An expression in parentheses. -/
theorem grouped (h : e.Derived) (hk : e.levels + 1 ≤ k) (hu : Spelled (Piece.parenthesised e.pieces) u) :
    ∃ e', e'.plain = e.plain ∧ Phrase.bracketed (phrases .parenthesised k) u e' := by
  obtain ⟨l, v, r, rfl, hl, hr, hv⟩ := Spelled.parenthesised hu
  obtain ⟨e', he, hv⟩ := h.expr hk hv
  exact ⟨e', he, Phrase.oneOf_head (Phrase.seq (Phrase.single hl) (Phrase.seq hv
    (Phrase.seq_pure (Phrase.single hr))))⟩

/-- An expression at a place of an operator. -/
theorem place (h : e.Derived) {m : Nat} (hm : m ≤ 7) (hk : nesting e.strength m e.levels ≤ k)
    (hu : Spelled (guarded e.strength m e.pieces) u) :
    ∃ e', e'.plain = e.plain ∧ Phrase.place (phrases .parenthesised k) m u e' := by
  unfold guarded at hu
  unfold nesting at hk
  split at hu
  · next hlt =>
    rw [if_pos hlt] at hk
    obtain ⟨e', he, hb⟩ := h.grouped hk hu
    exact ⟨e', he, (Phrase.place_iff hm).mpr (.inl hb)⟩
  · next hle =>
    rw [if_neg hle] at hk
    exact h.strong (by omega) hm hk hu

/-- An expression at the place before a suffix. -/
theorem primary (h : e.Derived) (hs : e.Suffixable) (hk : e.levels ≤ k)
    (hu : Spelled (guarded e.strength 8 e.pieces) u) :
    ∃ e', e'.plain = e.plain ∧ Phrase.place (phrases .parenthesised k) 8 u e' := by
  rw [guarded, if_neg (by simp [hs.1])] at hu
  obtain ⟨e', he, hn⟩ := h k u hk hu
  refine ⟨e', he, Phrase.primary_iff.mpr ⟨by rw [strength_eq_of_plain he, hs.1], ?_⟩⟩
  exact hn.resolve_right fun ⟨⟨s, hs'⟩, _⟩ => hs.2 s hs'

end Expr.Derived

end LedgerQuery
