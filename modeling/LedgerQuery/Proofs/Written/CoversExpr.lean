import LedgerQuery.Proofs.Phrase.Opening
import LedgerQuery.Proofs.Tree.Levels
import LedgerQuery.Proofs.Written.Covers
import LedgerQuery.Proofs.Written.ScannedTree

/-!
# Runs that cover written expressions

A run that derives an expression covers its written form, also in the grammar with subselects
anywhere.  If the two are the same, the expression rereads and the grammar has the levels
that it needs.

The run of an operand has parentheses around what its outermost construction says
(`Phrase.place_wrapped`).  In the written form there are as many as the place asks for, and
one more pair for a subselect, which would otherwise not be told from a bare one.
-/

namespace LedgerQuery

open Token Piece

variable {u v w : List Lexeme} {k m : Nat}

/-- The tokens of a run. -/
def tokensOf (u : List Lexeme) : List Token := u.map Lexeme.token

@[simp] theorem tokensOf_nil : tokensOf [] = [] := rfl

@[simp] theorem tokensOf_cons (l : Lexeme) (u : List Lexeme) : tokensOf (l :: u) = l.token :: tokensOf u := rfl

@[simp] theorem tokensOf_append (u v : List Lexeme) : tokensOf (u ++ v) = tokensOf u ++ tokensOf v :=
  List.map_append

/-! ## Terminals and items -/

theorem Token.not_isParen_of_is {t : Token} {x : Terminal} (h : t.is x = true)
    (hl : x ≠ .symbol .leftParen) (hr : x ≠ .symbol .rightParen) : t.isParen = false := by
  cases t with
  | symbol s => cases s <;> first | rfl | simp [is, terminal?] at h; simp_all
  | _ => rfl

theorem Token.not_isParen_ofWord (n : String) : (Token.ofWord n).isParen = false := by
  unfold Token.ofWord
  split <;> rfl

theorem Literal.not_isParen_token (value : Literal) : value.token.isParen = false := by
  cases value with
  | boolean b => cases b <;> rfl
  | _ => rfl

theorem not_isParen_of_name {t : Token} {n : String} (h : t.name? = some n) : t.isParen = false := by
  cases t with
  | symbol s => simp [name?] at h
  | _ => rfl

theorem not_isParen_of_literal {t : Token} {r : Except Fault Literal} (h : t.literal? = some r) :
    t.isParen = false := by
  cases t with
  | symbol s => simp [literal?] at h
  | _ => rfl

/-- The tokens of terminals are these terminals, one for each. -/
theorem tokens_spaced (op : List Terminal) :
    (tokens (spaced op)).length = op.length ∧ ∀ t ∈ tokens (spaced op), ∃ x ∈ op, t.is x = true := by
  have one : ∀ x : Terminal, ∃ t, terminal x = token t ∧ t.is x = true := by
    intro x
    cases x with
    | keyword k => exact ⟨_, rfl, is_keyword_iff.mpr ⟨_, rfl⟩⟩
    | symbol s => exact ⟨_, rfl, is_symbol_iff.mpr rfl⟩
  induction op with
  | nil => exact ⟨rfl, fun t ht => by cases ht⟩
  | cons x op ih =>
    obtain ⟨t, hx, ht⟩ := one x
    have htokens : tokens (spaced (x :: op)) = t :: tokens (spaced op) := by
      cases op with
      | nil => simp [spaced, hx]
      | cons y op => simp [spaced, hx]
    rw [htokens]
    refine ⟨congrArg Nat.succ ih.1, fun t' ht' => ?_⟩
    rcases List.mem_cons.mp ht' with rfl | ht'
    · exact ⟨x, by simp, ht⟩
    · obtain ⟨y, hy, h⟩ := ih.2 t' ht'
      exact ⟨y, List.mem_cons_of_mem _ hy, h⟩

/-- Terminals that are no parentheses cover the same terminals, in front of what comes after them. -/
theorem Clause.terminals {op : List Terminal} {us ts : List Token} {R : Prop} (hne : op ≠ [])
    (hop : ∀ x ∈ op, x ≠ .symbol .leftParen ∧ x ≠ .symbol .rightParen) (hw : Phrase.terminals op w)
    (h : Covers us ts R) : Clause (tokensOf w ++ us) (tokens (spaced op) ++ ts) R := by
  have hlen : (tokensOf w).length = op.length := by
    simpa [Phrase.terminals, tokensOf] using congrArg List.length hw
  have hread : ∀ t ∈ tokensOf w, t.isParen = false := by
    intro t ht
    obtain ⟨l, hl, rfl⟩ := List.mem_map.mp ht
    have hmem : l.token.terminal? ∈ op.map some := hw ▸ List.mem_map_of_mem hl
    obtain ⟨x, hx, hlx⟩ := List.mem_map.mp hmem
    exact not_isParen_of_is (x := x) (by simp [is, ← hlx]) (hop x hx).1 (hop x hx).2
  obtain ⟨hlen', hall⟩ := tokens_spaced op
  have hwritten : ∀ t ∈ tokens (spaced op), t.isParen = false := by
    intro t ht
    obtain ⟨x, hx, h⟩ := hall t ht
    exact not_isParen_of_is h (hop x hx).1 (hop x hx).2
  have opens : ∀ {ts : List Token}, ts.length = op.length → (∀ t ∈ ts, t.isParen = false) →
      ∀ vs, Opens (ts ++ vs) := by
    intro ts hts h vs
    refine Opens.append_right (fun t ht => h t (List.mem_of_mem_head? ht)) ?_
    rintro rfl
    exact hne (List.eq_nil_of_length_eq_zero hts.symm)
  exact ⟨h.prepend (hlen.trans hlen'.symm) hread hwritten, opens hlen hread _, opens hlen' hwritten _⟩

theorem Phrase.terminals_ne_nil {xs : List Terminal} (hne : xs ≠ []) (h : terminals xs w) :
    tokensOf w ≠ [] := by
  rintro hnil
  have hlen : (tokensOf w).length = xs.length := by
    simpa [terminals, tokensOf] using congrArg List.length h
  rw [hnil] at hlen
  exact hne (List.eq_nil_of_length_eq_zero hlen.symm)

/-- A keyword in front. -/
theorem Clause.keyword {t s : Token} {m n : Keyword} {us ts : List Token} {R : Prop}
    (ht : t.is (.keyword m) = true) (hs : s.is (.keyword n) = true) (h : Covers us ts R) :
    Clause (t :: us) (s :: ts) R :=
  .cons h (not_isParen_of_is ht (by simp) (by simp)) (not_isParen_of_is hs (by simp) (by simp))

section
variable {α β γ : Type} {L : Phrase β} {f : α → List Piece} {R : α → Prop} {g : α → γ} {i : β → γ}
  {x : Terminal} {s : List Piece} {t : Token}

/-- Items after separators. -/
theorem Clause.many {as : List α} {bs : List β} (hx : x ≠ .symbol .leftParen ∧ x ≠ .symbol .rightParen)
    (hsep : tokens s = [t]) (ht : t.isParen = false)
    (h : ∀ a ∈ as, ∀ b v, i b = g a → L v b → Covers (tokensOf v) (tokens (f a)) (R a))
    (hmap : bs.map i = as.map g) (hu : Phrase.Many (do Phrase.terminal x; L) u bs) :
    Clause (tokensOf u) (as.flatMap fun a => tokens s ++ tokens (f a)) (∀ a ∈ as, R a) := by
  induction hu generalizing as with
  | nil =>
    obtain rfl : as = [] := by simpa using hmap.symm
    exact Clause.nil.imp fun _ => by simp
  | @cons y z b bs hy hz ih =>
    cases as with
    | nil => cases hmap
    | cons a as =>
      obtain ⟨hb, hbs⟩ := List.cons.inj hmap
      rw [List.forall_mem_cons] at h
      obtain ⟨_, v, _, rfl, ⟨l, rfl, hl⟩, hv⟩ := hy
      have hitem := Clause.cons (h.1 b v hb hv) (not_isParen_of_is hl hx.1 hx.2) ht
      have hall := hitem.append (ih h.2 hbs)
      rw [List.flatMap_cons, tokensOf_append, tokensOf_append, tokensOf_cons, tokensOf_nil, hsep]
      rw [hsep] at hall
      exact hall.imp fun hr => by simpa using hr

/-- Items with separators between. -/
theorem Covers.intercalate {a : α} {as : List α} {b : β} {bs : List β}
    (hx : x ≠ .symbol .leftParen ∧ x ≠ .symbol .rightParen)
    (hsep : tokens s = [t]) (ht : t.isParen = false)
    (h : ∀ a' ∈ a :: as, ∀ b v, i b = g a' → L v b → Covers (tokensOf v) (tokens (f a')) (R a'))
    (hmap : (b :: bs).map i = (a :: as).map g) (hv : L v b)
    (hw : Phrase.Many (do Phrase.terminal x; L) w bs) :
    Covers (tokensOf (v ++ w)) (tokens (s.intercalate ((a :: as).map f))) (∀ a' ∈ a :: as, R a') := by
  obtain ⟨hb, hbs⟩ := List.cons.inj hmap
  rw [List.forall_mem_cons] at h
  have hcovers := (h.1 b v hb hv).append (Clause.many hx hsep ht h.2 hbs hw)
  rw [tokensOf_append, List.map_cons, tokens_intercalate, List.flatMap_map]
  exact hcovers.imp fun hr => by simpa using hr

/-- One or more items with commas between. -/
theorem Covers.commaList {as : List α} {bs : List β}
    (h : ∀ a ∈ as, ∀ b v, i b = g a → L v b → Covers (tokensOf v) (tokens (f a)) (R a))
    (hmap : bs.map i = as.map g) (hu : Phrase.commaList L u bs) :
    Covers (tokensOf u) (tokens (commaSeparated (as.map f))) (∀ a ∈ as, R a) := by
  obtain ⟨v, _, b, rfl, hv, w, _, others, rfl, hw, rfl, rfl⟩ := hu
  cases as with
  | nil => cases hmap
  | cons a as =>
    rw [List.append_nil]
    exact Covers.intercalate (by simp) rfl rfl h hmap hv hw

/-- A part that may be missing. -/
theorem Clause.optional {o : Option α} {o' : Option β}
    (h : ∀ a ∈ o, ∀ b v, i b = g a → L v b → Clause (tokensOf v) (tokens (f a)) (R a))
    (hmap : o'.map i = o.map g) (hu : Phrase.optional L u o') :
    Clause (tokensOf u) (tokens (ofOption f o)) (∀ a ∈ o, R a) := by
  cases o with
  | none =>
    cases o' with
    | none =>
      obtain rfl : u = [] := hu
      exact Clause.nil.imp fun _ => by simp
    | some b => cases hmap
  | some a =>
    cases o' with
    | none => cases hmap
    | some b => exact (h a rfl b u (Option.some.inj hmap) hu).imp fun hr => by simpa using hr

end

/-! ## Expressions at their places -/

/-- A run at a place is put together as the outermost construction of its tree says, with parentheses
or plus signs around. -/
theorem Phrase.place_wrapped {e : Expr} (hm : m ≤ 7) (h : place (phrases .anywhere k) m u e) :
    ∃ a v b j, u = a ++ (v ++ b) ∧ node (phrases .anywhere j) v e ∧
      tilt (tokensOf a) + tilt (tokensOf b) = 0 ∧ (0 < weight (tokensOf a) ∨ ∃ i,
        tokensOf a = lefts i ∧ tokensOf b = rights i ∧ j + i ≤ k ∧ (m ≤ e.strength ∨ 0 < i)) := by
  induction k generalizing u m with
  | zero =>
    rcases (place_iff hm).mp h with h | ⟨hs, h⟩
    · simp only [bracketed, oneOf_cons, oneOf_nil, or_false] at h
      rcases h with ⟨_, _, _, -, -, _, _, _, -, h, -⟩ | ⟨_, _, _, -, -, _, _, _, -, h, -⟩ |
        ⟨_, _, _, -, -, h⟩ <;> exact absurd h id
    · exact ⟨[], u, [], 0, by simp, h, rfl, .inr ⟨0, rfl, rfl, Nat.le_refl _, .inl hs⟩⟩
  | succ k ih =>
    rcases (place_iff hm).mp h with h | ⟨hs, h⟩
    · simp only [bracketed, oneOf_cons, oneOf_nil, or_false] at h
      rcases h with ⟨_, _, _, rfl, ⟨l, rfl, hl⟩, v, _, x, rfl, hv, _, _, _, rfl, ⟨r, rfl, hr⟩, rfl, rfl⟩ |
        ⟨_, _, _, -, -, _, _, _, -, h, -⟩ | ⟨_, v, _, rfl, ⟨l, rfl, hl⟩, hv⟩
      · obtain ⟨a, v, b, j, rfl, hn, ht, hw⟩ := ih (m := 1) (by decide) hv
        have hl : l.token = .symbol .leftParen := Token.is_symbol_iff.mp hl
        have hr : r.token = .symbol .rightParen := Token.is_symbol_iff.mp hr
        refine ⟨l :: a, v, b ++ [r], j, by simp, hn, ?_, ?_⟩
        · simp only [tokensOf_cons, tokensOf_append, tokensOf_nil, tilt_cons, tilt_append, tilt_nil, hl, hr]
          simp only [Token.tilt]
          omega
        · rcases hw with hw | ⟨i, ha, hb, hle, -⟩
          · left
            rw [tokensOf_cons, weight_cons]
            omega
          · refine .inr ⟨i + 1, ?_, ?_, by omega, .inr (Nat.succ_pos i)⟩
            · rw [tokensOf_cons, hl, ha, lefts_succ]
            · rw [tokensOf_append, hb, tokensOf_cons, hr, rights_succ]
              rfl
      · exact absurd h id
      · obtain ⟨a, v, b, j, rfl, hn, ht, -⟩ := ih (m := 7) (by decide) hv
        have hl : l.token = .symbol .plus := Token.is_symbol_iff.mp hl
        refine ⟨l :: a, v, b, j, by simp, hn, ?_, .inl ?_⟩
        · rw [tokensOf_cons, tilt_cons, hl]
          simpa [Token.tilt] using ht
        · rw [tokensOf_cons, weight_cons, hl, if_neg (by simp [isParen])]
          omega
    · exact ⟨[], u, [], k + 1, by simp, h, rfl, .inr ⟨0, rfl, rfl, Nat.le_refl _, .inl hs⟩⟩

/-- Whether runs that are put together as a query says cover its written form. -/
def Select.Covered (s : Select) : Prop :=
  ∀ k u s', s'.plain = s.plain → Phrase.select (phrases .anywhere k) u s' →
    Clause (tokensOf u) (tokens s.pieces) ((s.AllApart → s.Rereads) ∧ s.levels ≤ k)

/-- Whether runs that are put together as the outermost construction of an expression says cover
its written form; if it is a subselect, without its parentheses. -/
def Expr.Covered (e : Expr) : Prop :=
  (∀ s, e = .subselect s → s.Covered) ∧ ((∀ s, e ≠ .subselect s) → ∀ k u e', e'.plain = e.plain →
    Phrase.node (phrases .anywhere k) u e' → Solid (tokensOf u) (tokens e.pieces)
      ((e.AllApart → e.Rereads) ∧ e.levels ≤ k))

theorem Covers.wrapped {us vs ws ts ts' : List Token} {R S : Prop} (h : Covers vs ts R)
    (htilt : tilt us + tilt ws = 0) (hweight : weight ts' = weight ts) (htilt' : tilt ts' = 0)
    (hS : weight us = 0 → us ++ (vs ++ ws) = ts' → S) : Covers (us ++ (vs ++ ws)) ts' S where
  weight_le := by
    have := h.weight_le
    simp only [weight_append]
    omega
  tilt_left := by
    have := h.tilt_left
    simp only [tilt_append]
    omega
  tilt_right := htilt'
  exact he := by
    have hle := h.weight_le
    have hw := congrArg weight he
    simp only [weight_append] at hw
    exact hS (by omega) he

section
variable {e e' : Expr}

/-- The run of a subselect, which has its own parentheses. -/
theorem Expr.Covered.subselect_placed {s : Select} (h : s.Covered) (hm : m ≤ 7)
    (he : e'.plain = (Expr.subselect s).plain) (hp : Phrase.place (phrases .anywhere k) m u e') :
    Covers (tokensOf u) (tokens (Expr.subselect s).pieces)
      ((s.AllApart → s.Rereads) ∧ s.levels + 2 ≤ k) := by
  obtain ⟨a, v, b, j, rfl, hn, htilt, hw⟩ := Phrase.place_wrapped hm hp
  cases e' with
  | subselect s' =>
    rw [Expr.plain, Expr.plain] at he
    cases j with
    | zero => exact absurd hn id
    | succ j =>
      have hselect : Phrase.select (phrases .anywhere j) v s' := by simpa [Phrase.node, phrases] using hn
      have hc := h j v s' (Expr.subselect.inj he) hselect
      obtain ⟨l, x, rfl, hl⟩ := Phrase.select_opens hselect
      obtain ⟨written, hl⟩ := is_keyword_iff.mp hl
      rw [Expr.pieces, tokens_parenthesised, tokensOf_append, tokensOf_append]
      have hp := hc.toCovers.parenthesised
      refine hc.toCovers.wrapped htilt (by simp [isParen]) hp.tilt_right fun hweight hu => ?_
      rcases hw with hw | ⟨i, ha, hb, hle, -⟩
      · omega
      -- The second token is the `SELECT`, so there is exactly one pair of parentheses.
      rw [ha, hb] at hu
      have hselect' : ∃ t ts, tokens s.pieces = t :: ts ∧ t.isParen = false := by
        obtain ⟨ts, hts⟩ : ∃ ts, tokens s.pieces = .keyword .select "SELECT" :: ts := by
          rw [Select.pieces_eq]
          exact ⟨_, rfl⟩
        exact ⟨_, ts, hts, rfl⟩
      obtain ⟨t, ts, hts, ht⟩ := hselect'
      obtain _ | _ | i := i
      · rw [hts] at hu
        simp [lefts, hl] at hu
      · have hu : tokensOf (l :: x) ++ [.symbol .rightParen] = tokens s.pieces ++ [.symbol .rightParen] :=
          (List.cons.inj hu).2
        obtain ⟨hr, hlevels⟩ := hc.exact (List.append_cancel_right hu)
        exact ⟨hr, by omega⟩
      · rw [hts] at hu
        have := (List.cons.inj (List.cons.inj hu).2).1
        rw [← this] at ht
        cases ht
  | _ => simp [Expr.plain] at he

/-- The run of an operand, in parentheses if its place asks for more. -/
theorem Expr.Covered.placed (h : e.Covered) (hm : m ≤ 7) (he : e'.plain = e.plain)
    (hp : Phrase.place (phrases .anywhere k) m u e') :
    Covers (tokensOf u) (tokens (guarded e.strength m e.pieces))
      ((e.AllApart → e.Rereads) ∧ nesting e.strength m e.levels ≤ k) := by
  by_cases hsub : ∃ s, e = .subselect s
  · obtain ⟨s, rfl⟩ := hsub
    have hle : ¬ (Expr.subselect s).strength < m := by simp only [Expr.strength]; omega
    rw [guarded, if_neg hle, nesting, if_neg hle, Expr.levels]
    refine (subselect_placed (h.1 s rfl) hm he hp).imp (And.imp_left fun hr ha => ?_)
    obtain ⟨-, -, hs⟩ := Expr.allApart_iff.mp ha
    exact Expr.all_iff.mpr ⟨trivial, by simp [Expr.parts], fun s' hs' => by
      obtain rfl := Expr.subselect.inj hs'
      exact hr (hs s rfl)⟩
  · obtain ⟨a, v, b, j, rfl, hn, htilt, hw⟩ := Phrase.place_wrapped hm hp
    have hsolid := h.2 (fun s hs => hsub ⟨s, hs⟩) j v e' he hn
    have hwritten : tilt (tokens e.pieces) = 0 := hsolid.tilt_right
    rw [tokensOf_append, tokensOf_append]
    have hstrength := Expr.strength_eq_of_plain he
    unfold guarded nesting
    split
    · next hlt =>
      rw [tokens_parenthesised]
      refine hsolid.toCovers.wrapped htilt (by simp [isParen]) (by simp [Token.tilt, hwritten])
        fun hweight hu => ?_
      rcases hw with hw | ⟨i, ha, hb, hle, hi⟩
      · omega
      obtain ⟨i, rfl⟩ : ∃ i', i = i' + 1 := ⟨i - 1, by omega⟩
      rw [ha, hb, lefts_succ, rights_succ, List.cons_append, ← List.append_assoc, ← List.append_assoc] at hu
      have hinner := List.append_cancel_right (List.cons.inj hu).2
      obtain rfl := hsolid.alone i hinner
      obtain ⟨hr, hlevels⟩ := hsolid.exact (by simpa [lefts, rights] using hinner)
      exact ⟨hr, by omega⟩
    · refine hsolid.toCovers.wrapped htilt rfl hwritten fun hweight hu => ?_
      rcases hw with hw | ⟨i, ha, hb, hle, -⟩
      · omega
      rw [ha, hb, ← List.append_assoc] at hu
      obtain rfl := hsolid.alone i hu
      obtain ⟨hr, hlevels⟩ := hsolid.exact (by simpa [lefts, rights] using hu)
      exact ⟨hr, by omega⟩

/-- The run of an expression one level deeper. -/
theorem Expr.Covered.expr (h : e.Covered) (he : e'.plain = e.plain)
    (hp : (phrases .anywhere k).expr u e') :
    Covers (tokensOf u) (tokens e.pieces) ((e.AllApart → e.Rereads) ∧ e.levels + 1 ≤ k) := by
  cases k with
  | zero => exact absurd hp id
  | succ k =>
    have hcovers := h.placed (m := 1) (by decide) he hp
    have hpos : ¬ e.strength < 1 := by have := e.strength_pos; omega
    rw [guarded, if_neg hpos, nesting, if_neg hpos] at hcovers
    exact hcovers.imp (And.imp_right Nat.succ_le_succ)

/-- The run of the operand of a suffix.  That of a bare subselect lacks its parentheses. -/
theorem Expr.Covered.operand (h : e.Covered) (he : e'.plain = e.plain)
    (hp : Phrase.place (phrases .anywhere k) 8 u e') :
    Covers (tokensOf u) (tokens (guarded e.strength 8 e.pieces))
      (e.Suffixable ∧ (e.AllApart → e.Rereads) ∧ e.levels ≤ k) := by
  obtain ⟨hs, hn⟩ := Phrase.primary_iff.mp hp
  have hstrength : e.strength = 8 := (Expr.strength_eq_of_plain he).symm.trans hs
  rw [guarded, if_neg (by omega)]
  by_cases hsub : ∃ s, e = .subselect s
  · obtain ⟨s, rfl⟩ := hsub
    cases e' with
    | subselect s' =>
      rw [Expr.plain, Expr.plain] at he
      cases k with
      | zero => exact absurd hn id
      | succ k =>
        have hselect : Phrase.select (phrases .anywhere k) u s' := by
          simpa [Phrase.node, phrases] using hn
        have hc := h.1 s rfl k u s' (Expr.subselect.inj he) hselect
        have hp := hc.toCovers.parenthesised
        rw [Expr.pieces, tokens_parenthesised]
        refine ⟨?_, hc.tilt_left, hp.tilt_right, fun hu => ?_⟩
        · simpa [isParen] using hc.weight_le
        · have hopen := hc.opens_left
          rw [hu] at hopen
          cases hopen _ rfl
    | _ => simp [Expr.plain] at he
  · have hsub : ∀ s, e ≠ .subselect s := fun s hs => hsub ⟨s, hs⟩
    exact (h.2 hsub k u e' he hn).toCovers.imp fun hr => ⟨⟨hstrength, hsub⟩, hr⟩

end

end LedgerQuery
