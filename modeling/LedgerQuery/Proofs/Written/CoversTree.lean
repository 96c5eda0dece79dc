import LedgerQuery.Proofs.Written.CoversExpr

/-!
# Covering, one construction at a time

The runs of an expression cover its written form if the runs of its parts cover theirs.
-/

namespace LedgerQuery

open Token Piece

variable {u v w : List Lexeme} {k : Nat}

/-! ## Lists of literals -/

theorem Phrase.many_optional_literal {others : List (Option Literal)}
    (h : Many (do symbol .comma; optional literal) w others) :
    (∀ t ∈ tokensOf w, t.isParen = false) ∧
      others.length + others.reduceOption.length ≤ (tokensOf w).length := by
  induction h with
  | nil => simp
  | @cons x y o others hx hy ih =>
    obtain ⟨_, v, _, rfl, ⟨l, rfl, hl⟩, hv⟩ := hx
    have hcomma : l.token.isParen = false := not_isParen_of_is hl (by simp) (by simp)
    cases o with
    | none =>
      obtain rfl : v = [] := hv
      refine ⟨by simpa [hcomma] using ih.1, ?_⟩
      have := ih.2
      simp only [List.length_cons, List.reduceOption_cons_of_none, tokensOf_cons, List.append_nil,
        List.cons_append, List.nil_append]
      omega
    | some value =>
      obtain ⟨n, rfl, hn⟩ := literal_iff.mp hv
      have hvalue : n.token.isParen = false := not_isParen_of_literal hn
      refine ⟨by simpa [hcomma, hvalue] using ih.1, ?_⟩
      have := ih.2
      simp only [List.length_cons, List.reduceOption_cons_of_some, tokensOf_cons, List.cons_append,
        List.nil_append]
      omega

/-- The run of a list of literals: a left parenthesis, at least as many tokens as items and
commas between them, and a right parenthesis. -/
theorem Phrase.literalList_run {items : List Literal} (h : literalList u (.constant (.list items))) :
    items ≠ [] ∧ ∃ ts, tokensOf u = .symbol .leftParen :: (ts ++ [.symbol .rightParen]) ∧
      (∀ t ∈ ts, t.isParen = false) ∧ 2 ≤ ts.length ∧ 2 * items.length ≤ ts.length + 1 := by
  obtain ⟨_, _, _, rfl, ⟨l, rfl, hl⟩, _, _, first, rfl, hfirst, _, _, _, rfl, ⟨c, rfl, hc⟩, b, _, second,
    rfl, hsecond, x, _, others, rfl, hothers, _, _, _, rfl, ⟨r, rfl, hr⟩, rfl, he⟩ := h
  obtain ⟨m, rfl, hm⟩ := literal_iff.mp hfirst
  obtain rfl : items = first :: (second :: others).reduceOption := by
    injection he with he
    injection he
  obtain ⟨hall, hlen⟩ := many_optional_literal hothers
  have hvalue : m.token.isParen = false := not_isParen_of_literal hm
  have hcomma : c.token.isParen = false := not_isParen_of_is hc (by simp) (by simp)
  have hsecond' : (∀ t ∈ tokensOf b, t.isParen = false) ∧
      (second :: others).reduceOption.length = (tokensOf b).length + others.reduceOption.length := by
    cases second with
    | none =>
      obtain rfl : b = [] := hsecond
      simp [List.reduceOption_cons_of_none]
    | some value =>
      obtain ⟨n, rfl, hn⟩ := literal_iff.mp hsecond
      simp [List.reduceOption_cons_of_some, not_isParen_of_literal hn, Nat.add_comm]
  have hsome : others.reduceOption.length ≤ others.length := List.reduceOption_length_le others
  refine ⟨by simp, m.token :: c.token :: (tokensOf b ++ tokensOf x), ?_, ?_, ?_, ?_⟩
  · simp [is_symbol_iff.mp hl, is_symbol_iff.mp hr]
  · simp only [List.forall_mem_cons, List.forall_mem_append]
    exact ⟨hvalue, hcomma, hsecond'.1, hall⟩
  · simp
  · have hb : (tokensOf b).length ≤ 1 := by
      cases second with
      | none =>
        obtain rfl : b = [] := hsecond
        simp
      | some value =>
        obtain ⟨n, rfl, -⟩ := literal_iff.mp hsecond
        simp
    simp only [List.length_cons, List.length_append, hsecond'.2]
    omega

/-- The written form of a list of literals, in the same way. -/
theorem Constant.tokens_list {items : List Literal} (hne : items ≠ []) :
    ∃ ts, tokens (Constant.pieces (.list items)) = .symbol .leftParen :: (ts ++ [.symbol .rightParen]) ∧
      (∀ t ∈ ts, t.isParen = false) ∧ ts ≠ [] ∧ (ts.length = 2 ∨ ts.length + 1 = 2 * items.length) := by
  match items with
  | [value] =>
    refine ⟨[value.token, .symbol .comma], rfl, ?_, by simp, .inl rfl⟩
    rw [List.forall_mem_cons]
    exact ⟨value.not_isParen_token, by simp [isParen]⟩
  | first :: second :: items =>
    have htokens : tokens (commaSeparated ((first :: second :: items).map fun value => [token value.token])) =
        first.token :: (second :: items).flatMap fun value => [.symbol .comma, value.token] := by
      rw [commaSeparated, List.map_cons, tokens_intercalate, List.flatMap_map]
      rfl
    refine ⟨first.token :: (second :: items).flatMap fun value => [.symbol .comma, value.token], ?_, ?_,
      by simp, .inr ?_⟩
    · show tokens (parenthesised _) = _
      rw [parenthesised, List.cons_append, Piece.symbol, tokens_token, tokens_append, htokens]
      rfl
    · rw [List.forall_mem_cons]
      refine ⟨first.not_isParen_token, fun t ht => ?_⟩
      obtain ⟨value, -, ht⟩ := List.mem_flatMap.mp ht
      simp only [List.mem_cons, List.not_mem_nil, or_false] at ht
      rcases ht with rfl | rfl
      · rfl
      · exact value.not_isParen_token
    · have hlen : ∀ items : List Literal,
          (items.flatMap fun value => [Token.symbol .comma, value.token]).length = 2 * items.length := by
        intro items
        induction items with
        | nil => rfl
        | cons value items ih =>
          rw [List.flatMap_cons, List.length_append, ih, List.length_cons]
          simp only [List.length_cons, List.length_nil]
          omega
      simp only [List.length_cons, hlen]
      omega

/-! ## Expressions -/

/-- An expression rereads if its outermost construction is read as it was written, and its parts reread. -/
theorem Expr.rereads_of_parts {e : Expr} (hsub : ∀ s, e ≠ .subselect s) (hs : e.Apart → e.Separates)
    (hp : ∀ x ∈ e.parts, x.AllApart → x.Rereads) : e.AllApart → e.Rereads := fun ha => by
  obtain ⟨ha, hparts, -⟩ := Expr.allApart_iff.mp ha
  exact Expr.all_iff.mpr ⟨hs ha, fun x hx => hp x hx (hparts x hx), fun s he => absurd he (hsub s)⟩

namespace Expr.Covered

variable {x left right lower upper : Expr} {args : List Expr} {n key : String}

/-- An expression without parts, of one token. -/
theorem of_token {e : Expr} {t : Token} (hsub : ∀ s, e ≠ .subselect s) (hparts : e.parts = [])
    (hlevels : e.levels = 0) (hsep : e.Separates) (hpieces : tokens e.pieces = [t])
    (ht : t.isParen = false) (h : ∀ k u e', e'.plain = e.plain → Phrase.node (phrases .anywhere k) u e' →
      ∃ l, u = [l] ∧ l.token.isParen = false) : e.Covered := by
  refine ⟨fun s hs => absurd hs (hsub s), fun _ k u e' he hn => ?_⟩
  obtain ⟨l, rfl, hl⟩ := h k u e' he hn
  rw [hpieces]
  refine (Solid.of_clause (Clause.token hl ht) (by simp)).imp fun _ => ⟨?_, by omega⟩
  exact rereads_of_parts hsub (fun _ => hsep) (by simp [hparts])

theorem wildcard : Expr.wildcard.Covered := by
  refine ⟨fun _ hs => absurd hs (by simp), fun _ k u e' he hn => ?_⟩
  cases e' <;> simp only [Expr.plain, reduceCtorEq] at he
  exact absurd hn id

theorem column : (Expr.column n).Covered :=
  of_token (by simp) rfl rfl trivial (by rw [Expr.pieces, word, tokens_token, tokens_nil])
    (not_isParen_ofWord n) fun k u e' he hn => by
      cases e' <;> simp only [Expr.plain, reduceCtorEq] at he
      obtain ⟨l, rfl, hl⟩ := hn
      exact ⟨l, rfl, not_isParen_of_name hl⟩

theorem placeholder {p : Placeholder} : (Expr.placeholder p).Covered :=
  of_token (t := .placeholder p) (by simp) rfl rfl trivial (by rw [Expr.pieces, tokens_token, tokens_nil])
    rfl fun k u e' he hn => by
      cases e' <;> simp only [Expr.plain, reduceCtorEq] at he
      obtain ⟨l, rfl, hl⟩ := Phrase.placeholder_iff.mp hn
      exact ⟨l, rfl, by rw [hl]; rfl⟩

theorem literal {value : Literal} : (Expr.literal value).Covered :=
  of_token (t := value.token) (by simp [Expr.literal]) rfl rfl trivial
    (by rw [Expr.literal, Expr.pieces]; rfl) value.not_isParen_token fun k u e' he hn => by
      cases e' <;> simp only [Expr.literal, Expr.plain, reduceCtorEq] at he
      next constant =>
        cases constant with
        | literal value' =>
          obtain ⟨l, rfl, hl⟩ := Phrase.literal_iff.mp hn
          exact ⟨l, rfl, not_isParen_of_literal hl⟩
        | list items => simp [Constant.plain] at he

theorem list {items : List Literal} : (Expr.constant (.list items)).Covered := by
  refine ⟨fun _ hs => absurd hs (by simp), fun hsub k u e' he hn => ?_⟩
  cases e' <;> simp only [Expr.plain, reduceCtorEq, Expr.constant.injEq] at he
  next constant =>
    cases constant with
    | literal value => simp [Constant.plain] at he
    | list items' =>
      obtain ⟨hne', us, hus, hall, htwo, hlen⟩ := Phrase.literalList_run hn
      have hitems : items'.length = items.length := by
        simp only [Constant.plain, Constant.list.injEq] at he
        simpa using congrArg List.length he
      have hne : items ≠ [] := by
        rintro rfl
        exact hne' (List.eq_nil_of_length_eq_zero hitems)
      obtain ⟨ts, hts, hall', hnil, hlen'⟩ := Constant.tokens_list hne
      rw [Expr.pieces, hus, hts]
      have hcovers : Covers us ts True :=
        ⟨by rw [weight_eq_length hall, weight_eq_length hall']; omega, tilt_eq_zero hall,
          tilt_eq_zero hall', fun _ => trivial⟩
      refine ⟨hcovers.parenthesised.imp fun _ => ⟨rereads_of_parts hsub (fun _ => trivial)
        (by simp [Expr.parts]), Nat.zero_le _⟩, fun j hj => ?_⟩
      -- More parentheses in front would come before the first literal.
      cases j with
      | zero => rfl
      | succ j =>
        obtain ⟨t, ts, rfl⟩ := List.exists_cons_of_ne_nil hnil
        have htail := (List.cons.inj hj).2
        have ht : t.isParen = false := hall' t (by simp)
        cases j with
        | zero =>
          rw [← (List.cons.inj htail).1] at ht
          cases ht
        | succ j =>
          rw [← (List.cons.inj htail).1] at ht
          cases ht

/-- The arguments of a call.  A star has no levels of its own. -/
theorem arguments {args' : List Expr} (h : ∀ x ∈ args, x.Covered)
    (hmap : args'.map Expr.plain = args.map Expr.plain)
    (hu : Phrase.arguments (phrases .anywhere k) u args') :
    Covers (tokensOf u) (tokens (parenthesised (commaSeparated (args.map Expr.pieces))))
      (∀ x ∈ args, (x.AllApart → x.Rereads) ∧ (x ≠ .wildcard → x.levels + 1 ≤ k)) := by
  simp only [Phrase.arguments, Phrase.oneOf_cons, Phrase.oneOf_nil, or_false] at hu
  rw [tokens_parenthesised]
  rcases hu with ⟨_, _, _, rfl, ⟨l, rfl, hl⟩, _, _, _, rfl, ⟨m, rfl, hm⟩, _, _, _, rfl, ⟨r, rfl, hr⟩, rfl, rfl⟩ |
    ⟨_, _, _, rfl, ⟨l, rfl, hl⟩, _, _, _, rfl, ⟨r, rfl, hr⟩, rfl, rfl⟩ |
    ⟨_, _, _, rfl, ⟨l, rfl, hl⟩, v, _, as, rfl, hv, _, _, _, rfl, ⟨r, rfl, hr⟩, rfl, rfl⟩
  · obtain ⟨x, rfl⟩ : ∃ x, args = [x] := by
      rw [← List.length_eq_one_iff]
      simpa using congrArg List.length hmap.symm
    obtain rfl : x = .wildcard := by
      cases x <;> simp [Expr.plain] at hmap
      rfl
    have hstar : Covers [m.token] (tokens (commaSeparated ([Expr.wildcard].map Expr.pieces))) True :=
      (Clause.token (not_isParen_of_is hm (by simp) (by simp)) rfl).toCovers
    have := hstar.parenthesised.imp (S := ∀ x ∈ [Expr.wildcard], (x.AllApart → x.Rereads) ∧
      (x ≠ .wildcard → x.levels + 1 ≤ k)) fun _ => by
        rw [List.forall_mem_singleton]
        exact ⟨rereads_of_parts (by simp) (fun _ => trivial) (by simp [Expr.parts]), fun hne => absurd rfl hne⟩
    simpa [is_symbol_iff.mp hl, is_symbol_iff.mp hr] using this
  · obtain rfl : args = [] := by simpa using hmap.symm
    have hnil : Covers [] (tokens (commaSeparated (([] : List Expr).map Expr.pieces))) True := Clause.nil.toCovers
    have := hnil.parenthesised.imp (S := ∀ x ∈ ([] : List Expr), (x.AllApart → x.Rereads) ∧
      (x ≠ .wildcard → x.levels + 1 ≤ k)) fun _ => by simp
    simpa [is_symbol_iff.mp hl, is_symbol_iff.mp hr] using this
  · have hall := Covers.commaList (R := fun x => (x.AllApart → x.Rereads) ∧ x.levels + 1 ≤ k)
      (fun x hx b v hb hv => (h x hx).expr hb hv) hmap hv
    have := hall.parenthesised.imp (S := ∀ x ∈ args, (x.AllApart → x.Rereads) ∧
      (x ≠ .wildcard → x.levels + 1 ≤ k)) fun hr x hx => ⟨(hr x hx).1, fun _ => (hr x hx).2⟩
    simpa [is_symbol_iff.mp hl, is_symbol_iff.mp hr] using this

theorem function (h : ∀ x ∈ args, x.Covered) : (Expr.function n args).Covered := by
  refine ⟨fun _ hs => absurd hs (by simp), fun hsub k u e' he hn => ?_⟩
  cases e' <;> simp only [Expr.plain, reduceCtorEq, Expr.function.injEq] at he
  next n' args' =>
    obtain ⟨rfl, he⟩ := he
    rw [Expr.plainList_eq_map, Expr.plainList_eq_map] at he
    obtain ⟨_, w, rfl, ⟨l, rfl, hl⟩, hw⟩ := hn
    rw [Expr.pieces_function, word, tokens_token]
    have hargs := arguments h he hw
    refine (Solid.of_clause (Clause.cons hargs (not_isParen_of_name hl) (not_isParen_ofWord _)) (by simp)).imp
      fun hr => ⟨?_, ?_⟩
    · exact rereads_of_parts hsub (fun _ => trivial) fun x hx => (hr x hx).1
    · rw [Expr.levels_function_le_iff]
      exact fun x hx => (hr x hx).2

theorem «attribute» (h : x.Covered) : (Expr.attribute x n).Covered := by
  refine ⟨fun _ hs => absurd hs (by simp), fun hsub k u e' he hn => ?_⟩
  cases e' <;> simp only [Expr.plain, reduceCtorEq, Expr.attribute.injEq] at he
  next x' n' =>
    obtain ⟨he, rfl⟩ := he
    obtain ⟨v, w, rfl, hv, hw⟩ := hn
    simp only [Phrase.suffix, Phrase.oneOf_cons, Phrase.oneOf_nil, or_false] at hw
    rcases hw with ⟨_, _, _, rfl, ⟨l, rfl, hl⟩, _, _, n, rfl, ⟨m, rfl, hm⟩, rfl, he'⟩ |
      ⟨_, _, _, rfl, -, _, _, _, rfl, -, _, _, _, rfl, -, rfl, he'⟩
    · have hname : Clause [l.token, m.token] [.symbol .dot, .ofWord n'] True :=
        .cons (Clause.token (not_isParen_of_name hm) (not_isParen_ofWord n')).toCovers
          (not_isParen_of_is hl (by simp) (by simp)) rfl
      rw [tokensOf_append, Expr.pieces, tokens_append]
      refine (Solid.append (h.operand he hv) hname (by simp)).imp ?_
      rintro ⟨⟨hs, hr, hlevels⟩, _⟩
      refine ⟨?_, ?_⟩
      · exact rereads_of_parts hsub (fun ha => ⟨hs, ha⟩) (by simpa [Expr.parts] using hr)
      · rwa [Expr.levels]
    · cases he'

theorem subscript (h : x.Covered) : (Expr.subscript x key).Covered := by
  refine ⟨fun _ hs => absurd hs (by simp), fun hsub k u e' he hn => ?_⟩
  cases e' <;> simp only [Expr.plain, reduceCtorEq, Expr.subscript.injEq] at he
  next x' key' =>
    obtain ⟨he, rfl⟩ := he
    obtain ⟨v, w, rfl, hv, hw⟩ := hn
    simp only [Phrase.suffix, Phrase.oneOf_cons, Phrase.oneOf_nil, or_false] at hw
    rcases hw with ⟨_, _, _, rfl, -, _, _, _, rfl, -, rfl, he'⟩ |
      ⟨_, _, _, rfl, ⟨l, rfl, hl⟩, _, _, n, rfl, hm, _, _, _, rfl, ⟨r, rfl, hr⟩, rfl, he'⟩
    · cases he'
    · obtain ⟨m, value, rfl, hm, -⟩ := Phrase.stringValue_iff.mp hm
      have hname : Clause [l.token, m.token, r.token]
          [.symbol .leftBracket, .string (.enclosing key'), .symbol .rightBracket] True :=
        .cons (Clause.cons (Clause.token (not_isParen_of_is hr (by simp) (by simp)) rfl).toCovers
          (by rw [hm]; rfl) rfl).toCovers (not_isParen_of_is hl (by simp) (by simp)) rfl
      rw [tokensOf_append, Expr.pieces, tokens_append]
      refine (Solid.append (h.operand he hv) hname (by simp)).imp ?_
      rintro ⟨⟨hs, hr, hlevels⟩, _⟩
      refine ⟨?_, ?_⟩
      · exact rereads_of_parts hsub (fun _ => hs) (by simpa [Expr.parts] using hr)
      · rwa [Expr.levels]

/-- An operand with a test after it. -/
theorem tested {op : UnaryOp} {x' : Expr} (h : x.Covered) (hop : op ∈ [UnaryOp.isNull, .isNotNull])
    (he : x'.plain = x.plain) (hv : Phrase.place (phrases .anywhere k) 5 v x')
    (hw : Phrase.terminals op.terminals w) :
    Solid (tokensOf (v ++ w)) (tokens (guarded x.strength 5 x.pieces ++ space :: spaced op.terminals))
      ((x.AllApart → x.Rereads) ∧ nesting x.strength 5 x.levels ≤ k) := by
  have hterminals : op.terminals ≠ [] ∧
      ∀ x ∈ op.terminals, x ≠ .symbol .leftParen ∧ x ≠ .symbol .rightParen := by
    simp only [List.mem_cons, List.not_mem_nil, or_false] at hop
    rcases hop with rfl | rfl <;> simp [UnaryOp.terminals]
  have htest := Clause.terminals hterminals.1 hterminals.2 hw Clause.nil.toCovers
  rw [List.append_nil, List.append_nil] at htest
  have hne := Phrase.terminals_ne_nil hterminals.1 hw
  rw [tokensOf_append, tokens_append, tokens_space]
  exact (Solid.append (h.placed (by decide) he hv) htest hne).imp And.left

theorem unary {op : UnaryOp} (h : x.Covered) : (Expr.unary op x).Covered := by
  refine ⟨fun _ hs => absurd hs (by simp), fun hsub k u e' he hn => ?_⟩
  cases e' <;> simp only [Expr.plain, reduceCtorEq, Expr.unary.injEq] at he
  next op' x' =>
    obtain ⟨rfl, he⟩ := he
    have hrereads : (x.AllApart → x.Rereads) → (Expr.unary op' x).AllApart → (Expr.unary op' x).Rereads :=
      fun hr => rereads_of_parts hsub (fun _ => trivial) (by simpa [Expr.parts] using hr)
    cases op' with
    | not =>
      obtain ⟨_, v, _, rfl, ⟨l, rfl, hl⟩, hv⟩ := hn
      cases k with
      | zero => exact absurd hv id
      | succ k =>
        rw [Expr.pieces, Piece.keyword, tokens_token, tokens_space]
        refine (Solid.of_clause (Clause.keyword (n := .not) hl (is_keyword_iff.mpr ⟨_, rfl⟩)
          (h.placed (m := 3) (by decide) he hv)) (by simp)).imp ?_
        rintro ⟨hr, hlevels⟩
        refine ⟨hrereads hr, ?_⟩
        rw [Expr.levels]
        exact Nat.succ_le_succ hlevels
    | neg =>
      obtain ⟨_, v, _, rfl, ⟨l, rfl, hl⟩, hv⟩ := hn
      cases k with
      | zero => exact absurd hv id
      | succ k =>
        rw [Expr.pieces, Piece.symbol, tokens_token]
        refine (Solid.of_clause (Clause.cons (h.placed (m := 7) (by decide) he hv)
          (not_isParen_of_is hl (by simp) (by simp)) rfl) (by simp)).imp ?_
        rintro ⟨hr, hlevels⟩
        refine ⟨hrereads hr, ?_⟩
        rw [Expr.levels]
        exact Nat.succ_le_succ hlevels
    | isNull =>
      obtain ⟨v, w, rfl, hv, hw⟩ := hn
      rw [Expr.pieces]
      refine (h.tested (by simp) he hv hw).imp ?_
      rintro ⟨hr, hlevels⟩
      refine ⟨hrereads hr, ?_⟩
      rwa [Expr.levels]
    | isNotNull =>
      obtain ⟨v, w, rfl, hv, hw⟩ := hn
      rw [Expr.pieces]
      refine (h.tested (by simp) he hv hw).imp ?_
      rintro ⟨hr, hlevels⟩
      refine ⟨hrereads hr, ?_⟩
      rwa [Expr.levels]

theorem binary {op : BinaryOp} (hl : left.Covered) (hr : right.Covered) :
    (Expr.binary left op right).Covered := by
  refine ⟨fun _ hs => absurd hs (by simp), fun hsub k u e' he hn => ?_⟩
  cases e' <;> simp only [Expr.plain, reduceCtorEq, Expr.binary.injEq] at he
  next left' op' right' =>
    obtain ⟨hleft, rfl, hright⟩ := he
    obtain ⟨v, w, x, rfl, hv, hw, hx⟩ := hn
    have hbind : (Expr.binary left' op' right').strength = (Expr.binary left op' right).strength := rfl
    have hle : (Expr.binary left op' right).strength ≤ 6 := by cases op' <;> simp [Expr.strength]
    rw [hbind] at hv hx
    have hterminals : op'.terminals ≠ [] ∧
        ∀ x ∈ op'.terminals, x ≠ .symbol .leftParen ∧ x ≠ .symbol .rightParen := by
      cases op' <;> simp [BinaryOp.terminals]
    have hrest := Clause.terminals hterminals.1 hterminals.2 hw (hr.placed (by omega) hright hx)
    have hne : tokensOf w ++ tokensOf x ≠ [] := fun hnil =>
      Phrase.terminals_ne_nil hterminals.1 hw (List.append_eq_nil_iff.mp hnil).1
    have hall := Solid.append (hl.placed (by split <;> omega) hleft hv) hrest hne
    rw [Expr.pieces]
    simp only [tokensOf_append, tokens_append, tokens_space, List.append_assoc]
    refine hall.imp ?_
    rintro ⟨⟨hrl, hll⟩, hrr, hlr⟩
    refine ⟨?_, ?_⟩
    · exact rereads_of_parts hsub (fun _ => trivial) (by simpa [Expr.parts] using ⟨hrl, hrr⟩)
    · rw [Expr.levels]
      exact Nat.max_le.mpr ⟨hll, hlr⟩

/-- Operands of a connective. -/
theorem bool {op : BoolOp} (h : ∀ x ∈ args, x.Covered) : (Expr.bool op args).Covered := by
  refine ⟨fun _ hs => absurd hs (by simp), fun hsub k u e' he hn => ?_⟩
  cases e' <;> simp only [Expr.plain, reduceCtorEq, Expr.bool.injEq] at he
  next op' args' =>
    obtain ⟨rfl, he⟩ := he
    rw [Expr.plainList_eq_map, Expr.plainList_eq_map] at he
    obtain ⟨first', others', v, w, rfl, hne, rfl, hv, hw⟩ := hn
    cases args with
    | nil => cases he
    | cons first others =>
      obtain ⟨hfirst, hothers⟩ := List.cons.inj he
      have hbind : (Expr.bool op' (first' :: others')).strength =
          (Expr.bool op' (first :: others)).strength := by cases op' <;> rfl
      have hle : (Expr.bool op' (first :: others)).strength ≤ 2 := by cases op' <;> simp [Expr.strength]
      rw [hbind] at hv hw
      have hplaced : ∀ a ∈ first :: others, ∀ b v, b.plain = a.plain →
          Phrase.place (phrases .anywhere k) ((Expr.bool op' (first :: others)).strength + 1) v b →
          Covers (tokensOf v)
            (tokens (guarded a.strength ((Expr.bool op' (first :: others)).strength + 1) a.pieces))
            ((a.AllApart → a.Rereads) ∧
              nesting a.strength ((Expr.bool op' (first :: others)).strength + 1) a.levels ≤ k) :=
        fun a ha b v hb hv => (h a ha).placed (by omega) hb hv
      rw [List.forall_mem_cons] at hplaced
      have hrest := Clause.many (s := [space, Piece.keyword op'.key, space]) (by simp) rfl rfl
        hplaced.2 hothers hw
      have hnil : tokensOf w ≠ [] := by
        cases hw with
        | nil => exact absurd rfl hne
        | @cons y z _ _ hy hz =>
          obtain ⟨_, x, _, rfl, ⟨l, rfl, hl⟩, -⟩ := hy
          simp
      rw [Expr.pieces, Expr.guardedPiecesOfList_eq_map, List.map_cons, tokens_intercalate, List.flatMap_map,
        tokensOf_append]
      refine (Solid.append (hplaced.1 first' v hfirst hv) hrest hnil).imp ?_
      rintro ⟨⟨hr, hl⟩, hall⟩
      refine ⟨?_, ?_⟩
      · exact rereads_of_parts hsub (fun _ => trivial)
          (List.forall_mem_cons.mpr ⟨hr, fun x hx => (hall x hx).1⟩)
      · rw [Expr.levels_bool_le_iff]
        exact List.forall_mem_cons.mpr ⟨hl, fun x hx => (hall x hx).2⟩

theorem between (h : x.Covered) (hl : lower.Covered) (hu : upper.Covered) :
    (Expr.between x lower upper).Covered := by
  refine ⟨fun _ hs => absurd hs (by simp), fun hsub k u e' he hn => ?_⟩
  cases e' <;> simp only [Expr.plain, reduceCtorEq, Expr.between.injEq] at he
  next x' lower' upper' =>
    obtain ⟨hx, hlower, hupper⟩ := he
    obtain ⟨v, a, w, b, y, rfl, hv, ha, hw, hb, hy⟩ := hn
    have hand := Clause.keyword (n := .and) hb (s := .keyword .and Keyword.and.spelling)
      (is_keyword_iff.mpr ⟨_, rfl⟩) (hu.placed (m := 5) (by decide) hupper hy)
    have hbetween := Clause.keyword (n := .between) ha (s := .keyword .between Keyword.between.spelling)
      (is_keyword_iff.mpr ⟨_, rfl⟩) ((hl.placed (m := 5) (by decide) hlower hw).append hand)
    have hall := Solid.append (h.placed (m := 5) (by decide) hx hv) hbetween (by simp)
    rw [Expr.pieces]
    simp only [tokensOf_append, tokensOf_cons, tokens_append, clause, Piece.keyword, tokens_space,
      tokens_token, List.append_assoc, List.cons_append] at hall ⊢
    refine hall.imp ?_
    rintro ⟨⟨hrx, hlx⟩, ⟨hrl, hll⟩, hru, hlu⟩
    refine ⟨?_, ?_⟩
    · exact rereads_of_parts hsub (fun _ => trivial) (by simpa [Expr.parts] using ⟨hrx, hrl, hru⟩)
    · rw [Expr.levels]
      exact Nat.max_le.mpr ⟨hlx, Nat.max_le.mpr ⟨hll, hlu⟩⟩

/-- The runs of an expression cover its written form if those of its parts and its query do. -/
theorem of_parts {e : Expr} (h : ∀ x ∈ e.parts, x.Covered) (hq : ∀ s, e = .subselect s → s.Covered) :
    e.Covered := by
  cases e with
  | wildcard => exact wildcard
  | column n => exact column
  | constant value =>
    cases value with
    | literal value => exact literal
    | list items => exact list
  | placeholder p => exact placeholder
  | function n args => exact function h
  | «attribute» x n => exact «attribute» (h x (by simp [Expr.parts]))
  | subscript x key => exact subscript (h x (by simp [Expr.parts]))
  | unary op x => exact unary (h x (by simp [Expr.parts]))
  | binary left op right => exact binary (h left (by simp [Expr.parts])) (h right (by simp [Expr.parts]))
  | bool op args => exact bool h
  | between x lower upper =>
    exact between (h x (by simp [Expr.parts])) (h lower (by simp [Expr.parts]))
      (h upper (by simp [Expr.parts]))
  | subselect s => exact ⟨hq, fun hsub => absurd rfl (hsub s)⟩

end Expr.Covered

end LedgerQuery
