import LedgerQuery.Proofs.Phrase.Opening
import LedgerQuery.Proofs.Written.Derived

/-!
# Written expressions, one construction at a time

The tokens of an expression derive it if the tokens of its parts derive these.  There is one
lemma for each kind of expression, and one each for keys and targets.
-/

namespace LedgerQuery

open Piece

variable {u : List Lexeme} {k : Nat}

/-! ## Constants -/

theorem literalList_of_spelled {items : List Literal} (hne : items ≠ [])
    (hw : ∀ value ∈ items, value.Writable) (hu : Spelled (Constant.pieces (.list items)) u) :
    Phrase.literalList u (.constant (.list items)) := by
  obtain ⟨first, items, rfl⟩ := List.exists_cons_of_ne_nil hne
  cases items with
  | nil =>
    obtain ⟨l, v, r, rfl, hl, hr, hv⟩ := Spelled.parenthesised hu
    obtain ⟨m, v, rfl, hm, hv⟩ := Spelled.token_iff.mp hv
    obtain ⟨c, v, rfl, hc, hv⟩ := Spelled.symbol_iff.mp hv
    obtain rfl := Spelled.nil_iff.mp hv
    have hfirst : Phrase.literal [m] first :=
      Phrase.literal_iff.mpr ⟨m, rfl, by rw [hm, (hw first (by simp)).literal?_token]⟩
    have hmissing : Phrase.optional Phrase.literal [] none := rfl
    have hnone : Phrase.Many (do Phrase.symbol .comma; Phrase.optional Phrase.literal) [] [] := .nil
    exact Phrase.seq (v := [l]) (Phrase.single hl) (Phrase.seq (v := [m]) hfirst
      (Phrase.seq (v := [c]) (Phrase.single hc) (Phrase.seq (v := []) hmissing
        (Phrase.seq (v := []) hnone (Phrase.seq_pure (Phrase.single hr))))))
  | cons second items =>
    obtain ⟨l, v, r, rfl, hl, hr, hv⟩ := Spelled.parenthesised hu
    obtain ⟨c, cs, v, w, rfl, hc, hcs, hmap⟩ := Spelled.intercalate id id (fun _ => Spelled.comma)
      (fun a ha v hv => ⟨a, rfl, Spelled.literal (hw a ha) hv⟩) hv
    rw [List.map_id, List.map_id] at hmap
    obtain ⟨rfl, rfl⟩ := List.cons.inj hmap
    cases hcs with
    | @cons _ y _ _ hx hy =>
      obtain ⟨a, b, _, rfl, ha, hb⟩ := hx
      have hothers : Phrase.Many (do Phrase.symbol .comma; Phrase.optional Phrase.literal) y
          (items.map some) :=
        hy.map some fun v value ⟨x, z, _, hv, hx, hz⟩ => ⟨x, z, (), hv, hx, hz⟩
      have hsecond : Phrase.optional Phrase.literal b (some second) := hb
      have hitems : (some second :: items.map some).reduceOption = second :: items := by
        simp [List.reduceOption]
      have hlist : Phrase.literalList ([l] ++ (v ++ (a ++ (b ++ (y ++ [r])))))
          (.constant (.list (c :: (some second :: items.map some).reduceOption))) :=
        Phrase.seq (Phrase.single hl) (Phrase.seq hc (Phrase.seq ha (Phrase.seq hsecond
          (Phrase.seq hothers (Phrase.seq_pure (Phrase.single hr))))))
      rw [hitems] at hlist
      simpa using hlist

/-! ## Expressions -/

namespace Expr.Derived

variable {x left right lower upper : Expr} {args : List Expr} {n key : String}

theorem column (hn : IsName n) : (Expr.column n).Derived := fun k u _ hu => by
  rw [Expr.pieces] at hu
  exact ⟨_, rfl, .inl (Spelled.name hn hu)⟩

theorem constant {value : Constant} (hw : value.Writable) : (Expr.constant value).Derived :=
  fun k u _ hu => by
    rw [Expr.pieces] at hu
    refine ⟨_, rfl, .inl ?_⟩
    cases value with
    | literal value => exact Spelled.literal hw hu
    | list items => exact literalList_of_spelled hw.1 hw.2 hu

theorem placeholder {p : Placeholder} : (Expr.placeholder p).Derived := fun k u _ hu => by
  rw [Expr.pieces] at hu
  obtain ⟨l, rfl, hl⟩ := Spelled.one hu
  exact ⟨_, rfl, .inl (Phrase.placeholder_iff.mpr ⟨l, rfl, hl⟩)⟩

/-- Arguments one level deeper, or a single star. -/
theorem arguments (hw : .wildcard ∈ args → args = [.wildcard]) (h : ∀ x ∈ args, x ≠ .wildcard → x.Derived)
    (hk : ∀ x ∈ args, x ≠ .wildcard → x.levels + 1 ≤ k)
    (hu : Spelled (parenthesised (commaSeparated (args.map Expr.pieces))) u) :
    ∃ args', args'.map Expr.plain = args.map Expr.plain ∧
      Phrase.arguments (phrases .parenthesised k) u args' := by
  obtain ⟨l, v, r, rfl, hl, hr, hv⟩ := Spelled.parenthesised hu
  by_cases hstar : .wildcard ∈ args
  · obtain rfl := hw hstar
    obtain ⟨m, rfl, hm⟩ := Spelled.one (t := .symbol .star) hv
    have hstar : m.token.is (.symbol .star) = true := Token.is_symbol_iff.mpr hm
    exact ⟨_, rfl, Phrase.oneOf_head (Phrase.seq (Phrase.single hl)
      (Phrase.seq (Phrase.single hstar) (Phrase.seq_pure (Phrase.single hr))))⟩
  by_cases hnil : args = []
  · subst hnil
    obtain rfl : v = [] := Spelled.nil_iff.mp hv
    exact ⟨[], rfl, Phrase.oneOf_tail (Phrase.oneOf_head
      (Phrase.seq (v := [l]) (Phrase.single hl) (Phrase.seq_pure (Phrase.single hr))))⟩
  · obtain ⟨args', hmap, hargs⟩ := Spelled.commaList (L := (phrases .parenthesised k).expr)
      Expr.plain Expr.plain hnil (fun x hx v hv => by
        have hne : x ≠ .wildcard := fun he => hstar (he ▸ hx)
        exact (h x hx hne).expr (hk x hx hne) hv) hv
    exact ⟨args', hmap, Phrase.oneOf_tail (Phrase.oneOf_tail (Phrase.oneOf_head
      (Phrase.seq (Phrase.single hl) (Phrase.seq hargs (Phrase.seq_pure (Phrase.single hr))))))⟩

theorem function (hn : IsName n) (hw : .wildcard ∈ args → args = [.wildcard])
    (h : ∀ x ∈ args, x ≠ .wildcard → x.Derived) : (Expr.function n args).Derived := fun k u hk hu => by
  rw [Expr.levels_function_le_iff] at hk
  rw [Expr.pieces_function] at hu
  obtain ⟨l, w, rfl, hl, hw'⟩ := Spelled.word hn hu
  obtain ⟨args', hmap, hargs⟩ := arguments hw h hk hw'
  refine ⟨.function n args', ?_, .inl ⟨[l], w, rfl, ⟨l, rfl, hl⟩, hargs⟩⟩
  rw [Expr.plain_function, Expr.plain_function, hmap]

/-- A suffix applied to a primary. -/
theorem suffixed (h : x.Derived) (hs : x.Suffixable) (hk : x.levels ≤ k) {ps : List Piece}
    {s : Parser.Suffix} (hps : ∀ w, Spelled ps w → Phrase.suffix w s)
    (hu : Spelled (guarded x.strength 8 x.pieces ++ ps) u) : ∃ v w x', x'.plain = x.plain ∧
      u = v ++ w ∧ Phrase.place (phrases .parenthesised k) 8 v x' ∧ Phrase.suffix w s := by
  obtain ⟨v, w, rfl, hv, hw⟩ := Spelled.append_iff.mp hu
  obtain ⟨x', hx, hplace⟩ := h.primary hs hk hv
  exact ⟨v, w, x', hx, rfl, hplace, hps w hw⟩

theorem «attribute» (h : x.Derived) (hs : x.Suffixable) (hn : IsName n) :
    (Expr.attribute x n).Derived := fun k u hk hu => by
  rw [Expr.levels] at hk
  rw [Expr.pieces] at hu
  have hsuffix : ∀ w, Spelled [symbol .dot, word n] w → Phrase.suffix w (.attribute n) := by
    intro w hw
    obtain ⟨l, w, rfl, hl, hw⟩ := Spelled.symbol_iff.mp hw
    exact Phrase.oneOf_head (Phrase.seq (v := [l]) (Phrase.single hl)
      (Phrase.seq_pure (Spelled.name hn hw)))
  obtain ⟨v, w, x', hx, rfl, hplace, hw⟩ := h.suffixed hs hk hsuffix hu
  exact ⟨.attribute x' n, by rw [Expr.plain, Expr.plain, hx], .inl ⟨v, w, rfl, hplace, hw⟩⟩

theorem subscript (h : x.Derived) (hs : x.Suffixable) : (Expr.subscript x key).Derived :=
  fun k u hk hu => by
    rw [Expr.levels] at hk
    rw [Expr.pieces] at hu
    have hsuffix : ∀ w, Spelled [symbol .leftBracket, token (.string (.enclosing key)),
        symbol .rightBracket] w → Phrase.suffix w (.subscript key) := by
      intro w hw
      obtain ⟨l, w, rfl, hl, hw⟩ := Spelled.symbol_iff.mp hw
      obtain ⟨m, w, rfl, hm, hw⟩ := Spelled.token_iff.mp hw
      obtain ⟨r, w, rfl, hr, hw⟩ := Spelled.symbol_iff.mp hw
      obtain rfl := Spelled.nil_iff.mp hw
      have hkey : Phrase.stringValue [m] key := Phrase.stringValue_iff.mpr ⟨m, _, rfl, hm, rfl⟩
      exact Phrase.oneOf_tail (Phrase.oneOf_head (Phrase.seq (v := [l]) (Phrase.single hl)
        (Phrase.seq (v := [m]) hkey (Phrase.seq_pure (Phrase.single hr)))))
    obtain ⟨v, w, x', hx, rfl, hplace, hw⟩ := h.suffixed hs hk hsuffix hu
    exact ⟨.subscript x' key, by rw [Expr.plain, Expr.plain, hx], .inl ⟨v, w, rfl, hplace, hw⟩⟩

/-- A test of the operand that stands before it. -/
theorem tested (h : x.Derived) {op : UnaryOp} (hk : nesting x.strength 5 x.levels ≤ k)
    (hu : Spelled (guarded x.strength 5 x.pieces ++ space :: spaced op.terminals) u) :
    ∃ x', x'.plain = x.plain ∧ ∃ v w, u = v ++ w ∧ Phrase.place (phrases .parenthesised k) 5 v x' ∧
      Phrase.terminals op.terminals w := by
  obtain ⟨v, w, rfl, hv, hw⟩ := Spelled.append_iff.mp hu
  obtain ⟨x', hx, hplace⟩ := h.place (by decide) hk hv
  exact ⟨x', hx, v, w, rfl, hplace, Spelled.terminals (Spelled.space_iff.mp hw)⟩

theorem unary {op : UnaryOp} (h : x.Derived) : (Expr.unary op x).Derived := fun k u hk hu => by
  cases op with
  | not =>
    rw [Expr.levels] at hk
    rw [Expr.pieces] at hu
    obtain ⟨k, rfl⟩ : ∃ j, k = j + 1 := ⟨k - 1, by omega⟩
    obtain ⟨l, v, rfl, hl, hv⟩ := Spelled.keyword hu
    obtain ⟨x', hx, hplace⟩ := h.place (m := 3) (by decide) (Nat.le_of_succ_le_succ hk) hv
    exact ⟨.unary .not x', by rw [Expr.plain, Expr.plain, hx],
      .inl (Phrase.seq (v := [l]) (Phrase.single hl) hplace)⟩
  | neg =>
    rw [Expr.levels] at hk
    rw [Expr.pieces] at hu
    obtain ⟨k, rfl⟩ : ∃ j, k = j + 1 := ⟨k - 1, by omega⟩
    obtain ⟨l, v, rfl, hl, hv⟩ := Spelled.symbol_iff.mp hu
    obtain ⟨x', hx, hplace⟩ := h.place (m := 7) (by decide) (Nat.le_of_succ_le_succ hk) hv
    exact ⟨.unary .neg x', by rw [Expr.plain, Expr.plain, hx],
      .inl (Phrase.seq (v := [l]) (Phrase.single hl) hplace)⟩
  | isNull =>
    rw [Expr.levels] at hk
    rw [Expr.pieces] at hu
    obtain ⟨x', hx, hn⟩ := h.tested hk hu
    exact ⟨.unary .isNull x', by rw [Expr.plain, Expr.plain, hx], .inl hn⟩
  | isNotNull =>
    rw [Expr.levels] at hk
    rw [Expr.pieces] at hu
    obtain ⟨x', hx, hn⟩ := h.tested hk hu
    exact ⟨.unary .isNotNull x', by rw [Expr.plain, Expr.plain, hx], .inl hn⟩

theorem binary {op : BinaryOp} (hl : left.Derived) (hr : right.Derived) :
    (Expr.binary left op right).Derived := fun k u hk hu => by
  rw [Expr.levels] at hk
  rw [Expr.pieces] at hu
  have hbind : ∀ a b, (Expr.binary a op b).strength = (Expr.binary left op right).strength :=
    fun _ _ => rfl
  have hle : (Expr.binary left op right).strength ≤ 6 := by cases op <;> simp [Expr.strength]
  obtain ⟨y, x, rfl, hy, hx⟩ := Spelled.append_iff.mp hu
  obtain ⟨v, w, rfl, hv, hw⟩ := Spelled.append_iff.mp hy
  obtain ⟨left', hleft, hv⟩ := hl.place (by split <;> omega) (Nat.le_trans (Nat.le_max_left ..) hk) hv
  obtain ⟨right', hright, hx⟩ :=
    hr.place (by omega) (Nat.le_trans (Nat.le_max_right ..) hk) (Spelled.space_iff.mp hx)
  refine ⟨.binary left' op right', by rw [Expr.plain, Expr.plain, hleft, hright], .inl ?_⟩
  refine ⟨v, w, x, by simp, ?_, Spelled.terminals (Spelled.space_iff.mp hw), ?_⟩
  · rw [hbind]
    exact hv
  · rw [hbind]
    exact hx

/-- Operands of a connective, at places of one kind. -/
theorem bool {op : BoolOp} (hlen : 2 ≤ args.length) (h : ∀ x ∈ args, x.Derived) :
    (Expr.bool op args).Derived := fun k u hk hu => by
  obtain ⟨first, others, rfl⟩ : ∃ first others, args = first :: others := by
    cases args with
    | nil => simp at hlen
    | cons first others => exact ⟨first, others, rfl⟩
  rw [Expr.levels_bool_le_iff] at hk
  rw [Expr.pieces, Expr.guardedPiecesOfList_eq_map] at hu
  have hbind : ∀ args, (Expr.bool op args).strength = (Expr.bool op (first :: others)).strength :=
    fun _ => by cases op <;> rfl
  have hle : (Expr.bool op (first :: others)).strength ≤ 2 := by cases op <;> simp [Expr.strength]
  have hkey : ∀ v, Spelled [space, keyword op.key, space] v →
      Phrase.terminal (.keyword op.key) v () := by
    intro v hv
    obtain ⟨l, w, rfl, hl, hw⟩ := Spelled.keyword (Spelled.space_iff.mp hv)
    obtain rfl : w = [] := Spelled.nil_iff.mp hw
    exact Phrase.single hl
  obtain ⟨first', others', v, w, rfl, hv, hw, hmap⟩ := Spelled.intercalate Expr.plain Expr.plain hkey
    (fun x hx v hv => (h x hx).place (by omega) (hk x hx) hv) hu
  refine ⟨.bool op (first' :: others'), ?_, .inl ⟨first', others', v, w, rfl, ?_, rfl, ?_⟩⟩
  · rw [Expr.plain_bool, Expr.plain_bool, hmap]
  · rintro rfl
    have := congrArg List.length hmap
    simp only [List.map_cons, List.map_nil, List.length_cons, List.length_nil, List.length_map] at this hlen
    omega
  · rw [hbind]
    exact ⟨hv, hw⟩

theorem between (h : x.Derived) (hl : lower.Derived) (hu : upper.Derived) :
    (Expr.between x lower upper).Derived := fun k u hk hs => by
  rw [Expr.levels, Nat.max_le, Nat.max_le] at hk
  rw [Expr.pieces] at hs
  obtain ⟨y, z, rfl, hy, hz⟩ := Spelled.append_iff.mp hs
  obtain ⟨v, w, rfl, hv, hw⟩ := Spelled.append_iff.mp hy
  obtain ⟨a, w, rfl, ha, hw⟩ := Spelled.keyword (Spelled.space_iff.mp hw)
  obtain ⟨b, z, rfl, hb, hz⟩ := Spelled.keyword (Spelled.space_iff.mp hz)
  obtain ⟨x', hx, hv⟩ := h.place (by decide) hk.1 hv
  obtain ⟨lower', hlower, hw⟩ := hl.place (by decide) hk.2.1 (Spelled.space_iff.mp hw)
  obtain ⟨upper', hupper, hz⟩ := hu.place (by decide) hk.2.2 (Spelled.space_iff.mp hz)
  exact ⟨.between x' lower' upper', by simp only [Expr.plain, hx, hlower, hupper],
    .inl ⟨v, a, w, b, z, by simp, hv, ha, hw, hb, hz⟩⟩

end Expr.Derived

/-- Whether the tokens of a query derive it. -/
def Select.Derived (s : Select) : Prop :=
  ∀ k u, s.levels ≤ k → Spelled s.pieces u → ∃ s', s'.plain = s.plain ∧
    Phrase.select (phrases .parenthesised k) u s'

/-- A query in parentheses, two levels deeper. -/
theorem Expr.Derived.subselect {s : Select} (h : s.Derived) : (Expr.subselect s).Derived :=
  fun k u hk hu => by
    rw [Expr.levels] at hk
    rw [Expr.pieces] at hu
    obtain ⟨k, rfl⟩ : ∃ j, k = j + 2 := ⟨k - 2, by omega⟩
    obtain ⟨l, v, r, rfl, hl, hr, hv⟩ := Spelled.parenthesised hu
    obtain ⟨s', hs, hselect⟩ := h k v (by omega) hv
    refine ⟨.subselect s', by rw [Expr.plain, Expr.plain, hs], .inr ⟨⟨s, rfl⟩, ?_⟩⟩
    exact Phrase.oneOf_tail (Phrase.oneOf_head (Phrase.seq (Phrase.single hl)
      (Phrase.seq hselect (Phrase.seq_pure (Phrase.single hr)))))

/-! ## Keys and targets -/

/-- Only an integer literal is written as an integer. -/
theorem Expr.tokens_ne_integer {e : Expr} (hw : e.Writable) (he : ∀ n, e ≠ .literal (.integer n))
    (digits : String) : tokens e.pieces ≠ [.integer digits] := by
  intro h
  -- Every other expression has a token that is no integer.
  have hall : ∀ t ∈ tokens e.pieces, t = .integer digits := by simp [h]
  cases e with
  | wildcard => simp [Expr.pieces, symbol] at hall
  | column n =>
    simp only [Expr.pieces, word, tokens_token, List.forall_mem_cons, Token.ofWord] at hall
    split at hall <;> cases hall.1
  | constant value =>
    cases value with
    | literal value =>
      cases value with
      | integer n => exact he n rfl
      | boolean b => cases b <;> simp [Expr.pieces, Constant.pieces, Literal.token] at hall
      | _ => simp [Expr.pieces, Constant.pieces, Literal.token] at hall
    | list items =>
      obtain _ | ⟨a, _ | ⟨b, items⟩⟩ := items
      · exact absurd rfl hw.1
      · simp [Expr.pieces, Constant.pieces, parenthesised, symbol] at hall
      · simp [Expr.pieces, Constant.pieces, parenthesised, symbol] at hall
  | placeholder p => simp [Expr.pieces] at hall
  | function n args =>
    simp [Expr.pieces, word, parenthesised, symbol, or_imp, forall_and] at hall
  | «attribute» x n => simp [Expr.pieces, symbol, or_imp, forall_and] at hall
  | subscript x key => simp [Expr.pieces, symbol, or_imp, forall_and] at hall
  | unary op x =>
    cases op <;>
      simp [Expr.pieces, keyword, symbol, UnaryOp.terminals, spaced, terminal, or_imp, forall_and] at hall
  | binary left op right =>
    cases op <;>
      simp [Expr.pieces, keyword, symbol, BinaryOp.terminals, spaced, terminal, or_imp, forall_and]
        at hall
  | bool op args =>
    obtain ⟨hlen, -⟩ := hw
    obtain _ | ⟨a, _ | ⟨b, args⟩⟩ := args
    · simp at hlen
    · simp at hlen
    · simp [Expr.pieces, keyword, Expr.guardedPiecesOfList, List.intercalate_cons_cons, or_imp,
        forall_and] at hall
  | between x lower upper => simp [Expr.pieces, clause, keyword, or_imp, forall_and] at hall
  | subselect q => simp [Expr.pieces, parenthesised, symbol] at hall

/-- A key is derived if its expression is.  An integer literal is in parentheses, and any other
expression is not written as an integer. -/
theorem ColumnKey.derived {key : ColumnKey} (hw : ∀ e ∈ key.parts, e.Writable)
    (h : ∀ e ∈ key.parts, e.Derived) (hk : key.levels ≤ k) (hu : Spelled key.pieces u) :
    ∃ key', key'.plain = key.plain ∧ Phrase.columnKey (phrases .parenthesised k) u key' := by
  cases key with
  | index n =>
    rw [ColumnKey.pieces] at hu
    exact ⟨.index n, rfl, Phrase.oneOf_head (Phrase.seq_pure (Spelled.number hu))⟩
  | expr e =>
    have hd : e.Derived := h e (by simp [ColumnKey.parts])
    by_cases hint : ∃ n, e = .literal (.integer n)
    · obtain ⟨n, rfl⟩ := hint
      obtain ⟨k, rfl⟩ : ∃ j, k = j + 1 := ⟨k - 1, by rw [Expr.literal, ColumnKey.levels] at hk; omega⟩
      obtain ⟨e', he, hb⟩ := hd.grouped (k := k) (by
        rw [Expr.literal, ColumnKey.levels] at hk
        rw [Expr.literal, Expr.levels]
        omega) hu
      refine ⟨.expr e', by rw [ColumnKey.plain, ColumnKey.plain, he], ?_⟩
      refine Phrase.oneOf_tail (Phrase.oneOf_head (Phrase.seq_pure ⟨?_, ?_⟩))
      · exact (Phrase.place_iff (m := 1) (by decide)).mpr (.inl hb)
      · rintro ⟨digits, span, rfl⟩
        obtain ⟨l, v, r, hlen, -⟩ := Spelled.parenthesised hu
        simpa using congrArg List.length hlen
    · have hne : ∀ n, e ≠ .literal (.integer n) := fun n he => hint ⟨n, he⟩
      rw [ColumnKey.levels_expr hne] at hk
      rw [ColumnKey.pieces_expr hne] at hu
      obtain ⟨k, rfl⟩ : ∃ j, k = j + 1 := ⟨k - 1, by omega⟩
      obtain ⟨e', he, hexpr⟩ := hd.expr hk hu
      refine ⟨.expr e', by rw [ColumnKey.plain, ColumnKey.plain, he], ?_⟩
      refine Phrase.oneOf_tail (Phrase.oneOf_head (Phrase.seq_pure ⟨hexpr, ?_⟩))
      rintro ⟨digits, span, rfl⟩
      exact Expr.tokens_ne_integer (hw e (by simp [ColumnKey.parts])) hne digits hu.symm

theorem Spelled.as {n : String} (hn : IsName n) (hu : Spelled (clause .as [Piece.word n]) u) :
    (do Phrase.keyword .as; Phrase.name : Phrase String) u n := by
  obtain ⟨l, v, rfl, hl, hv⟩ := Spelled.keyword (Spelled.space_iff.mp hu)
  exact Phrase.seq (v := [l]) (Phrase.single hl) (Spelled.name hn (Spelled.space_iff.mp hv))

theorem Target.derived {t : Target} (hn : ∀ n ∈ t.name, IsName n) (h : t.expr.Derived)
    (hk : t.expr.levels + 1 ≤ k) (hu : Spelled t.pieces u) :
    ∃ t', t'.plain = t.plain ∧ Phrase.target (phrases .parenthesised k) u t' := by
  obtain ⟨v, w, rfl, hv, hw⟩ := Spelled.append_iff.mp hu
  obtain ⟨e, he, hexpr⟩ := h.expr hk hv
  obtain ⟨name, hname, hw⟩ := Spelled.optional id id (fun n hm x hx => ⟨n, rfl, Spelled.as (hn n hm) hx⟩) hw
  rw [Option.map_id] at hname
  have hne : v ++ w ≠ [] := by
    obtain ⟨l, x, rfl, -⟩ := phrases_expr_opens hexpr
    simp
  obtain ⟨first, hfirst⟩ := Option.ne_none_iff_exists'.mp (mt List.head?_eq_none_iff.mp hne)
  obtain ⟨last, hlast⟩ := Option.ne_none_iff_exists'.mp (mt List.getLast?_eq_none_iff.mp hne)
  refine ⟨⟨e, name, some (first.span.merge last.span)⟩, ?_, ?_⟩
  · rw [Target.plain, Target.plain, he, show name = t.name from hname]
  · refine Phrase.seq_pure (a := ((e, name), first.span.merge last.span)) ⟨?_, first, hfirst, last, hlast, rfl⟩
    exact Phrase.seq hexpr (Phrase.seq_pure hw)

theorem Targets.derived {t : Targets} (hw : t.Writable) (h : ∀ e ∈ t.parts, e.Derived)
    (hk : t.levels ≤ k) (hu : Spelled t.pieces u) :
    ∃ t', t'.plain = t.plain ∧ Phrase.targets (phrases .parenthesised k) u t' := by
  cases t with
  | all =>
    rw [Targets.pieces] at hu
    obtain ⟨l, v, rfl, hl, hv⟩ := Spelled.symbol_iff.mp hu
    obtain rfl := Spelled.nil_iff.mp hv
    exact ⟨.all, rfl, Phrase.oneOf_head (Phrase.seq_pure (Phrase.single hl))⟩
  | list items =>
    rw [Targets.levels, Target.levelsOfList_le_iff] at hk
    rw [Targets.pieces_list] at hu
    obtain ⟨items', hmap, hitems⟩ := Spelled.commaList Target.plain Target.plain hw.1
      (fun t ht v hv => Target.derived (hw.2 t ht) (h _ (List.mem_map_of_mem ht)) (hk t ht) hv) hu
    refine ⟨.list items', ?_, Phrase.oneOf_tail (Phrase.oneOf_head (Phrase.seq_pure hitems))⟩
    simp only [Targets.plain, Target.plainList_eq_map, hmap]

end LedgerQuery
