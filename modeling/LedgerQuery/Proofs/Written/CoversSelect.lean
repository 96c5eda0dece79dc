import LedgerQuery.Proofs.Phrase.Parts
import LedgerQuery.Proofs.Written.CoversTree

/-!
# Covering of clauses, queries and statements

The runs of a query cover its written form if those of its parts do.  Together with the
lemmas on expressions, induction over the parts of trees gives this for every tree
(`Statement.covered`).
-/

namespace LedgerQuery

open Token Piece

variable {u v w : List Lexeme} {k : Nat}

/-! ## Keys and targets -/

theorem count_run {n : UInt64} (h : Phrase.count u n) : ∃ l, u = [l] ∧ l.token.isParen = false := by
  obtain ⟨l, digits, rfl, hl, -⟩ := Phrase.count_iff.mp h
  exact ⟨l, rfl, by rw [hl]; rfl⟩

/-- An integer literal has parentheses around it as a key. -/
theorem ColumnKey.integer_covered {n : Int64} {e : Expr} (he : e.plain = (Expr.literal (.integer n)).plain)
    (hp : (phrases .anywhere k).key u e) :
    Covers (tokensOf u) (tokens (ColumnKey.expr (.literal (.integer n))).pieces) (2 ≤ k) := by
  cases k with
  | zero => exact absurd hp id
  | succ k =>
    obtain ⟨a, v, b, j, rfl, hn, htilt, hw⟩ := Phrase.place_wrapped (m := 1) (by decide) hp
    obtain ⟨l, rfl, hl⟩ : ∃ l, v = [l] ∧ l.token.isParen = false := by
      cases e <;> simp only [Expr.literal, Expr.plain, reduceCtorEq] at he
      next constant =>
        cases constant with
        | literal value =>
          obtain ⟨l, rfl, hl⟩ := Phrase.literal_iff.mp hn
          exact ⟨l, rfl, not_isParen_of_literal hl⟩
        | list items => simp [Constant.plain] at he
    rw [tokensOf_append, tokensOf_append, Expr.literal, ColumnKey.pieces, tokens_parenthesised, tokens_token]
    have hliteral := Clause.token hl (Literal.integer n).not_isParen_token
    refine hliteral.toCovers.wrapped htilt (by simp [isParen])
      hliteral.toCovers.parenthesised.tilt_right fun hweight hu => ?_
    rcases hw with hw | ⟨i, ha, hb, hle, -⟩
    · omega
    · cases i with
      | zero =>
        rw [ha, hb] at hu
        simpa [lefts, rights] using congrArg List.length hu
      | succ i => omega

theorem ColumnKey.covered {key key' : ColumnKey} (h : ∀ e ∈ key.parts, e.Covered)
    (he : key'.plain = key.plain) (hu : Phrase.columnKey (phrases .anywhere k) u key') :
    Covers (tokensOf u) (tokens key.pieces)
      ((∀ e ∈ key.parts, e.AllApart → e.Rereads) ∧ key.levels ≤ k) := by
  simp only [Phrase.columnKey, Phrase.oneOf_cons, Phrase.oneOf_nil, or_false] at hu
  cases key with
  | index n =>
    rcases hu with ⟨_, _, n', rfl, hn, rfl, rfl⟩ | ⟨_, _, e, rfl, -, rfl, rfl⟩
    · obtain ⟨l, rfl, hl⟩ := count_run hn
      rw [ColumnKey.pieces, number, tokens_token]
      exact (Clause.token hl rfl).toCovers.imp fun _ => ⟨by simp [ColumnKey.parts], Nat.zero_le _⟩
    · simp [ColumnKey.plain] at he
  | expr e =>
    rcases hu with ⟨_, _, n', rfl, -, rfl, rfl⟩ | ⟨_, _, e', rfl, hv, rfl, rfl⟩
    · simp [ColumnKey.plain] at he
    · rw [ColumnKey.plain, ColumnKey.plain, ColumnKey.expr.injEq] at he
      rw [List.append_nil]
      by_cases hint : ∃ n, e = .literal (.integer n)
      · obtain ⟨n, rfl⟩ := hint
        refine (ColumnKey.integer_covered he hv).imp fun hk => ⟨?_, ?_⟩
        · rw [ColumnKey.parts, List.forall_mem_singleton]
          exact Expr.rereads_of_parts (by simp [Expr.literal]) (fun _ => trivial)
            (by simp [Expr.literal, Expr.parts])
        · rwa [Expr.literal, ColumnKey.levels]
      · have hne : ∀ n, e ≠ .literal (.integer n) := fun n he => hint ⟨n, he⟩
        rw [ColumnKey.pieces_expr hne, ColumnKey.levels_expr hne, ColumnKey.parts, List.forall_mem_singleton]
        cases k with
        | zero => exact absurd hv id
        | succ k => exact (h e (by simp [ColumnKey.parts])).expr he hv

/-- A name after `AS` or `AT`. -/
theorem named_covered {m : Keyword} {o : Option String}
    (hu : Phrase.optional (do Phrase.keyword m; Phrase.name) u o) :
    Clause (tokensOf u) (tokens (ofOption (fun n => clause m [word n]) o)) True := by
  refine (Clause.optional (f := fun n => clause m [word n]) (g := id) (i := id) (R := fun _ => True)
    (fun n _ n' v _ hv => ?_) rfl hu).imp fun _ => trivial
  obtain ⟨_, _, _, rfl, ⟨l, rfl, hl⟩, ⟨r, rfl, hr⟩⟩ := hv
  exact Clause.keyword hl (n := m) (is_keyword_iff.mpr ⟨_, rfl⟩)
    (Clause.token (not_isParen_of_name hr) (not_isParen_ofWord n)).toCovers

theorem Target.covered {t t' : Target} (h : t.expr.Covered) (he : t'.plain = t.plain)
    (hu : Phrase.target (phrases .anywhere k) u t') :
    Covers (tokensOf u) (tokens t.pieces)
      ((t.expr.AllApart → t.expr.Rereads) ∧ t.expr.levels + 1 ≤ k) := by
  obtain ⟨_, _, ⟨⟨e, name⟩, span⟩, rfl, ⟨⟨v, _, e', rfl, hv, w, _, name', rfl, hw, rfl, hname⟩, -⟩, rfl, rfl⟩ := hu
  obtain ⟨rfl, rfl⟩ := Prod.mk.inj hname
  simp only [Target.plain, Target.mk.injEq, and_true] at he
  rw [List.append_nil, List.append_nil, tokensOf_append, Target.pieces, tokens_append, ← he.2]
  exact ((h.expr he.1 hv).append (named_covered hw)).imp And.left

theorem Targets.covered {t t' : Targets} (h : ∀ e ∈ t.parts, e.Covered) (he : t'.plain = t.plain)
    (hu : Phrase.targets (phrases .anywhere k) u t') :
    Covers (tokensOf u) (tokens t.pieces)
      ((∀ e ∈ t.parts, e.AllApart → e.Rereads) ∧ t.levels ≤ k) := by
  simp only [Phrase.targets, Phrase.oneOf_cons, Phrase.oneOf_nil, or_false] at hu
  cases t with
  | all =>
    rcases hu with ⟨_, _, _, rfl, ⟨l, rfl, hl⟩, rfl, rfl⟩ | ⟨_, _, items, rfl, -, rfl, rfl⟩
    · rw [Targets.pieces, Piece.symbol, tokens_token]
      exact (Clause.token (not_isParen_of_is hl (by simp) (by simp)) rfl).toCovers.imp
        fun _ => ⟨by simp [Targets.parts], Nat.zero_le _⟩
    · simp [Targets.plain] at he
  | list items =>
    rcases hu with ⟨_, _, _, rfl, -, rfl, rfl⟩ | ⟨_, _, items', rfl, hv, rfl, rfl⟩
    · simp [Targets.plain] at he
    · simp only [Targets.plain, Target.plainList_eq_map, Targets.list.injEq] at he
      rw [List.append_nil, Targets.pieces_list, Targets.levels, Target.levelsOfList_le_iff]
      refine (Covers.commaList (R := fun t : Target => (t.expr.AllApart → t.expr.Rereads) ∧ t.expr.levels + 1 ≤ k)
        (fun t ht t' v ht' hv => Target.covered (h _ (List.mem_map_of_mem ht)) ht' hv) he hv).imp
          fun hr => ⟨?_, fun t ht => (hr t ht).2⟩
      simp only [Targets.parts, List.forall_mem_map]
      exact fun t ht => (hr t ht).1

/-! ## Filters and sources -/

theorem date_run {d : Date} (h : Phrase.date u d) : ∃ l, u = [l] ∧ l.token.isParen = false := by
  obtain ⟨l, written, rfl, hl, -⟩ := Phrase.date_iff.mp h
  exact ⟨l, rfl, by rw [hl]; rfl⟩

theorem opening_covered {d d' : Date} (hd : d' = d) (hu : Phrase.opening u d') :
    Clause (tokensOf u) (tokens (openingPieces d)) True := by
  subst hd
  obtain ⟨_, _, _, rfl, ⟨l, rfl, hl⟩, _, _, _, rfl, ⟨m, rfl, hm⟩, hv⟩ := hu
  obtain ⟨n, rfl, hn⟩ := date_run hv
  have hdate : Clause [n.token] [.date d'.text] True := Clause.token hn rfl
  exact Clause.keyword hl (n := .open) (is_keyword_iff.mpr ⟨_, rfl⟩)
    (Clause.keyword hm (n := .on) (is_keyword_iff.mpr ⟨_, rfl⟩) hdate.toCovers).toCovers

theorem closing_covered {c c' : Closing} (hc : c' = c) (hu : Phrase.closing u c') :
    Clause (tokensOf u) (tokens c.pieces) True := by
  subst hc
  simp only [Phrase.closing, Phrase.oneOf_cons, Phrase.oneOf_nil, or_false] at hu
  rcases hu with ⟨_, _, _, rfl, ⟨l, rfl, hl⟩, rfl, rfl⟩ |
    ⟨_, _, _, rfl, ⟨l, rfl, hl⟩, _, _, _, rfl, ⟨m, rfl, hm⟩, _, _, d, rfl, hv, rfl, rfl⟩
  · exact Clause.keyword hl (n := .close) (is_keyword_iff.mpr ⟨_, rfl⟩) Clause.nil.toCovers
  · obtain ⟨n, rfl, hn⟩ := date_run hv
    have hdate : Clause [n.token] [.date d.text] True := Clause.token hn rfl
    exact Clause.keyword hl (n := .close) (is_keyword_iff.mpr ⟨_, rfl⟩)
      (Clause.keyword hm (n := .on) (is_keyword_iff.mpr ⟨_, rfl⟩) hdate.toCovers).toCovers

theorem flag_covered {m : Keyword} {b : Bool} (ps : List Piece)
    (hps : tokens ps = [.keyword m m.spelling]) (hu : Phrase.flag (.keyword m) u b) :
    Clause (tokensOf u) (tokens (if b then ps else [])) True := by
  cases b with
  | false =>
    obtain rfl : u = [] := hu
    exact Clause.nil
  | true =>
    obtain ⟨l, rfl, hl⟩ := Phrase.of_flag hu
    rw [if_pos rfl, hps]
    exact Clause.keyword hl (n := m) (is_keyword_iff.mpr ⟨_, rfl⟩) Clause.nil.toCovers

/-- A run that begins with some terminals as tokens. -/
theorem StartsWith.run {terminals : List Terminal} (h : StartsWith terminals (tokensOf u)) :
    ∃ v w, u = v ++ w ∧ Phrase.terminals terminals v := by
  refine ⟨u.take terminals.length, u.drop terminals.length, (List.take_append_drop _ u).symm, ?_⟩
  rw [StartsWith, tokensOf, ← List.map_take, List.map_map] at h
  exact h

/-- The run of an expression that begins like no modifier does not do so as written. -/
theorem not_startsWith_modifier (h : ¬ Phrase.BeginsWithModifier u) :
    ∀ terminals ∈ modifierStarts, ¬ StartsWith terminals (tokensOf u) := by
  intro terminals hm hs
  obtain ⟨m, hmem, rfl⟩ : ∃ m ∈ [Keyword.open, .close, .clear], terminals = [.keyword m] := by
    simp only [modifierStarts, List.mem_cons, List.not_mem_nil, or_false] at hm
    rcases hm with rfl | rfl | rfl <;> exact ⟨_, by simp, rfl⟩
  obtain ⟨v, w, rfl, hv⟩ := hs.run
  obtain ⟨l, rfl, hl⟩ := Phrase.terminals_one.mp hv
  exact h ⟨l, rfl, m, hmem, hl⟩

theorem not_startsWith_query (h : ¬ Phrase.BeginsWithQuery (u ++ v)) :
    ¬ StartsWith queryStart (tokensOf u) := by
  intro hs
  obtain ⟨x, w, rfl, hx⟩ := hs.run
  obtain ⟨l, x, rfl, hl, hx⟩ := Phrase.terminals_cons.mp hx
  obtain ⟨m, rfl, hm⟩ := Phrase.terminals_one.mp hx
  exact h ⟨l, m, _, rfl, hl, hm⟩

theorem EntryFilter.covered {f f' : EntryFilter} {starts : List (List Terminal)}
    (hstarts : ∀ terminals ∈ starts, terminals ∈ modifierStarts ∨
      terminals = queryStart ∧ ¬ Phrase.BeginsWithQuery u)
    (h : ∀ e ∈ f.expression, e.Covered) (he : f'.plain = f.plain)
    (hu : Phrase.entryFilter (phrases .anywhere k) u f') :
    Covers (tokensOf u) (tokens f.pieces) (f.Separates starts ∧
      (∀ e ∈ f.expression, e.AllApart → e.Rereads) ∧ f.levels ≤ k) := by
  rw [EntryFilter.plain_eq, EntryFilter.plain_eq f, EntryFilter.mk.injEq] at he
  obtain ⟨hexpression, hopen, hclose, hclear⟩ := he
  obtain ⟨hpart, v, w, x, y, rfl, hv, hw, hx, hy⟩ := Phrase.entryFilter_iff.mp hu
  rw [hopen] at hw
  rw [hclose] at hx
  rw [hclear] at hy
  have hopening : Clause (tokensOf w) (tokens (ofOption openingPieces f.openOn)) (∀ d ∈ f.openOn, True) :=
    Clause.optional (fun d _ d' v hd hv => opening_covered hd hv) rfl hw
  have hclosing : Clause (tokensOf x) (tokens (ofOption Closing.pieces f.close)) (∀ c ∈ f.close, True) :=
    Clause.optional (fun c _ c' v hc hv => closing_covered hc hv) rfl hx
  have hmodifiers := hopening.append (hclosing.append (flag_covered [Piece.keyword .clear] rfl hy))
  have hexpr : Covers (tokensOf v) (tokens (ofOption Expr.pieces f.expression))
      (∀ e ∈ f.expression, (∀ terminals ∈ starts, ¬ StartsWith terminals (tokens e.pieces)) ∧
        (e.AllApart → e.Rereads) ∧ e.levels + 1 ≤ k) := by
    cases hf : f.expression with
    | none =>
      rw [hf] at hexpression
      obtain hnone : f'.expression = none := by simpa using hexpression
      rw [hnone] at hv
      obtain rfl : v = [] := hv
      exact Clause.nil.toCovers.imp fun _ => by simp
    | some e =>
      rw [hf] at hexpression
      obtain ⟨e', hsome, he⟩ : ∃ e', f'.expression = some e' ∧ e'.plain = e.plain := by
        simpa using hexpression
      rw [hsome] at hv
      have hcovers := (h e hf).expr he hv.1
      refine ⟨hcovers.weight_le, hcovers.tilt_left, hcovers.tilt_right, fun heq e₁ he₁ => ?_⟩
      obtain rfl : e = e₁ := Option.some.inj he₁
      refine ⟨fun terminals ht => ?_, hcovers.exact heq⟩
      rw [show tokens e.pieces = tokensOf v from heq.symm]
      rcases hstarts terminals ht with hm | ⟨rfl, hq⟩
      · exact not_startsWith_modifier hv.2 terminals hm
      · exact not_startsWith_query hq
  rw [EntryFilter.tokens_pieces]
  simp only [tokensOf_append, tokens_append]
  refine (hexpr.append hmodifiers).imp ?_
  rintro ⟨hr, -⟩
  refine ⟨⟨?_, fun e he => (hr e he).1⟩, fun e he => (hr e he).2.1,
    EntryFilter.levels_le_iff.mpr fun e he => (hr e he).2.2⟩
  have hsome : f'.expression.isSome = f.expression.isSome := by
    simpa using congrArg Option.isSome hexpression
  rwa [hsome, hopen, hclose, hclear] at hpart

theorem Source.covered {a a' : Source} (h : ∀ e ∈ a.parts, e.Covered) (hq : ∀ s, a = .query s → s.Covered)
    (he : a'.plain = a.plain) (hu : Phrase.source (phrases .anywhere k) u a') :
    Covers (tokensOf u) (tokens a.pieces)
      ((∀ f, a = .entries f → f.Separates (queryStart :: modifierStarts)) ∧
        (∀ e ∈ a.parts, e.AllApart → e.Rereads) ∧ (∀ s, a = .query s → s.AllApart → s.Rereads) ∧
          a.levels ≤ k) := by
  simp only [Phrase.source, Phrase.oneOf_cons, Phrase.oneOf_nil, or_false] at hu
  rcases hu with ⟨_, _, n, rfl, hn, rfl, rfl⟩ |
    ⟨_, _, _, rfl, ⟨l, rfl, hl⟩, v, _, s', rfl, hv, _, _, _, rfl, ⟨r, rfl, hr⟩, rfl, rfl⟩ |
    ⟨_, _, f', rfl, ⟨hf, hnot⟩, rfl, rfl⟩
  · cases a <;> simp only [Source.plain, reduceCtorEq, Source.table.injEq] at he
    obtain ⟨l, rfl, hl⟩ := Phrase.table_iff.mp hn
    rw [Source.pieces, tokens_token]
    exact (Clause.token (by rw [hl]; rfl) rfl).toCovers.imp fun _ =>
      ⟨by simp, by simp [Source.parts], by simp, Nat.zero_le _⟩
  · cases a <;> simp only [Source.plain, reduceCtorEq, Source.query.injEq] at he
    next s =>
      cases k with
      | zero => exact absurd hv id
      | succ k =>
        rw [Source.pieces, tokens_parenthesised, Source.levels]
        have := (hq s rfl k v s' he hv).toCovers.parenthesised.imp
          (S := (∀ f, Source.query s = .entries f → f.Separates (queryStart :: modifierStarts)) ∧
            (∀ e ∈ (Source.query s).parts, e.AllApart → e.Rereads) ∧
              (∀ s₁, Source.query s = .query s₁ → s₁.AllApart → s₁.Rereads) ∧ s.levels + 1 ≤ k + 1)
          fun h => ⟨by simp, by simp [Source.parts], by simpa using h.1, Nat.succ_le_succ h.2⟩
        simpa [is_symbol_iff.mp hl, is_symbol_iff.mp hr] using this
  · cases a <;> simp only [Source.plain, reduceCtorEq, Source.entries.injEq] at he
    next f =>
      rw [List.append_nil, Source.pieces, Source.levels]
      have hparts : ∀ e ∈ f.expression, e ∈ (Source.entries f).parts := fun e he => by
        simpa [Source.parts, EntryFilter.parts] using he
      have hstarts : ∀ terminals ∈ queryStart :: modifierStarts, terminals ∈ modifierStarts ∨
          terminals = queryStart ∧ ¬ Phrase.BeginsWithQuery _ := fun terminals ht => by
        rcases List.mem_cons.mp ht with rfl | ht
        · exact .inr ⟨rfl, hnot⟩
        · exact .inl ht
      refine (EntryFilter.covered hstarts (fun e he => h e (hparts e he)) he hf).imp ?_
      rintro ⟨hs, hr, hlevels⟩
      exact ⟨by simpa using hs, fun e he => hr e (by simpa [Source.parts, EntryFilter.parts] using he),
        by simp, hlevels⟩

/-! ## Clauses -/

/-- A clause of an expression. -/
theorem expression_covered {m : Keyword} {o o' : Option Expr} (h : ∀ e ∈ o, e.Covered)
    (he : o'.map Expr.plain = o.map Expr.plain)
    (hu : Phrase.optional (do Phrase.keyword m; (phrases .anywhere k).expr) u o') :
    Clause (tokensOf u) (tokens (ofOption (fun e => clause m e.pieces) o))
      (∀ e ∈ o, (e.AllApart → e.Rereads) ∧ e.levels + 1 ≤ k) := by
  refine Clause.optional (fun e hm e' v he hv => ?_) he hu
  obtain ⟨_, w, _, rfl, ⟨l, rfl, hl⟩, hw⟩ := hv
  exact Clause.keyword hl (n := m) (is_keyword_iff.mpr ⟨_, rfl⟩) ((h e hm).expr he hw)

/-- Two keywords in front. -/
theorem clauseBy_covered {t t' : Token} {m m' : Keyword} {ts : List Token} {ps : List Piece} {R : Prop}
    (ht : t.is (.keyword m) = true) (ht' : t'.is (.keyword m') = true) (h : Covers ts (tokens ps) R) :
    Clause (t :: t' :: ts) (tokens (clauseBy m ps)) R :=
  Clause.keyword ht (n := m) (is_keyword_iff.mpr ⟨_, rfl⟩)
    (Clause.keyword ht' (n := .by) (is_keyword_iff.mpr ⟨_, rfl⟩) h).toCovers

theorem GroupBy.covered {g g' : GroupBy} (h : ∀ e ∈ g.parts, e.Covered) (he : g'.plain = g.plain)
    (hu : Phrase.groupBy (phrases .anywhere k) u g') :
    Clause (tokensOf u) (tokens (clauseBy .group g.pieces))
      ((∀ e ∈ g.parts, e.AllApart → e.Rereads) ∧ g.levels ≤ k) := by
  obtain ⟨_, _, _, rfl, ⟨l, rfl, hl⟩, _, _, _, rfl, ⟨m, rfl, hm⟩, v, _, keys, rfl, hv, w, _, having, rfl, hw,
    rfl, rfl⟩ := hu
  rw [GroupBy.plain_eq, GroupBy.plain_eq g, GroupBy.mk.injEq] at he
  have hparts : ∀ e, e ∈ g.parts ↔ (∃ key ∈ g.keys, e ∈ key.parts) ∨ e ∈ g.having := fun e => by
    simp [GroupBy.parts]
  have hkeys := Covers.commaList (R := fun key : ColumnKey => (∀ e ∈ key.parts, e.AllApart → e.Rereads) ∧
      key.levels ≤ k)
    (fun key hk key' v hkey hv => ColumnKey.covered (fun e he => h e ((hparts e).mpr (.inl ⟨key, hk, he⟩)))
      hkey hv) he.1 hv
  have hhaving := expression_covered (fun e he => h e ((hparts e).mpr (.inr he))) he.2 hw
  have hall := hkeys.append hhaving
  rw [← tokens_append, ← GroupBy.pieces_eq] at hall
  simp only [tokensOf_append, tokensOf_cons, tokensOf_nil, List.append_nil]
  refine (clauseBy_covered hl hm hall).imp ?_
  rintro ⟨hk, hh⟩
  refine ⟨fun e he => ?_, ?_⟩
  · rcases (hparts e).mp he with ⟨key, hkey, he⟩ | he
    · exact (hk key hkey).1 e he
    · exact (hh e he).1
  · exact GroupBy.levels_le_iff.mpr ⟨fun key hkey => (hk key hkey).2, fun e he => (hh e he).2⟩

theorem SortKey.covered {key key' : SortKey} (h : ∀ e ∈ key.column.parts, e.Covered)
    (he : key'.plain = key.plain) (hu : Phrase.sortKey (phrases .anywhere k) u key') :
    Covers (tokensOf u) (tokens key.pieces)
      ((∀ e ∈ key.column.parts, e.AllApart → e.Rereads) ∧ key.column.levels ≤ k) := by
  obtain ⟨v, _, column, rfl, hv, w, _, direction, rfl, hw, rfl, rfl⟩ := hu
  simp only [SortKey.plain, SortKey.mk.injEq] at he
  have hdirection : Clause (tokensOf w) (tokens key.direction.pieces) True := by
    rw [← he.2]
    simp only [Phrase.sortDirection, Phrase.oneOf_cons, Phrase.oneOf_nil, or_false] at hw
    rcases hw with ⟨_, _, _, rfl, ⟨l, rfl, hl⟩, rfl, rfl⟩ | ⟨_, _, _, rfl, ⟨l, rfl, hl⟩, rfl, rfl⟩ |
      ⟨rfl, rfl⟩
    · exact Clause.keyword hl (n := .desc) (is_keyword_iff.mpr ⟨_, rfl⟩) Clause.nil.toCovers
    · -- `ASC` is never written.
      have hasc : l.token.isParen = false := not_isParen_of_is hl (by simp) (by simp)
      exact ⟨⟨Nat.zero_le _, by simp [Token.tilt_eq_zero hasc], rfl, fun _ => trivial⟩, .cons hasc, .nil⟩
    · exact Clause.nil
  rw [List.append_nil, tokensOf_append, SortKey.pieces, tokens_append]
  exact ((ColumnKey.covered h he.1 hv).append hdirection).imp And.left

theorem orderBy_covered {keys keys' : List SortKey} (h : ∀ key ∈ keys, ∀ e ∈ key.column.parts, e.Covered)
    (he : keys'.map SortKey.plain = keys.map SortKey.plain)
    (hu : Phrase.orderBy (phrases .anywhere k) u keys') :
    Clause (tokensOf u) (tokens (clauseBy .order (commaSeparated (keys.map SortKey.pieces))))
      (∀ key ∈ keys, (∀ e ∈ key.column.parts, e.AllApart → e.Rereads) ∧ key.column.levels ≤ k) := by
  obtain ⟨_, _, _, rfl, ⟨l, rfl, hl⟩, _, v, _, rfl, ⟨m, rfl, hm⟩, hv⟩ := hu
  exact clauseBy_covered hl hm (Covers.commaList (fun key hkey key' v he hv =>
    SortKey.covered (h key hkey) he hv) he hv)

theorem pivotKey_covered {key : PivotKey} (hu : Phrase.pivotKey u key) :
    Clause (tokensOf u) (tokens key.pieces) True := by
  simp only [Phrase.pivotKey, Phrase.oneOf_cons, Phrase.oneOf_nil, or_false] at hu
  rcases hu with ⟨_, _, n, rfl, hn, rfl, rfl⟩ | ⟨_, _, n, rfl, ⟨l, rfl, hl⟩, rfl, rfl⟩
  · obtain ⟨l, rfl, hl⟩ := count_run hn
    exact Clause.token hl rfl
  · exact Clause.token (not_isParen_of_name hl) (not_isParen_ofWord n)

theorem PivotBy.covered {p : PivotBy} (hu : Phrase.pivotBy u p) :
    Clause (tokensOf u) (tokens (clauseBy .pivot p.pieces)) True := by
  obtain ⟨_, _, _, rfl, ⟨l, rfl, hl⟩, _, _, _, rfl, ⟨m, rfl, hm⟩, v, _, x, rfl, hv, _, _, _, rfl, ⟨c, rfl, hc⟩,
    w, _, y, rfl, hw, rfl, rfl⟩ := hu
  have hcolumn := Clause.cons (pivotKey_covered hw).toCovers (not_isParen_of_is hc (by simp) (by simp))
    (rfl : (Token.symbol .comma).isParen = false)
  have hkeys := (pivotKey_covered hv).append hcolumn
  have htokens : tokens (PivotBy.mk x y).pieces = tokens x.pieces ++ .symbol .comma :: tokens y.pieces := by
    simp [PivotBy.pieces, commaSeparated, Piece.symbol]
  rw [← htokens] at hkeys
  simpa using (clauseBy_covered hl hm hkeys.toCovers).imp fun _ => trivial

theorem limit_covered {n : UInt64} (hu : Phrase.limit u n) :
    Clause (tokensOf u) (tokens (clause .limit [number n])) True := by
  obtain ⟨_, _, _, rfl, ⟨l, rfl, hl⟩, hv⟩ := hu
  obtain ⟨m, rfl, hm⟩ := count_run hv
  exact Clause.keyword hl (n := .limit) (is_keyword_iff.mpr ⟨_, rfl⟩) (Clause.token hm rfl).toCovers

/-- A part without expressions that may be missing. -/
theorem Clause.optional_of_eq {α : Type} {L : Phrase α} {f : α → List Piece} {o : Option α}
    (h : ∀ a v, L v a → Clause (tokensOf v) (tokens (f a)) True) (hu : Phrase.optional L u o) :
    Clause (tokensOf u) (tokens (ofOption f o)) True :=
  (Clause.optional (g := id) (i := id) (R := fun _ => True)
    (fun a _ b v hb hv => by obtain rfl : b = a := hb; exact h b v hv) rfl hu).imp fun _ => trivial

/-- A flag in front. -/
theorem Covers.flag {m : Keyword} {b : Bool} {us ts : List Token} {R : Prop} (ps : List Piece)
    (hps : tokens ps = [.keyword m m.spelling]) (hu : Phrase.flag (.keyword m) u b) (h : Covers us ts R) :
    Covers (tokensOf u ++ us) (tokens (if b then ps else []) ++ ts) R := by
  cases b with
  | false =>
    obtain rfl : u = [] := hu
    exact h
  | true =>
    obtain ⟨l, rfl, hl⟩ := Phrase.of_flag hu
    rw [if_pos rfl, hps]
    exact (Clause.keyword hl (n := m) (is_keyword_iff.mpr ⟨_, rfl⟩) h).toCovers

/-! ## Queries -/

/-- The runs of a query cover its written form if those of its parts and of the query that is its source
do. -/
theorem Select.Covered.of_parts {s : Select} (h : ∀ e ∈ s.parts, e.Covered)
    (hq : ∀ s', s.source = some (.query s') → s'.Covered) : s.Covered := by
  intro k u s' he hu
  obtain ⟨l, d, t, a, c, g, o, p, n, rfl, hl, hd, ht, ha, hc, hg, ho, hp, hn⟩ := Phrase.select_iff.mp hu
  rw [Select.plain_eq, Select.plain_eq s, Select.mk.injEq] at he
  obtain ⟨htargets, hdistinct, hsource, hcondition, hgroup, horder, hpivot, hlimit⟩ := he
  obtain ⟨hparts, hsparts, hcparts, hgparts, hoparts⟩ := Select.forall_parts.mp ⟨h, hq⟩
  rw [hdistinct] at hd
  rw [hpivot] at hp
  rw [hlimit] at hn
  have ht := Targets.covered hparts htargets ht
  have ha : Clause (tokensOf a) (tokens (ofOption (fun a => clause .from a.pieces) s.source))
      (∀ a ∈ s.source, (∀ f, a = .entries f → f.Separates (queryStart :: modifierStarts)) ∧
        (∀ e ∈ a.parts, e.AllApart → e.Rereads) ∧ (∀ s, a = .query s → s.AllApart → s.Rereads) ∧
          a.levels ≤ k) := by
    refine Clause.optional (fun b hb b' v he hv => ?_) hsource ha
    obtain ⟨_, w, _, rfl, ⟨l, rfl, hl⟩, hw⟩ := hv
    exact Clause.keyword hl (n := .from) (is_keyword_iff.mpr ⟨_, rfl⟩)
      (Source.covered (hsparts b hb).1 (hsparts b hb).2 he hw)
  have hc := expression_covered hcparts hcondition hc
  have hg : Clause (tokensOf g) (tokens (ofOption (fun g => clauseBy .group g.pieces) s.groupBy))
      (∀ g ∈ s.groupBy, (∀ e ∈ g.parts, e.AllApart → e.Rereads) ∧ g.levels ≤ k) :=
    Clause.optional (fun b hb b' v he hv => GroupBy.covered (hgparts b hb) he hv) hgroup hg
  have ho : Clause (tokensOf o)
      (tokens (ofOption (fun keys => clauseBy .order (commaSeparated (keys.map SortKey.pieces))) s.orderBy))
      (∀ keys ∈ s.orderBy, ∀ key ∈ keys, (∀ e ∈ key.column.parts, e.AllApart → e.Rereads) ∧
        key.column.levels ≤ k) :=
    Clause.optional (fun b hb b' v he hv => orderBy_covered (hoparts b hb) he hv) horder ho
  have hp := Clause.optional_of_eq (f := fun p => clauseBy .pivot p.pieces) (fun _ _ => PivotBy.covered) hp
  have hn := Clause.optional_of_eq (f := fun n => clause .limit [number n]) (fun _ _ => limit_covered) hn
  have hrest := ht.append (ha.append (hc.append (hg.append (ho.append (hp.append hn)))))
  have hall := Clause.keyword hl (n := .select) (s := .keyword .select Keyword.select.spelling)
    (is_keyword_iff.mpr ⟨_, rfl⟩) (hrest.flag [Piece.keyword .distinct, space] rfl hd)
  rw [Select.pieces_eq]
  simp only [tokensOf_cons, tokensOf_append, Piece.keyword, tokens_token, tokens_space, tokens_append,
    List.append_assoc]
  refine hall.imp ?_
  rintro ⟨⟨hrt, hlt⟩, hra, hrc, hrg, hro, _, _⟩
  refine ⟨fun hapart => ?_, ?_⟩
  · obtain ⟨hap, haq⟩ := Select.allApart_iff.mp hapart
    obtain ⟨hat, has, hac, hag, hao⟩ := Select.forall_parts.mp ⟨hap, haq⟩
    obtain ⟨hp, hq⟩ := Select.forall_parts (P := Expr.Rereads) (Q := Select.Rereads) (s := s) |>.mpr
      ⟨fun x hx => hrt x hx (hat x hx),
        fun b hb => ⟨fun x hx => (hra b hb).2.1 x hx ((has b hb).1 x hx),
          fun s' hs => (hra b hb).2.2.1 s' hs ((has b hb).2 s' hs)⟩,
        fun x hx => (hrc x hx).1 (hac x hx), fun b hb x hx => (hrg b hb).1 x hx (hag b hb x hx),
        fun keys hk key hkey x hx => (hro keys hk key hkey).1 x hx (hao keys hk key hkey x hx)⟩
    exact .mk (fun f hf => (hra _ hf).1 f rfl) hp hq
  · exact Select.levels_le_iff.mpr ⟨hlt, fun b hb => (hra b hb).2.2.2, fun e he => (hrc e he).2,
      fun b hb => (hrg b hb).2, fun keys hk key hkey => (hro keys hk key hkey).2⟩

theorem covered_inductive : Inductive Expr.Covered Select.Covered where
  expr _ ih ihq := .of_parts ih ihq
  select _ ih ihq := .of_parts ih ihq

/-- The runs of an expression cover its written form. -/
theorem Expr.covered (e : Expr) : e.Covered := covered_inductive.all.1 e

/-- The runs of a query cover its written form. -/
theorem Select.covered (s : Select) : s.Covered := covered_inductive.all.2 s

/-! ## Statements -/

theorem shorthandSource_covered {o o' : Option EntryFilter} (he : o'.map EntryFilter.plain = o.map EntryFilter.plain)
    (hu : Phrase.optional (Phrase.shorthandSource (phrases .anywhere k)) u o') :
    Clause (tokensOf u) (tokens (shorthandSourcePieces o))
      (((∀ f ∈ o, ∀ e ∈ f.expression, e.AllApart) → ∀ f ∈ o, f.Rereads) ∧
        (o.map EntryFilter.levels).getD 0 ≤ k) := by
  have hall : Clause (tokensOf u) (tokens (ofOption (fun f => clause .from f.pieces) o))
      (∀ f ∈ o, f.Separates modifierStarts ∧ (∀ e ∈ f.expression, e.AllApart → e.Rereads) ∧ f.levels ≤ k) := by
    refine Clause.optional (fun f _ f' v he hv => ?_) he hu
    obtain ⟨_, w, _, rfl, ⟨l, rfl, hl⟩, hw⟩ := hv
    exact Clause.keyword hl (n := .from) (is_keyword_iff.mpr ⟨_, rfl⟩)
      (EntryFilter.covered (fun _ h => .inl h) (fun e _ => e.covered) he hw)
  refine hall.imp fun h => ⟨fun ha f hf => ⟨(h f hf).1, fun e he => (h f hf).2.1 e he (ha f hf e he)⟩, ?_⟩
  cases o with
  | none => exact Nat.zero_le _
  | some f => exact (h f rfl).2.2

theorem account_covered {o : Option String} (hu : Phrase.optional Phrase.stringValue u o) :
    Clause (tokensOf u)
      (tokens ((o.map fun account => [space, Piece.token (.string (.enclosing account))]).getD [])) True := by
  refine Clause.optional_of_eq (f := fun account => [space, Piece.token (.string (.enclosing account))])
    (fun value v hv => ?_) hu
  obtain ⟨l, s, rfl, hl, -⟩ := Phrase.stringValue_iff.mp hv
  exact Clause.token (by rw [hl]; rfl) rfl

/-- The runs of a statement cover its written form. -/
theorem Statement.covered {t t' : Statement} (he : t'.Same t) (hu : Phrase.statement (phrases .anywhere k) u t') :
    Covers (tokensOf u) (tokens t.pieces) ((t.AllApart → t.Rereads) ∧ t.levels ≤ k) := by
  rw [Same] at he
  simp only [Phrase.statement, Phrase.oneOf_cons, Phrase.oneOf_nil, or_false] at hu
  rcases hu with ⟨v, _, s, rfl, hv, rfl, rfl⟩ |
    ⟨_, _, b, rfl, ⟨_, _, _, rfl, ⟨l, rfl, hl⟩, x, _, n, rfl, hx, y, _, f, rfl, hy, z, _, c, rfl, hz, rfl, rfl⟩,
      rfl, rfl⟩ |
    ⟨_, _, j, rfl, ⟨_, _, _, rfl, ⟨l, rfl, hl⟩, w, _, a, rfl, hw, x, _, n, rfl, hx, y, _, f, rfl, hy, rfl, rfl⟩,
      rfl, rfl⟩ |
    ⟨_, _, p, rfl, ⟨_, _, _, rfl, ⟨l, rfl, hl⟩, y, _, f, rfl, hy, rfl, rfl⟩, rfl, rfl⟩
  · cases t <;> simp only [Statement.plain, reduceCtorEq, Statement.select.injEq] at he
    next s' =>
      cases k with
      | zero => exact absurd hv id
      | succ k =>
        rw [List.append_nil]
        exact (s'.covered k v s he hv).toCovers.imp (And.imp_right Nat.succ_le_succ)
  · cases t <;> simp only [Statement.plain, reduceCtorEq, Statement.balances.injEq, Balances.mk.injEq] at he
    next b =>
      obtain ⟨rfl, hf, hc⟩ := he
      have hall := (named_covered hx).append ((shorthandSource_covered hf hy).append
        (expression_covered (fun e _ => e.covered) hc hz))
      have hall := Clause.keyword hl (n := .balances) (s := .keyword .balances Keyword.balances.spelling)
        (is_keyword_iff.mpr ⟨_, rfl⟩) hall.toCovers
      simp only [Statement.pieces, Balances.pieces, Piece.keyword, tokens_token, tokens_append,
        tokensOf_append, tokensOf_cons, tokensOf_nil, List.append_assoc, List.append_nil]
      refine hall.toCovers.imp ?_
      rintro ⟨_, ⟨hrf, hlf⟩, hrc⟩
      refine ⟨fun ha => ⟨hrf ha.1, fun e he => ?_⟩, ?_⟩
      · exact (hrc e he).1 (ha.2 e he)
      · exact Nat.max_le.mpr ⟨hlf, Expr.levelsOfOption_le_iff.mpr fun e he => (hrc e he).2⟩
  · cases t <;> simp only [Statement.plain, reduceCtorEq, Statement.journal.injEq, Journal.mk.injEq] at he
    next j =>
      obtain ⟨rfl, rfl, hf⟩ := he
      have hall := (account_covered hw).append ((named_covered hx).append (shorthandSource_covered hf hy))
      have hall := Clause.keyword hl (n := .journal) (s := .keyword .journal Keyword.journal.spelling)
        (is_keyword_iff.mpr ⟨_, rfl⟩) hall.toCovers
      simp only [Statement.pieces, Journal.pieces, Piece.keyword, tokens_token, tokens_append,
        tokensOf_append, tokensOf_cons, tokensOf_nil, List.append_assoc, List.append_nil]
      exact hall.toCovers.imp fun h => h.2.2
  · cases t <;> simp only [Statement.plain, reduceCtorEq, Statement.print.injEq, Print.mk.injEq] at he
    next p =>
      have hall := Clause.keyword hl (n := .print) (s := .keyword .print Keyword.print.spelling)
        (is_keyword_iff.mpr ⟨_, rfl⟩) (shorthandSource_covered he hy).toCovers
      simp only [Statement.pieces, Print.pieces, Piece.keyword, tokens_token,
        tokensOf_append, tokensOf_cons, tokensOf_nil, List.append_nil]
      exact hall.toCovers

end LedgerQuery
