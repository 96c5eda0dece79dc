import LedgerQuery.Proofs.Written.DerivedExpr

/-!
# Written trees are trees of the grammar

The tokens of the written form of a tree derive the tree, if it is well-formed and rereads,
in the grammar with the levels that the tree needs (`Statement.derived`).  There is one
lemma for each clause of a query, and induction over the parts of trees puts them
together with those of expressions.
-/

namespace LedgerQuery

open Piece

variable {u : List Lexeme} {k : Nat}

/-! ## Filters and sources -/

/-- The tokens of a filter, part by part. -/
theorem EntryFilter.spelled_iff {f : EntryFilter} : Spelled f.pieces u ↔
    ∃ v w x y, u = v ++ (w ++ (x ++ y)) ∧ Spelled (ofOption Expr.pieces f.expression) v ∧
      Spelled (ofOption openingPieces f.openOn) w ∧ Spelled (ofOption Closing.pieces f.close) x ∧
        Spelled (if f.clear then [keyword .clear] else []) y := by
  rw [Spelled, EntryFilter.tokens_pieces, ← Spelled, Spelled.append_iff]
  simp only [Spelled.append_iff]
  constructor
  · rintro ⟨v, _, rfl, hv, w, _, rfl, hw, x, y, rfl, hx, hy⟩
    exact ⟨v, w, x, y, rfl, hv, hw, hx, hy⟩
  · rintro ⟨v, w, x, y, rfl, hv, hw, hx, hy⟩
    exact ⟨v, _, rfl, hv, w, _, rfl, hw, x, y, rfl, hx, hy⟩

theorem Spelled.opening {d : Date} (hd : 0 ≤ d.year ∧ d.year ≤ 9999)
    (hu : Spelled (openingPieces d) u) : Phrase.opening u d := by
  obtain ⟨l, v, rfl, hl, hv⟩ := Spelled.keyword hu
  obtain ⟨m, v, rfl, hm, hv⟩ := Spelled.keyword (Spelled.space_iff.mp hv)
  exact Phrase.seq (v := [l]) (Phrase.single hl) (Phrase.seq (v := [m]) (Phrase.single hm)
    (Spelled.date hd (Spelled.space_iff.mp hv)))

theorem Spelled.closing {c : Closing} (hd : ∀ d, c = .on d → 0 ≤ d.year ∧ d.year ≤ 9999)
    (hu : Spelled c.pieces u) : Phrase.closing u c := by
  cases c with
  | default =>
    obtain ⟨l, v, rfl, hl, hv⟩ := Spelled.keyword hu
    obtain rfl : v = [] := Spelled.nil_iff.mp hv
    exact Phrase.oneOf_head (Phrase.seq_pure (Phrase.single hl))
  | on d =>
    obtain ⟨l, v, rfl, hl, hv⟩ := Spelled.keyword hu
    obtain ⟨m, v, rfl, hm, hv⟩ := Spelled.keyword (Spelled.space_iff.mp hv)
    exact Phrase.oneOf_tail (Phrase.oneOf_head (Phrase.seq (v := [l]) (Phrase.single hl)
      (Phrase.seq (v := [m]) (Phrase.single hm)
        (Phrase.seq_pure (Spelled.date (hd d rfl) (Spelled.space_iff.mp hv))))))

theorem Spelled.clearing {clear : Bool} (hu : Spelled (if clear then [Piece.keyword .clear] else []) u) :
    Phrase.flag (.keyword .clear) u clear := by
  cases clear with
  | false => exact Spelled.nil_iff.mp hu
  | true =>
    obtain ⟨l, v, rfl, hl, hv⟩ := Spelled.keyword hu
    obtain rfl := Spelled.nil_iff.mp hv
    exact Phrase.single hl

/-- A run with the tokens of a tree begins with what the tokens begin with. -/
theorem Spelled.startsWith {terminals : List Terminal} {ps : List Piece} {v w : List Lexeme}
    (hu : Spelled ps (v ++ w)) (h : Phrase.terminals terminals v) : StartsWith terminals (tokens ps) := by
  have hlen : v.length = terminals.length := by
    simpa [Phrase.terminals] using congrArg List.length h
  rw [StartsWith, ← hu, ← hlen, List.map_append, List.take_append_of_le_length (by simp),
    List.take_of_length_le (by simp), List.map_map]
  exact h

theorem not_beginsWithModifier {starts : List (List Terminal)} {ps : List Piece}
    (hs : ∀ terminals ∈ modifierStarts, terminals ∈ starts)
    (h : ∀ terminals ∈ starts, ¬ StartsWith terminals (tokens ps)) (hu : Spelled ps u) :
    ¬ Phrase.BeginsWithModifier u := by
  rintro ⟨l, hl, m, hm, hlm⟩
  obtain ⟨v, rfl⟩ : ∃ v, u = [l] ++ v := by
    cases u with
    | nil => cases hl
    | cons n v => exact ⟨v, by rw [Option.some.inj hl]; rfl⟩
  refine h [.keyword m] (hs _ ?_) (hu.startsWith (Phrase.terminals_one.mpr (Phrase.single hlm)))
  simp only [List.mem_cons, List.not_mem_nil, or_false] at hm
  rcases hm with rfl | rfl | rfl <;> simp [modifierStarts]

/-- The modifiers of a filter begin with a keyword of their own. -/
theorem modifiers_head {openOn : Option Date} {close : Option Closing} {clear : Bool} {w x y : List Lexeme}
    (hw : Phrase.optional Phrase.opening w openOn) (hx : Phrase.optional Phrase.closing x close)
    (hy : Phrase.flag (.keyword .clear) y clear) :
    ∀ l ∈ (w ++ (x ++ y)).head?, ∃ m written, l.token = .keyword m written ∧ m ≠ .select := by
  have found : ∀ {l n : Lexeme} {m : Keyword}, l = n → l.token.is (.keyword m) = true → m ≠ .select →
      ∃ m written, n.token = .keyword m written ∧ m ≠ .select := by
    rintro l _ m rfl hl hm
    obtain ⟨written, ht⟩ := Token.is_keyword_iff.mp hl
    exact ⟨m, written, ht, hm⟩
  intro n hn
  cases openOn with
  | some d =>
    obtain ⟨_, v, _, rfl, ⟨l, rfl, hl⟩, -⟩ := hw
    exact found (by simpa using hn) hl (by decide)
  | none =>
    obtain rfl : w = [] := hw
    cases close with
    | some c =>
      simp only [Phrase.optional, Phrase.closing, Phrase.oneOf_cons, Phrase.oneOf_nil, or_false] at hx
      rcases hx with ⟨_, v, _, rfl, ⟨l, rfl, hl⟩, -⟩ | ⟨_, v, _, rfl, ⟨l, rfl, hl⟩, -⟩ <;>
        exact found (by simpa using hn) hl (by decide)
    | none =>
      obtain rfl : x = [] := hx
      cases clear with
      | false =>
        obtain rfl : y = [] := hy
        simp at hn
      | true =>
        obtain ⟨l, rfl, hl⟩ := Phrase.of_flag hy
        exact found (by simpa using hn) hl (by decide)

/-- A query in parentheses is not the expression of a filter, nor do modifiers begin so. -/
theorem not_beginsWithQuery {v w : List Lexeme} (hv : v ≠ [] → ∃ ps, Spelled ps v ∧
      ¬ StartsWith queryStart (tokens ps))
    (hw : ∀ l ∈ w.head?, ∃ m written, l.token = .keyword m written ∧ m ≠ .select) :
    ¬ Phrase.BeginsWithQuery (v ++ w) := by
  rintro ⟨l, m, x, hx, hl, hm⟩
  rcases List.append_eq_cons_iff.mp hx with ⟨rfl, rfl⟩ | ⟨y, rfl, hy⟩
  · obtain ⟨n, written, hn, -⟩ := hw l rfl
    rw [hn] at hl
    cases hl
  · obtain ⟨ps, hps, hnot⟩ := hv (by simp)
    rcases List.cons_eq_append_iff.mp hy with ⟨rfl, rfl⟩ | ⟨z, rfl, rfl⟩
    · obtain ⟨n, written, hn, hne⟩ := hw m rfl
      rw [hn] at hm
      exact hne (by simpa [Token.is, Token.terminal?] using hm)
    · refine hnot (Spelled.startsWith (v := [l, m]) hps (Phrase.terminals_cons.mpr ?_))
      exact ⟨l, [m], rfl, hl, Phrase.terminals_one.mpr (Phrase.single hm)⟩

/-- A filter is derived if its expression is, and begins like no modifier. -/
theorem EntryFilter.derived {f : EntryFilter} {starts : List (List Terminal)}
    (hmod : ∀ terminals ∈ modifierStarts, terminals ∈ starts) (hw : f.Writable)
    (hsep : f.Separates starts) (h : ∀ e ∈ f.expression, e.Derived) (hk : f.levels ≤ k)
    (hu : Spelled f.pieces u) :
    ∃ f', f'.plain = f.plain ∧ Phrase.entryFilter (phrases .parenthesised k) u f' ∧
      (queryStart ∈ starts → ¬ Phrase.BeginsWithQuery u) := by
  rw [EntryFilter.levels_le_iff] at hk
  obtain ⟨expression, openOn, close, clear⟩ := f
  obtain ⟨v, w, x, y, rfl, hv, hw', hx, hy⟩ := EntryFilter.spelled_iff.mp hu
  have hdates : ∀ c ∈ close, ∀ d, c = .on d → 0 ≤ d.year ∧ d.year ≤ 9999 := by
    rintro _ rfl d rfl
    exact hw.2 d rfl
  obtain ⟨openOn', hopen, hopening⟩ := Spelled.optional id id
    (fun d hd v hv => ⟨d, rfl, Spelled.opening (hw.1 d hd) hv⟩) hw'
  obtain ⟨close', hclose, hclosing⟩ := Spelled.optional id id
    (fun c hc v hv => ⟨c, rfl, Spelled.closing (hdates c hc) hv⟩) hx
  rw [Option.map_id] at hopen hclose
  obtain rfl : openOn' = openOn := hopen
  obtain rfl : close' = close := hclose
  have hclear := Spelled.clearing hy
  have hhead := modifiers_head hopening hclosing hclear
  cases expression with
  | some e =>
    obtain ⟨e', he, hexpr⟩ := (h e rfl).expr (hk e rfl) hv
    have hnot := not_beginsWithModifier hmod (hsep.2 e rfl) hv
    refine ⟨⟨some e', openOn', close', clear⟩, ?_, ?_, fun hq => ?_⟩
    · simp only [EntryFilter.plain, Expr.plainOption, he]
    · exact Phrase.entryFilter_iff.mpr ⟨by simp, v, w, x, y, rfl, ⟨hexpr, hnot⟩, hopening, hclosing, hclear⟩
    · exact not_beginsWithQuery (fun _ => ⟨_, hv, hsep.2 e rfl _ hq⟩) hhead
  | none =>
    obtain rfl := Spelled.nil_iff.mp hv
    refine ⟨⟨none, openOn', close', clear⟩, rfl, ?_, fun _ =>
      not_beginsWithQuery (fun hne => absurd rfl hne) hhead⟩
    exact Phrase.entryFilter_iff.mpr ⟨hsep.1, [], w, x, y, rfl, rfl, hopening, hclosing, hclear⟩

theorem Source.derived {a : Source} (hw : a.Writable)
    (hsep : ∀ f, a = .entries f → f.Separates (queryStart :: modifierStarts))
    (h : ∀ e ∈ a.parts, e.Derived) (hq : ∀ s, a = .query s → s.Derived) (hk : a.levels ≤ k)
    (hu : Spelled a.pieces u) :
    ∃ a', a'.plain = a.plain ∧ Phrase.source (phrases .parenthesised k) u a' := by
  cases a with
  | table n =>
    rw [Source.pieces] at hu
    obtain ⟨l, rfl, hl⟩ := Spelled.one hu
    exact ⟨.table n, rfl, Phrase.oneOf_head (Phrase.seq_pure (Phrase.table_iff.mpr ⟨l, rfl, hl⟩))⟩
  | query s =>
    rw [Source.levels] at hk
    rw [Source.pieces] at hu
    obtain ⟨k, rfl⟩ : ∃ j, k = j + 1 := ⟨k - 1, by omega⟩
    obtain ⟨l, v, r, rfl, hl, hr, hv⟩ := Spelled.parenthesised hu
    obtain ⟨s', hs, hselect⟩ := hq s rfl k v (by omega) hv
    exact ⟨.query s', by rw [Source.plain, Source.plain, hs], Phrase.oneOf_tail (Phrase.oneOf_head
      (Phrase.seq (Phrase.single hl) (Phrase.seq hselect (Phrase.seq_pure (Phrase.single hr)))))⟩
  | entries f =>
    rw [Source.levels] at hk
    rw [Source.pieces] at hu
    obtain ⟨f', hf, hfilter, hnot⟩ := EntryFilter.derived
      (fun _ hm => List.mem_cons_of_mem _ hm) hw (hsep f rfl)
      (fun e he => h e (by simpa [Source.parts, EntryFilter.parts] using he)) hk hu
    exact ⟨.entries f', by rw [Source.plain, Source.plain, hf], Phrase.oneOf_tail (Phrase.oneOf_tail
      (Phrase.oneOf_head (Phrase.seq_pure ⟨hfilter, hnot (by simp)⟩)))⟩

/-! ## Clauses -/

/-- A keyword in front of pieces. -/
theorem Spelled.clause {α : Type} {m : Keyword} {ps : List Piece} {L : Phrase α} {P : α → Prop}
    (h : ∀ v, Spelled ps v → ∃ a, P a ∧ L v a) (hu : Spelled (Piece.clause m ps) u) :
    ∃ a, P a ∧ (do Phrase.keyword m; L : Phrase α) u a := by
  obtain ⟨l, v, rfl, hl, hv⟩ := Spelled.keyword (Spelled.space_iff.mp hu)
  obtain ⟨a, ha, hv⟩ := h v (Spelled.space_iff.mp hv)
  exact ⟨a, ha, Phrase.seq (v := [l]) (Phrase.single hl) hv⟩

/-- Two keywords in front of pieces. -/
theorem Spelled.clauseBy {α : Type} {m : Keyword} {ps : List Piece} {L : Phrase α} {P : α → Prop}
    (h : ∀ v, Spelled ps v → ∃ a, P a ∧ L v a) (hu : Spelled (Piece.clauseBy m ps) u) :
    ∃ a, P a ∧ (do Phrase.keyword m; Phrase.keyword .by; L : Phrase α) u a := by
  obtain ⟨l, v, rfl, hl, hv⟩ := Spelled.keyword (Spelled.space_iff.mp hu)
  obtain ⟨a, ha, hv⟩ := Spelled.clause h hv
  exact ⟨a, ha, Phrase.seq (v := [l]) (Phrase.single hl) hv⟩

/-- A clause with one expression. -/
theorem Spelled.condition {m : Keyword} {o : Option Expr} (h : ∀ e ∈ o, e.Derived)
    (hk : ∀ e ∈ o, e.levels + 1 ≤ k) (hu : Spelled (ofOption (fun e => Piece.clause m e.pieces) o) u) :
    ∃ o', o'.map Expr.plain = o.map Expr.plain ∧
      Phrase.optional (do Phrase.keyword m; (phrases .parenthesised k).expr) u o' :=
  Spelled.optional Expr.plain Expr.plain
    (fun e he _ hv => Spelled.clause (fun _ hv => (h e he).expr (hk e he) hv) hv) hu

theorem Spelled.limit {o : Option UInt64}
    (hu : Spelled (ofOption (fun n => Piece.clause .limit [Piece.number n]) o) u) :
    Phrase.optional Phrase.limit u o := by
  cases o with
  | none => exact Spelled.nil_iff.mp hu
  | some n =>
    obtain ⟨_, rfl, h⟩ := Spelled.clause (P := (· = n)) (fun v hv => ⟨n, rfl, Spelled.number hv⟩) hu
    exact h

theorem GroupBy.derived {g : GroupBy} (hne : g.keys ≠ [])
    (hw : ∀ e ∈ g.parts, e.Writable) (h : ∀ e ∈ g.parts, e.Derived) (hk : g.levels ≤ k)
    (hu : Spelled (clauseBy .group g.pieces) u) :
    ∃ g', g'.plain = g.plain ∧ Phrase.groupBy (phrases .parenthesised k) u g' := by
  rw [GroupBy.levels_le_iff] at hk
  rw [GroupBy.pieces_eq] at hu
  have hkeys : ∀ key ∈ g.keys, ∀ e ∈ key.parts, e ∈ g.parts := fun key hm e he =>
    List.mem_append_left _ (List.mem_flatMap.mpr ⟨key, hm, he⟩)
  refine Spelled.clauseBy (fun v hv => ?_) hu
  obtain ⟨v, w, rfl, hv, hw'⟩ := Spelled.append_iff.mp hv
  obtain ⟨keys, hmap, hv⟩ := Spelled.commaList ColumnKey.plain ColumnKey.plain hne (fun key hm v hv =>
    ColumnKey.derived (fun e he => hw e (hkeys key hm e he)) (fun e he => h e (hkeys key hm e he))
      (hk.1 key hm) hv) hv
  obtain ⟨having, hhaving, hw'⟩ := Spelled.condition
    (fun e he => h e (List.mem_append_right _ (Option.mem_toList.mpr he))) hk.2 hw'
  refine ⟨⟨keys, having⟩, ?_, Phrase.seq hv (Phrase.seq_pure hw')⟩
  rw [GroupBy.plain_eq, GroupBy.plain_eq g, hmap, hhaving]

theorem SortKey.derived {key : SortKey} (hw : ∀ e ∈ key.column.parts, e.Writable)
    (h : ∀ e ∈ key.column.parts, e.Derived) (hk : key.column.levels ≤ k) (hu : Spelled key.pieces u) :
    ∃ key', key'.plain = key.plain ∧ Phrase.sortKey (phrases .parenthesised k) u key' := by
  obtain ⟨v, w, rfl, hv, hw'⟩ := Spelled.append_iff.mp hu
  obtain ⟨column, hcolumn, hv⟩ := ColumnKey.derived hw h hk hv
  have hdirection : Phrase.sortDirection w key.direction := by
    cases hd : key.direction with
    | ascending =>
      rw [hd] at hw'
      exact Phrase.oneOf_tail (Phrase.oneOf_tail (Phrase.oneOf_head ⟨Spelled.nil_iff.mp hw', rfl⟩))
    | descending =>
      rw [hd] at hw'
      obtain ⟨l, v, rfl, hl, hv⟩ := Spelled.keyword (Spelled.space_iff.mp hw')
      obtain rfl := Spelled.nil_iff.mp hv
      exact Phrase.oneOf_head (Phrase.seq_pure (Phrase.single hl))
  refine ⟨⟨column, key.direction⟩, ?_, Phrase.seq hv (Phrase.seq_pure hdirection)⟩
  rw [SortKey.plain, SortKey.plain, hcolumn]

theorem PivotKey.derived {key : PivotKey} (hw : key.Writable) (hu : Spelled key.pieces u) :
    Phrase.pivotKey u key := by
  cases key with
  | index n => exact Phrase.oneOf_head (Phrase.seq_pure (Spelled.number hu))
  | column n => exact Phrase.oneOf_tail (Phrase.oneOf_head (Phrase.seq_pure (Spelled.name hw hu)))

theorem PivotBy.derived {p : PivotBy} (hw : p.row.Writable ∧ p.column.Writable)
    (hu : Spelled (clauseBy .pivot p.pieces) u) : Phrase.pivotBy u p := by
  obtain ⟨p', rfl, h⟩ := Spelled.clauseBy (P := (· = p)) (L := do
      let row ← Phrase.pivotKey
      Phrase.symbol .comma
      let column ← Phrase.pivotKey
      return ⟨row, column⟩) (fun v hv => by
    rw [PivotBy.pieces, commaSeparated, List.intercalate_cons_cons, List.append_assoc,
      List.intercalate_singleton] at hv
    obtain ⟨v, w, rfl, hrow, hx⟩ := Spelled.append_iff.mp hv
    obtain ⟨l, w, rfl, hl, hw'⟩ := Spelled.symbol_iff.mp hx
    exact ⟨p, rfl, Phrase.seq (PivotKey.derived hw.1 hrow) (Phrase.seq (v := [l]) (Phrase.single hl)
      (Phrase.seq_pure (PivotKey.derived hw.2 (Spelled.space_iff.mp hw'))))⟩) hu
  exact h

/-! ## Queries -/

section
variable {s : Select} (hw : s.Writable) (hwritable : ∀ e ∈ s.parts, e.Writable)
  (h : ∀ e ∈ s.parts, e.Derived) (hk : s.levels ≤ k)
include hw h hk

theorem Select.source_derived (hsep : s.Separates)
    (hq : ∀ s', s.source = some (.query s') → s'.Derived)
    (hu : Spelled (ofOption (fun a => clause .from a.pieces) s.source) u) :
    ∃ o, o.map Source.plain = s.source.map Source.plain ∧
      Phrase.optional (do Phrase.keyword .from; Phrase.source (phrases .parenthesised k)) u o := by
  have hparts := (Select.forall_parts.mp ⟨h, hq⟩).2.1
  have hlevels := (Select.levels_le_iff.mp hk).2.1
  refine Spelled.optional Source.plain Source.plain (fun a ha v hv => Spelled.clause (fun v hv => ?_) hv) hu
  exact Source.derived (hw.2.1 a ha) (fun f hf => hsep f (hf ▸ ha)) (hparts a ha).1 (hparts a ha).2
    (hlevels a ha) hv

include hwritable

theorem Select.groupBy_derived (hu : Spelled (ofOption (fun g => clauseBy .group g.pieces) s.groupBy) u) :
    ∃ o, o.map GroupBy.plain = s.groupBy.map GroupBy.plain ∧
      Phrase.optional (Phrase.groupBy (phrases .parenthesised k)) u o := by
  refine Spelled.optional GroupBy.plain GroupBy.plain (fun g hg v hv => ?_) hu
  have hparts : ∀ e ∈ g.parts, e ∈ s.parts := fun e he =>
    Select.mem_parts.mpr (.inr (.inr (.inr (.inl ⟨g, hg, he⟩))))
  exact GroupBy.derived (hw.2.2.1 g hg) (fun e he => hwritable e (hparts e he))
    (fun e he => h e (hparts e he)) ((Select.levels_le_iff.mp hk).2.2.2.1 g hg) hv

theorem Select.orderBy_derived (hu : Spelled
      (ofOption (fun keys => clauseBy .order (commaSeparated (keys.map SortKey.pieces))) s.orderBy) u) :
    ∃ o, o.map (List.map SortKey.plain) = s.orderBy.map (List.map SortKey.plain) ∧
      Phrase.optional (Phrase.orderBy (phrases .parenthesised k)) u o := by
  refine Spelled.optional _ _ (fun keys hm v hv => Spelled.clauseBy (fun v hv => ?_) hv) hu
  have hne : keys ≠ [] := fun he => hw.2.2.2.1 (he ▸ hm)
  refine Spelled.commaList SortKey.plain SortKey.plain hne (fun key hkey v hv => ?_) hv
  have hparts : ∀ e ∈ key.column.parts, e ∈ s.parts := fun e he =>
    Select.mem_parts.mpr (.inr (.inr (.inr (.inr ⟨keys, hm, key, hkey, he⟩))))
  exact SortKey.derived (fun e he => hwritable e (hparts e he)) (fun e he => h e (hparts e he))
    ((Select.levels_le_iff.mp hk).2.2.2.2 keys hm key hkey) hv

end

theorem PivotBy.optional_derived {o : Option PivotBy} (hw : ∀ p ∈ o, p.row.Writable ∧ p.column.Writable)
    (hu : Spelled (ofOption (fun p => clauseBy .pivot p.pieces) o) u) :
    Phrase.optional Phrase.pivotBy u o := by
  cases o with
  | none => exact Spelled.nil_iff.mp hu
  | some p => exact PivotBy.derived (hw p rfl) hu

theorem Spelled.distinct {distinct : Bool}
    (hu : Spelled (if distinct then [Piece.keyword .distinct, space] else []) u) :
    Phrase.flag (.keyword .distinct) u distinct := by
  cases distinct with
  | false => exact Spelled.nil_iff.mp hu
  | true =>
    obtain ⟨l, v, rfl, hl, hv⟩ := Spelled.keyword hu
    obtain rfl : v = [] := Spelled.nil_iff.mp hv
    exact Phrase.single hl

/-- A query is derived if its parts and the query that is its source are. -/
theorem Select.Derived.of_parts {s : Select} (hw : s.Writable) (hsep : s.Separates)
    (hwritable : ∀ e ∈ s.parts, e.Writable) (h : ∀ e ∈ s.parts, e.Derived)
    (hq : ∀ s', s.source = some (.query s') → s'.Derived) : s.Derived := fun k u hk hu => by
  rw [Select.pieces_eq] at hu
  simp only [List.append_assoc] at hu
  obtain ⟨l, v, rfl, hl, hu⟩ := Spelled.keyword hu
  obtain ⟨vd, v, rfl, hd, hu⟩ := Spelled.append_iff.mp (Spelled.space_iff.mp hu)
  obtain ⟨vt, v, rfl, ht, hu⟩ := Spelled.append_iff.mp hu
  obtain ⟨vs, v, rfl, hs, hu⟩ := Spelled.append_iff.mp hu
  obtain ⟨vc, v, rfl, hc, hu⟩ := Spelled.append_iff.mp hu
  obtain ⟨vg, v, rfl, hg, hu⟩ := Spelled.append_iff.mp hu
  obtain ⟨vo, v, rfl, ho, hu⟩ := Spelled.append_iff.mp hu
  obtain ⟨vp, vl, rfl, hp, hl'⟩ := Spelled.append_iff.mp hu
  have hlevels := Select.levels_le_iff.mp hk
  have hparts := Select.forall_parts.mp ⟨h, hq⟩
  obtain ⟨targets, htargets, ht⟩ := Targets.derived hw.1 hparts.1 hlevels.1 ht
  obtain ⟨source, hsource, hs⟩ := Select.source_derived hw h hk hsep hq hs
  obtain ⟨condition, hcondition, hc⟩ := Spelled.condition hparts.2.2.1 hlevels.2.2.1 hc
  obtain ⟨groupBy, hgroup, hg⟩ := Select.groupBy_derived hw hwritable h hk hg
  obtain ⟨orderBy, horder, ho⟩ := Select.orderBy_derived hw hwritable h hk ho
  refine ⟨⟨targets, s.distinct, source, condition, groupBy, orderBy, s.pivotBy, s.limit⟩, ?_, ?_⟩
  · rw [Select.plain_eq, Select.plain_eq s, htargets, hsource, hcondition, hgroup, horder]
  · exact Phrase.seq (v := [l]) (Phrase.single hl) (Phrase.seq (Spelled.distinct hd) (Phrase.seq ht
      (Phrase.seq hs (Phrase.seq hc (Phrase.seq hg (Phrase.seq ho (Phrase.seq
        (PivotBy.optional_derived hw.2.2.2.2.1 hp) (Phrase.seq_pure (Spelled.limit hl')))))))))

/-! ## Trees -/

/-- An expression is derived if its parts and the query that it is are. -/
theorem Expr.Derived.of_parts {e : Expr} (hne : e ≠ .wildcard) (hw : e.Writable) (hsep : e.Separates)
    (h : ∀ x ∈ e.parts, x ≠ .wildcard → x.Derived) (hq : ∀ s, e = .subselect s → s.Derived) :
    e.Derived := by
  cases e with
  | wildcard => exact absurd rfl hne
  | column n => exact column hw
  | constant value => exact constant hw
  | placeholder p => exact placeholder
  | function n args => exact function hw.1 hw.2 h
  | «attribute» x n => exact (h x (by simp [Expr.parts]) hw.2).attribute hsep.1 hw.1
  | subscript x key => exact (h x (by simp [Expr.parts]) hw.2).subscript hsep
  | unary op x =>
    have hx : x ≠ .wildcard := fun he => hw (by simp [Expr.parts, he])
    exact unary (h x (by simp [Expr.parts]) hx)
  | binary left op right =>
    have hleft : left ≠ .wildcard := fun he => hw (by simp [Expr.parts, he])
    have hright : right ≠ .wildcard := fun he => hw (by simp [Expr.parts, he])
    exact binary (h left (by simp [Expr.parts]) hleft) (h right (by simp [Expr.parts]) hright)
  | bool op args => exact bool hw.1 fun x hx => h x hx fun he => hw.2 (he ▸ hx)
  | between x lower upper =>
    have hx : x ≠ .wildcard := fun he => hw (by simp [Expr.parts, he])
    have hlower : lower ≠ .wildcard := fun he => hw (by simp [Expr.parts, he])
    have hupper : upper ≠ .wildcard := fun he => hw (by simp [Expr.parts, he])
    exact between (h x (by simp [Expr.parts]) hx) (h lower (by simp [Expr.parts]) hlower)
      (h upper (by simp [Expr.parts]) hupper)
  | subselect s => exact subselect (hq s rfl)

theorem derived_inductive :
    Inductive (fun e => e.WellFormed → e.Rereads → e ≠ .wildcard → e.Derived)
      (fun s => s.WellFormed → s.Rereads → s.Derived) where
  expr e ih ihq hw hr hne := by
    obtain ⟨hw, hwp, hwq⟩ := Expr.all_iff.mp hw
    obtain ⟨hr, hrp, hrq⟩ := Expr.all_iff.mp hr
    exact .of_parts hne hw hr (fun x hx => ih x hx (hwp x hx) (hrp x hx)) fun s hs =>
      ihq s hs (hwq s hs) (hrq s hs)
  select s ih ihq hw hr := by
    obtain ⟨hw, hwp, hwq⟩ := Select.all_iff.mp hw
    obtain ⟨hr, hrp, hrq⟩ := Select.all_iff.mp hr
    have hne : ∀ x ∈ s.parts, x ≠ .wildcard := fun x hx he => hw.2.2.2.2.2 (he ▸ hx)
    exact .of_parts hw hr (fun x hx => (Expr.all_iff.mp (hwp x hx)).1)
      (fun x hx => ih x hx (hwp x hx) (hrp x hx) (hne x hx)) fun s' hs =>
        ihq s' hs (hwq s' hs) (hrq s' hs)

/-- The tokens of a well-formed expression derive it, if it rereads. -/
theorem Expr.WellFormed.derived {e : Expr} (hw : e.WellFormed) (hr : e.Rereads) (hne : e ≠ .wildcard) :
    e.Derived := derived_inductive.all.1 e hw hr hne

/-- The tokens of a well-formed query derive it, if it rereads. -/
theorem Select.WellFormed.derived {s : Select} (hw : s.WellFormed) (hr : s.Rereads) : s.Derived :=
  derived_inductive.all.2 s hw hr

/-! ## Statements -/

theorem Spelled.summary {o : Option String} (hn : ∀ n ∈ o, IsName n)
    (hu : Spelled (summaryPieces o) u) : Phrase.optional Phrase.summary u o := by
  cases o with
  | none => exact Spelled.nil_iff.mp hu
  | some n =>
    obtain ⟨_, rfl, h⟩ := Spelled.clause (P := (· = n))
      (fun v hv => ⟨n, rfl, Spelled.name (hn n rfl) hv⟩) hu
    exact h

theorem Spelled.account {o : Option String}
    (hu : Spelled ((o.map fun account => [space, token (.string (.enclosing account))]).getD []) u) :
    Phrase.optional Phrase.stringValue u o := by
  cases o with
  | none => exact Spelled.nil_iff.mp hu
  | some value => exact Spelled.stringValue (Spelled.space_iff.mp hu)

theorem Spelled.shorthandSource {o : Option EntryFilter} (hw : ∀ f ∈ o, f.WellFormed)
    (hr : ∀ f ∈ o, f.Rereads) (hk : (o.map EntryFilter.levels).getD 0 ≤ k)
    (hu : Spelled (shorthandSourcePieces o) u) :
    ∃ o', o'.map EntryFilter.plain = o.map EntryFilter.plain ∧
      Phrase.optional (Phrase.shorthandSource (phrases .parenthesised k)) u o' := by
  have hu : Spelled (ofOption (fun f => Piece.clause .from f.pieces) o) u := hu
  refine Spelled.optional EntryFilter.plain EntryFilter.plain
    (fun f hf v hv => Spelled.clause (fun v hv => ?_) hv) hu
  obtain rfl : o = some f := hf
  obtain ⟨f', hplain, hfilter, -⟩ := EntryFilter.derived (fun _ h => h) (hw f rfl).1 (hr f rfl).1
    (fun e he => ((hw f rfl).2 e he).2.derived ((hr f rfl).2 e he) ((hw f rfl).2 e he).1) hk hv
  exact ⟨f', hplain, hfilter⟩

/-- The tokens of a well-formed statement derive it, if it rereads. -/
theorem Statement.derived {t : Statement} (hw : t.WellFormed) (hr : t.Rereads) (hk : t.levels ≤ k)
    (hu : Spelled t.pieces u) :
    ∃ t' : Statement, t'.Same t ∧ Phrase.statement (phrases .parenthesised k) u t' := by
  cases t with
  | select s =>
    obtain ⟨k, rfl⟩ : ∃ j, k = j + 1 := ⟨k - 1, by simp only [Statement.levels] at hk; omega⟩
    obtain ⟨s', hs, hselect⟩ := Select.WellFormed.derived hw hr k u (Nat.le_of_succ_le_succ hk) hu
    exact ⟨.select s', by simp only [Same, Statement.plain, hs], Phrase.oneOf_head (Phrase.seq_pure hselect)⟩
  | balances b =>
    obtain ⟨summary, source, condition⟩ := b
    obtain ⟨hwn, hws, hwc⟩ := hw
    obtain ⟨hrs, hrc⟩ := hr
    obtain ⟨hks, hkc⟩ := Nat.max_le.mp hk
    obtain ⟨l, x, rfl, hl, hu⟩ := Spelled.keyword hu
    obtain ⟨x, z, rfl, hx, hz⟩ := Spelled.append_iff.mp hu
    obtain ⟨x, y, rfl, hx, hy⟩ := Spelled.append_iff.mp hx
    obtain ⟨source', hsource, hy⟩ := Spelled.shorthandSource hws hrs hks hy
    obtain ⟨condition', hcondition, hz⟩ := Spelled.condition
      (fun e he => (hwc e he).2.derived (hrc e he) (hwc e he).1) (Expr.levelsOfOption_le_iff.mp hkc) hz
    refine ⟨.balances ⟨summary, source', condition'⟩, ?_, ?_⟩
    · simp only [Same, Statement.plain, hsource, hcondition]
    · have hrun : Phrase.balances (phrases .parenthesised k) (l :: (x ++ (y ++ z)))
          ⟨summary, source', condition'⟩ :=
        Phrase.seq (v := [l]) (Phrase.single hl) (Phrase.seq (Spelled.summary hwn hx)
          (Phrase.seq hy (Phrase.seq_pure hz)))
      rw [List.append_assoc]
      exact Phrase.oneOf_tail (Phrase.oneOf_head (Phrase.seq_pure hrun))
  | journal j =>
    obtain ⟨account, summary, source⟩ := j
    obtain ⟨-, hwn, hws⟩ := hw
    obtain ⟨l, x, rfl, hl, hu⟩ := Spelled.keyword hu
    obtain ⟨x, z, rfl, hx, hz⟩ := Spelled.append_iff.mp hu
    obtain ⟨x, y, rfl, hx, hy⟩ := Spelled.append_iff.mp hx
    obtain ⟨source', hsource, hz⟩ := Spelled.shorthandSource hws hr hk hz
    refine ⟨.journal ⟨account, summary, source'⟩, by simp only [Same, Statement.plain, hsource], ?_⟩
    have hrun : Phrase.journal (phrases .parenthesised k) (l :: (x ++ (y ++ z)))
        ⟨account, summary, source'⟩ :=
      Phrase.seq (v := [l]) (Phrase.single hl) (Phrase.seq (Spelled.account hx)
        (Phrase.seq (Spelled.summary hwn hy) (Phrase.seq_pure hz)))
    rw [List.append_assoc]
    exact Phrase.oneOf_tail (Phrase.oneOf_tail (Phrase.oneOf_head (Phrase.seq_pure hrun)))
  | print p =>
    obtain ⟨source⟩ := p
    obtain ⟨l, v, rfl, hl, hu⟩ := Spelled.keyword hu
    obtain ⟨source', hsource, hv⟩ := Spelled.shorthandSource hw hr hk hu
    refine ⟨.print ⟨source'⟩, by simp only [Same, Statement.plain, hsource], ?_⟩
    have hrun : Phrase.print (phrases .parenthesised k) (l :: v) ⟨source'⟩ :=
      Phrase.seq (v := [l]) (Phrase.single hl) (Phrase.seq_pure hv)
    exact Phrase.oneOf_tail (Phrase.oneOf_tail (Phrase.oneOf_tail (Phrase.oneOf_head (Phrase.seq_pure hrun))))

end LedgerQuery
