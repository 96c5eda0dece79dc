import LedgerQuery.Proofs.Reading.CompleteExpr

/-!
# Queries and statements of the grammar are read

A run that the grammar allows as a clause, a query or a statement is read as that,
if the token after it ends it.  Each clause that may be missing is chosen by its first
keyword.  A clause that is missing leaves the next clause, or the end, at the
front, and these are of a higher rank.

`nested_ready` goes through the nesting levels.  It needs as many levels as the
grammar used, or as many as there are lexemes, whichever is less, because each
level takes at least one lexeme of its own.
-/

namespace LedgerQuery

open Token

/-- Whether every run of a phrase begins with a terminal. -/
def Phrase.BeginsWith {α : Type} (L : Phrase α) (x : Terminal) : Prop :=
  ∀ u a, L u a → ∃ l w, u = l :: w ∧ l.token.is x = true

namespace Reads

open LedgerQuery.Parser

variable {α β : Type} {u v : List Lexeme} {F : Token → Prop} {l : Lexeme}

/-! ## Parts that may be missing -/

theorem stops_optional {L : Phrase α} {x : Terminal} {o : Option α} {rank : Nat} {t : Token}
    (h : Phrase.optional L u o) (hL : L.BeginsWith x) (hx : rank < x.rank) (ht : Stops rank t) :
    Stops rank (firstOf t u) := by
  cases o with
  | none =>
    obtain rfl : u = [] := h
    exact ht
  | some a =>
    obtain ⟨l, w, rfl, hl⟩ := hL u a h
    exact stops_of_is (t := l.token) hl hx

theorem stops_flag {x : Terminal} {b : Bool} {rank : Nat} {t : Token} (h : Phrase.flag x u b)
    (hx : rank < x.rank) (ht : Stops rank t) : Stops rank (firstOf t u) := by
  cases b with
  | false =>
    obtain rfl : u = [] := h
    exact ht
  | true =>
    obtain ⟨l, rfl, hl⟩ := h
    exact stops_of_is (t := l.token) hl hx

theorem accept_flag {x : Terminal} {b : Bool} (h : Phrase.flag x u b)
    (hF : ∀ t, F t → t.is x = false) : Reads (accept x) u F b := by
  cases b with
  | false =>
    obtain rfl : u = [] := h
    exact accept_miss hF
  | true =>
    obtain ⟨l, rfl, hl⟩ := h
    exact accept_hit hl

/-- A part that begins with a terminal and may be missing. -/
theorem after_optional {L : Phrase α} {p : Parser α} {x : Terminal} {o : Option α} {rank : Nat}
    (h : Phrase.optional L u o) (hx : x.rank ≤ rank)
    (hL : ∀ a, L u a → ∃ l w, u = l :: w ∧ l.token.is x = true ∧ Reads p w (Stops rank) a) :
    Reads (after x p) u (Stops rank) o := by
  cases o with
  | none =>
    obtain rfl : u = [] := h
    exact after_miss fun t ht => ht.not_is hx
  | some a =>
    obtain ⟨l, w, rfl, hl, hw⟩ := hL a h
    exact after_hit hl hw

end Reads

/-! ## How clauses begin -/

namespace Phrase

variable {G : Phrases}

theorem beginsWith_bind {α : Type} {x : Terminal} {f : Unit → Phrase α} :
    (terminal x >>= f).BeginsWith x := by
  rintro _ _ ⟨_, w, _, rfl, ⟨l, rfl, hl⟩, -⟩
  exact ⟨l, w, rfl, hl⟩

theorem closing_beginsWith : closing.BeginsWith (.keyword .close) := by
  intro u c h
  simp only [closing, oneOf_cons, oneOf_nil, or_false] at h
  rcases h with ⟨_, w, _, rfl, ⟨l, rfl, hl⟩, -⟩ | ⟨_, w, _, rfl, ⟨l, rfl, hl⟩, -⟩ <;>
    exact ⟨l, w, rfl, hl⟩

end Phrase

namespace Token

/-- What makes an integer part of a larger expression does not end an expression. -/
theorem Stops.not_continues {t : Token} (h : Stops 7 t) : t.continuesExpression = false := by
  cases t with
  | symbol s => cases s <;> first | rfl | exact absurd h (by decide)
  | keyword k written =>
    have hk : 7 < k.rank := h
    cases k <;> first | rfl | exact absurd hk (by decide)
  | _ => rfl

end Token

namespace Reads

open LedgerQuery.Parser

variable {u v : List Lexeme} {F : Token → Prop} {l : Lexeme}

section
variable {inner : Nested} {G : Phrases} {n : Nat} (hG : Ready inner G n)
include hG

/-! ## Keys and targets -/

theorem columnKey {k : ColumnKey} (hn : u.length < n) (h : Phrase.columnKey G u k) :
    Reads (Parser.columnKey inner) u (Stops 7) k := by
  simp only [Phrase.columnKey, Phrase.oneOf_cons, Phrase.oneOf_nil, or_false] at h
  rcases h with ⟨_, w, i, rfl, hi, rfl, rfl⟩ | ⟨_, w, e, rfl, hkey, rfl, rfl⟩
  · obtain ⟨⟨_, span⟩, digits, rfl, rfl, hd⟩ := Phrase.count_iff.mp hi
    refine peek fun t ht => peekNth (n := 1) (by simp) ?_
    rintro t' rfl
    rw [List.append_nil]
    show Reads (if t'.continuesExpression = true then _ else
      take (countOf digits) >>= fun i => Pure.pure (ColumnKey.index i)) _ _ _
    rw [ht.not_continues, hd]
    exact bind_pure (take_ok i)
  · rw [List.append_nil] at hn ⊢
    obtain ⟨he, hu⟩ := hG.key hkey
    have hr := hG.expr hn he
    obtain ⟨⟨t, span⟩, w, rfl, -, hl⟩ := hG.opens he
    refine peek fun t' ht' => ?_
    have hr' : Reads (do return ColumnKey.expr (← inner.expr)) (⟨t, span⟩ :: w) (· = t') (.expr e) :=
      bind_pure (hr.mono fun t'' h'' => h'' ▸ ht')
    cases t with
    | integer digits =>
      cases w with
      | nil => exact absurd ⟨digits, span, rfl⟩ hu
      | cons m w =>
        refine peekNth (n := 1) (by simp) fun t'' ht'' => ?_
        show Reads (if m.token.continuesExpression = true then _ else _) _ _ _
        rw [if_pos (hl rfl m rfl)]
        exact hr'.mono fun _ h => h ▸ ht''
    | _ => exact hr'

theorem target {a : Target} (hn : u.length < n) (h : Phrase.target G u a) :
    Reads (Parser.target inner) u (Stops 8) a := by
  obtain ⟨_, w, ⟨⟨e, name⟩, span⟩, rfl, ⟨h, first, hfirst, last, hlast, rfl⟩, rfl, rfl⟩ := h
  obtain ⟨v, w, e', rfl, hv, x, _, name', rfl, hx, rfl, he⟩ := h
  obtain ⟨rfl, rfl⟩ : e = e' ∧ name = name' := by simpa using he
  rw [List.append_nil, List.append_nil] at *
  have hname : Reads (after (.keyword .as) Parser.name) x (Stops 8) name := by
    refine after_optional hx (by decide) ?_
    rintro name ⟨_, w, _, rfl, ⟨l, rfl, hl⟩, hw⟩
    exact ⟨l, w, rfl, hl, Reads.name hw⟩
  have hboth : Reads (inner.expr >>= fun e => after (.keyword .as) Parser.name >>= fun name =>
      Pure.pure (e, name)) (v ++ x) (Stops 8) (e, name) := by
    refine bind (hG.expr (by simp at hn; omega) hv) (bind_pure hname) fun t ht => ?_
    exact stops_optional hx Phrase.beginsWith_bind (by decide) (ht.mono (by decide))
  have hall : Reads (inner.expr >>= fun e => after (.keyword .as) Parser.name >>= fun name =>
      lastSpan >>= fun stop => Pure.pure (Target.mk e name (some (first.span.merge stop))))
      (v ++ x) (Stops 8) ⟨e, name, some (first.span.merge last.span)⟩ := by
    have h := bind_lastSpan (f := fun (a : Expr × Option String) stop =>
      Pure.pure (Target.mk a.1 a.2 (some (first.span.merge stop))))
      (b := ⟨e, name, some (first.span.merge last.span)⟩)
      (by simp [(hG.opens hv).ne_nil]) hboth fun m hm => ?_
    · simpa only [bind_assoc, pure_bind] using h
    · obtain rfl : m = last := Option.mem_unique hm hlast
      exact pure _
  obtain ⟨y, hy⟩ := List.head?_eq_some_iff.mp hfirst
  rw [hy] at hall ⊢
  exact nextSpan hall

theorem targets {a : Targets} (hn : u.length < n) (h : Phrase.targets G u a) :
    Reads (Parser.targets inner) u (Stops 9) a := by
  simp only [Phrase.targets, Phrase.oneOf_cons, Phrase.oneOf_nil, or_false] at h
  rcases h with ⟨_, w, _, rfl, ⟨l, rfl, hl⟩, rfl, rfl⟩ | ⟨v, w, items, rfl, hv, rfl, rfl⟩
  · exact andThen (accept_hit hl) (pure _)
  · rw [List.append_nil] at hn ⊢
    have hopen : ∀ t, (firstOf t v).opensExpr = true := fun t => by
      refine Phrase.commaList_head (P := fun u => (firstOf t u).opensExpr = true) hv ?_
      rintro _ w a ⟨_, _, _, rfl, ⟨⟨v, _, e, rfl, he, -⟩, -⟩, -⟩
      obtain ⟨l, v', rfl, hl, -⟩ := hG.opens he
      exact hl
    have hstar : ∀ t : Token, t.opensExpr = true → t.is (.symbol .star) = false := fun t ht =>
      is_eq_false_of_opensExpr ht (by decide) (by simp)
    refine skip (accept_miss hstar) (bind_pure ?_) fun t _ => hopen t
    refine commaList (E := Stops 8) (fun t ht => ht.not_is (by decide)) (fun v a hv ha => ?_)
      (fun t ht => stops_of_is ht (by decide)) (fun t ht => ht.mono (by decide)) hv
    exact target hG (by omega) ha

/-! ## Sources -/

omit hG in
theorem opening {o : Option Date} (h : Phrase.optional Phrase.opening u o) :
    Reads (after (.keyword .open) openDate) u (Stops 12) o := by
  refine after_optional h (by decide) ?_
  rintro d ⟨_, w, _, rfl, ⟨l, rfl, hl⟩, _, w, _, rfl, ⟨m, rfl, hm⟩, hd⟩
  exact ⟨l, [m] ++ w, rfl, hl, andThen (expect hm) (date hd)⟩

omit hG in
theorem closing {c : Closing} (h : Phrase.closing u c) :
    ∃ l w, u = l :: w ∧ l.token.is (.keyword .close) = true ∧
      Reads Parser.closing w (Stops 13) c := by
  simp only [Phrase.closing, Phrase.oneOf_cons, Phrase.oneOf_nil, or_false] at h
  rcases h with ⟨_, w, _, rfl, ⟨l, rfl, hl⟩, rfl, rfl⟩ |
    ⟨_, w, _, rfl, ⟨l, rfl, hl⟩, _, w, _, rfl, ⟨m, rfl, hm⟩, v, w, d, rfl, hv, rfl, rfl⟩
  · exact ⟨l, _, rfl, hl, skip (accept_miss fun t ht => ht.not_is (by decide)) (pure _)
      fun _ ht => ht⟩
  · rw [List.append_nil]
    exact ⟨l, [m] ++ v, rfl, hl, andThen (accept_hit hm) (bind_pure (date hv))⟩

omit hG in
theorem clearing {b : Bool} (h : Phrase.flag (.keyword .clear) u b) :
    Reads (accept (.keyword .clear)) u (Stops 14) b :=
  accept_flag h fun t ht => ht.not_is (by decide)

theorem entryFilter {f : EntryFilter} (hn : u.length < n) (h : Phrase.entryFilter G u f) :
    Reads (Parser.entryFilter inner) u (Stops 14) f := by
  simp only [Phrase.entryFilter, Phrase.oneOf_cons, Phrase.oneOf_nil, or_false] at h
  rcases h with
    ⟨v, w, d, rfl, ⟨_, _, _, rfl, ⟨l, rfl, hl⟩, _, _, _, rfl, ⟨m, rfl, hm⟩, hd⟩, x, w, close, rfl, hx,
      y, w, clear, rfl, hy, rfl, rfl⟩ |
    ⟨v, w, close, rfl, hv, y, w, clear, rfl, hy, rfl, rfl⟩ |
    ⟨_, w, _, rfl, ⟨l, rfl, hl⟩, rfl, rfl⟩ |
    ⟨v, w, e, rfl, ⟨he, hv⟩, z, w, openOn, rfl, hz, x, w, close, rfl, hx, y, w, clear, rfl, hy,
      rfl, rfl⟩
  · rw [List.append_nil]
    refine andThen (v := [l]) (accept_hit hl) ?_
    refine andThen (v := m :: _) (andThen (expect hm) (date hd)) ?_
    have hclose := after_optional (p := Parser.closing) hx (by decide) fun a ha => closing ha
    exact bind hclose (bind_pure (clearing hy)) fun t ht =>
      stops_flag hy (by decide) (ht.mono (by decide))
  · rw [List.append_nil]
    obtain ⟨l, v, rfl, hl, hv⟩ := closing hv
    refine skip (accept_miss (F := (· = l.token)) ?_) ?_ fun _ _ => rfl
    · rintro t rfl
      obtain ⟨written, hl⟩ := is_keyword_iff.mp hl
      rw [hl]
      rfl
    · refine andThen (v := [l]) (accept_hit hl) ?_
      exact bind hv (bind_pure (clearing hy)) fun t ht =>
        stops_flag hy (by decide) (ht.mono (by decide))
  · have hmiss : ∀ k, k ≠ Keyword.clear → ∀ t, t = l.token → t.is (.keyword k) = false := by
      rintro k hk t rfl
      obtain ⟨written, hl⟩ := is_keyword_iff.mp hl
      simp [hl, is, terminal?, Ne.symm hk]
    refine skip (accept_miss (hmiss .open (by decide))) ?_ fun _ _ => rfl
    refine skip (accept_miss (hmiss .close (by decide))) ?_ fun _ _ => rfl
    exact andThen (accept_hit hl) (pure _)
  · rw [List.append_nil] at *
    obtain ⟨l, v', hlv, -⟩ := hG.opens he
    have hmiss : ∀ k ∈ [Keyword.open, .close, .clear], ∀ t, t = l.token →
        t.is (.keyword k) = false := by
      rintro k hk t rfl
      rw [← Bool.not_eq_true]
      exact fun hi => hv ⟨l, by rw [hlv]; rfl, k, hk, hi⟩
    have hfirst : ∀ t, firstOf t (v ++ (z ++ (x ++ y))) = l.token := by simp [hlv]
    refine skip (accept_miss (hmiss .open (by decide))) ?_ fun t _ => hfirst t
    refine skip (accept_miss (hmiss .close (by decide))) ?_ fun t _ => hfirst t
    refine skip (accept_miss (hmiss .clear (by decide))) ?_ fun t _ => hfirst t
    have hclose := after_optional (p := Parser.closing) hx (by decide) fun a ha => closing ha
    refine bind (hG.expr (by simp at hn; omega) he) (bind (opening hz) (bind hclose
      (bind_pure (clearing hy)) fun t ht => ?_) fun t ht => ?_) fun t ht => ?_
    · exact stops_flag hy (by decide) (ht.mono (by decide))
    · rw [firstOf_append]
      exact stops_optional hx Phrase.closing_beginsWith (by decide)
        (stops_flag hy (by decide) (ht.mono (by decide)))
    · rw [firstOf_append, firstOf_append]
      exact stops_optional hz Phrase.beginsWith_bind (by decide)
        (stops_optional hx Phrase.closing_beginsWith (by decide)
          (stops_flag hy (by decide) (ht.mono (by decide))))

theorem entryFilter_opens {f : EntryFilter} (h : Phrase.entryFilter G u f) :
    ∃ l w, u = l :: w ∧ l.token.opensExpr = true := by
  simp only [Phrase.entryFilter, Phrase.oneOf_cons, Phrase.oneOf_nil, or_false] at h
  rcases h with ⟨_, w, _, rfl, ⟨_, x, _, rfl, ⟨l, rfl, hl⟩, -⟩, -⟩ | ⟨v, w, c, rfl, hv, -⟩ |
    ⟨_, w, _, rfl, ⟨l, rfl, hl⟩, -⟩ | ⟨v, w, e, rfl, ⟨he, -⟩, -⟩
  · obtain ⟨written, hl⟩ := is_keyword_iff.mp hl
    exact ⟨l, x ++ w, rfl, by rw [hl]; rfl⟩
  · obtain ⟨l, v', rfl, hl⟩ := Phrase.closing_beginsWith v c hv
    obtain ⟨written, hl⟩ := is_keyword_iff.mp hl
    exact ⟨l, v' ++ w, rfl, by rw [hl]; rfl⟩
  · obtain ⟨written, hl⟩ := is_keyword_iff.mp hl
    exact ⟨l, w, rfl, by rw [hl]; rfl⟩
  · obtain ⟨l, v', rfl, hl, -⟩ := hG.opens he
    exact ⟨l, v' ++ w, rfl, hl⟩

omit hG in
/-- Looking for a query sees the next two tokens. -/
theorem atQuery {β : Type} {f : Bool → Parser β} {a : β} {b : Bool} (hu : 1 ≤ u.length)
    (hb : ∀ t, F t → ((firstOf t u).is (.symbol .leftParen) &&
      (firstOf t (u.drop 1)).is (.keyword .select)) = b)
    (h : Reads (f b) u F a) : Reads (Parser.atQuery >>= f) u F a := by
  refine look h fun rest tried last hr => ?_
  have h₀ := Input.nth_append u rest tried last (n := 0) (by omega)
  have h₁ := Input.nth_append u rest tried last (n := 1) (by omega)
  show Except.ok ((Input.nth _ 0).is _ && (Input.nth _ 1).is _, _) = _
  rw [h₀, h₁, ← hb _ hr]
  rfl

theorem source {a : Source} (hn : u.length < n) (h : Phrase.source G u a) :
    Reads (Parser.source inner) u (Stops 14) a := by
  simp only [Phrase.source, Phrase.oneOf_cons, Phrase.oneOf_nil, or_false] at h
  rcases h with ⟨_, w, name, rfl, hname, rfl, rfl⟩ |
    ⟨_, w, _, rfl, ⟨⟨_, span⟩, rfl, hl⟩, v, w, q, rfl, hv, _, w, _, rfl, ⟨r, rfl, hr⟩, rfl, rfl⟩ |
    ⟨v, w, f, rfl, ⟨hf, hv⟩, rfl, rfl⟩
  · obtain ⟨⟨_, span⟩, rfl, rfl⟩ := Phrase.table_iff.mp hname
    exact peek fun t ht => take_ok _
  · obtain rfl := is_symbol_iff.mp hl
    obtain ⟨m, v', hm, hsel⟩ := hG.selectOpens hv
    refine peek fun t ht => atQuery (b := true) (by simp) (fun t _ => ?_) ?_
    · rw [hm]
      exact hsel
    · refine andThen (v := [_]) advance (bind (hG.select (by simp at hn; omega) hv)
        (bind_pure (expect hr)) fun _ _ => stops_of_is hr (by decide))
  · rw [List.append_nil] at *
    obtain ⟨⟨t, span⟩, w, rfl, ht⟩ := entryFilter_opens hG hf
    have hr : Reads (Parser.record .table >>= fun _ => Parser.entryFilter inner >>= fun f =>
        Pure.pure (Source.entries f)) (⟨t, span⟩ :: w) (Stops 14) (.entries f) :=
      skip (E := fun _ => True) (record _) (bind_pure (entryFilter hG hn hf)) fun _ _ => trivial
    refine peek fun t' ht' => ?_
    have hq : Reads (Parser.atQuery >>= fun b => if b = true then (do
        Parser.advance
        let query ← inner.select
        Parser.expect (.symbol .rightParen)
        return Source.query query) else (do
        Parser.record .table
        return .entries (← Parser.entryFilter inner))) (⟨t, span⟩ :: w) (· = t') (.entries f) := by
      refine atQuery (b := false) (by simp) (fun t'' ht'' => ?_) (hr.mono fun _ h => h ▸ ht')
      rw [← Bool.not_eq_true, Bool.and_eq_true]
      rintro ⟨hp, hs⟩
      cases w with
      | nil =>
        rw [show (firstOf t'' (List.drop 1 [⟨t, span⟩])) = t' from ht'', ht'.not_is (by decide)] at hs
        cases hs
      | cons m w => exact hv ⟨_, m, w, rfl, hp, hs⟩
    cases t with
    | table name => exact absurd (show false = true from ht) Bool.false_ne_true
    | _ => exact hq

/-! ## Clauses -/

theorem groupBy {g : GroupBy} (hn : u.length ≤ n) (h : Phrase.groupBy G u g) :
    ∃ l w, u = l :: w ∧ l.token.is (.keyword .group) = true ∧
      Reads (Parser.groupBy inner) w (Stops 17) g := by
  obtain ⟨_, w, _, rfl, ⟨l, rfl, hl⟩, _, w, _, rfl, ⟨m, rfl, hm⟩, v, w, keys, rfl, hv, x, _, having,
    rfl, hx, rfl, rfl⟩ := h
  rw [List.append_nil] at hn ⊢
  refine ⟨l, [m] ++ (v ++ x), rfl, hl, andThen (expect hm) ?_⟩
  have hkeys : Reads (Parser.commaList (Parser.columnKey inner)) v (Stops 9) keys := by
    refine commaList (E := Stops 7) (fun t ht => ht.not_is (by decide)) (fun v a hv ha => ?_)
      (fun t ht => stops_of_is ht (by decide)) (fun t ht => ht.mono (by decide)) hv
    exact columnKey hG (by simp at hn; omega) ha
  have hhaving : Reads (after (.keyword .having) inner.expr) x (Stops 17) having := by
    refine after_optional hx (by decide) ?_
    rintro e ⟨_, w, _, rfl, ⟨l, rfl, hl⟩, hw⟩
    exact ⟨l, w, rfl, hl, (hG.expr (by simp at hn; omega) hw).mono fun t ht => ht.mono (by decide)⟩
  exact bind hkeys (bind_pure hhaving) fun t ht =>
    stops_optional hx Phrase.beginsWith_bind (by decide) (ht.mono (by decide))

omit hG in
theorem sortDirection {d : SortDirection} (h : Phrase.sortDirection u d) :
    Reads Parser.sortDirection u (Stops 8) d := by
  simp only [Phrase.sortDirection, Phrase.oneOf_cons, Phrase.oneOf_nil, or_false] at h
  rcases h with ⟨_, w, _, rfl, ⟨l, rfl, hl⟩, rfl, rfl⟩ | ⟨_, w, _, rfl, ⟨l, rfl, hl⟩, rfl, rfl⟩ |
    ⟨rfl, rfl⟩
  · exact andThen (accept_hit hl) (pure _)
  · have hmiss : ∀ t, t = l.token → t.is (.keyword .desc) = false := by
      rintro t rfl
      obtain ⟨written, hl⟩ := is_keyword_iff.mp hl
      rw [hl]
      rfl
    exact skip (accept_miss hmiss) (andThen (accept_hit hl) (pure _)) fun _ _ => rfl
  · refine skip (accept_miss fun t ht => ht.not_is (by decide)) ?_ fun _ ht => ht
    exact skip (accept_miss fun t ht => ht.not_is (by decide)) (pure _) fun _ ht => ht

theorem sortKey {k : SortKey} (hn : u.length < n) (h : Phrase.sortKey G u k) :
    Reads (Parser.sortKey inner) u (Stops 8) k := by
  obtain ⟨v, w, column, rfl, hv, x, _, d, rfl, hx, rfl, rfl⟩ := h
  rw [List.append_nil] at hn ⊢
  refine bind (columnKey hG (by simp at hn; omega) hv) (bind_pure (sortDirection hx)) fun t ht => ?_
  simp only [Phrase.sortDirection, Phrase.oneOf_cons, Phrase.oneOf_nil, or_false] at hx
  rcases hx with ⟨_, w, _, rfl, ⟨l, rfl, hl⟩, rfl, rfl⟩ | ⟨_, w, _, rfl, ⟨l, rfl, hl⟩, rfl, rfl⟩ |
    ⟨rfl, rfl⟩
  · exact stops_of_is (t := l.token) hl (by decide)
  · exact stops_of_is (t := l.token) hl (by decide)
  · exact ht.mono (by decide)

theorem orderBy {keys : List SortKey} (hn : u.length ≤ n) (h : Phrase.orderBy G u keys) :
    ∃ l w, u = l :: w ∧ l.token.is (.keyword .order) = true ∧
      Reads (Parser.orderBy inner) w (Stops 18) keys := by
  obtain ⟨_, w, _, rfl, ⟨l, rfl, hl⟩, _, w, _, rfl, ⟨m, rfl, hm⟩, hw⟩ := h
  refine ⟨l, [m] ++ w, rfl, hl, andThen (expect hm) ?_⟩
  refine commaList (E := Stops 8) (fun t ht => ht.not_is (by decide)) (fun v a hv ha => ?_)
    (fun t ht => stops_of_is ht (by decide)) (fun t ht => ht.mono (by decide)) hw
  exact sortKey hG (by simp at hn; omega) ha

omit hG in
theorem pivotKey {k : PivotKey} (h : Phrase.pivotKey u k) : Reads Parser.pivotKey u F k := by
  simp only [Phrase.pivotKey, Phrase.oneOf_cons, Phrase.oneOf_nil, or_false] at h
  rcases h with ⟨_, w, i, rfl, hi, rfl, rfl⟩ | ⟨_, w, name, rfl, hname, rfl, rfl⟩
  · obtain ⟨⟨_, span⟩, digits, rfl, rfl, hd⟩ := Phrase.count_iff.mp hi
    refine peek fun t _ => ?_
    show Reads (take (countOf digits) >>= fun i => Pure.pure (PivotKey.index i)) _ _ _
    rw [hd]
    exact bind_pure (take_ok i)
  · obtain ⟨⟨t, span⟩, rfl, ht⟩ := hname
    refine peek fun t' _ => ?_
    have hr : Reads (Parser.record .integer >>= fun _ => Parser.name >>= fun name =>
        Pure.pure (PivotKey.column name)) [⟨t, span⟩] (· = t') (.column name) :=
      skip (E := fun _ => True) (record _) (bind_pure (Reads.name ⟨_, rfl, ht⟩)) fun _ _ => trivial
    cases t with
    | integer digits => simp [name?] at ht
    | _ => exact hr

omit hG in
theorem pivotBy {p : PivotBy} (h : Phrase.pivotBy u p) :
    ∃ l w, u = l :: w ∧ l.token.is (.keyword .pivot) = true ∧
      Reads Parser.pivotBy w (Stops 19) p := by
  obtain ⟨_, w, _, rfl, ⟨l, rfl, hl⟩, _, w, _, rfl, ⟨m, rfl, hm⟩, v, w, row, rfl, hv,
    _, w, _, rfl, ⟨c, rfl, hc⟩, x, _, column, rfl, hx, rfl, rfl⟩ := h
  rw [List.append_nil]
  refine ⟨l, [m] ++ (v ++ ([c] ++ x)), rfl, hl, andThen (expect hm) (andThen (pivotKey hv) ?_)⟩
  refine peek fun t ht => ?_
  show Reads (if c.token.is (.symbol .comma) = true then _ else _) _ _ _
  rw [if_pos hc]
  refine andThen (v := [c]) advance (andLast (pivotKey hx) (peek fun t' ht' => ?_))
  show Reads (if t'.is (.symbol .comma) = true then _ else _) _ _ _
  rw [ht', ht.not_is (by decide)]
  exact pure _

theorem targets_open {a : Targets} (h : Phrase.targets G u a) (t : Token) :
    (firstOf t u).is (.keyword .distinct) = false := by
  simp only [Phrase.targets, Phrase.oneOf_cons, Phrase.oneOf_nil, or_false] at h
  rcases h with ⟨_, w, _, rfl, ⟨l, rfl, hl⟩, rfl, rfl⟩ | ⟨v, w, items, rfl, hv, rfl, rfl⟩
  · show l.token.is _ = false
    rw [is_symbol_iff.mp hl]
    rfl
  · refine Phrase.commaList_head
      (P := fun u => (firstOf t (u ++ [])).is (.keyword .distinct) = false) hv ?_
    rintro _ w a ⟨_, _, _, rfl, ⟨⟨v, _, e, rfl, he, -⟩, -⟩, -⟩
    obtain ⟨l, v', rfl, hl, -⟩ := hG.opens he
    exact is_eq_false_of_opensExpr (t := l.token) hl (by decide) (by rintro _ ⟨⟩; rfl)

theorem select {q : Select} (hn : u.length ≤ n) (h : Phrase.select G u q) :
    Reads (Parser.selectQuery inner) u (Stops 20) q := by
  obtain ⟨_, _, _, rfl, ⟨l, rfl, hl⟩, ud, _, distinct, rfl, hdistinct, ut, _, targets, rfl, htargets,
    us, _, source, rfl, hsource, uc, _, condition, rfl, hcondition, ug, _, groupBy, rfl, hgroupBy,
    uo, _, orderBy, rfl, horderBy, up, _, pivotBy, rfl, hpivotBy, ul, _, limit, rfl, hlimit, rfl,
    rfl⟩ := h
  rw [List.append_nil] at hn ⊢
  simp only [List.length_append, List.length_cons, List.length_nil] at hn
  have rsource : Reads (after (.keyword .from) (Parser.source inner)) us (Stops 14) source := by
    refine after_optional hsource (by decide) ?_
    rintro a ⟨_, w, _, rfl, ⟨l, rfl, hl⟩, hw⟩
    simp at hn
    exact ⟨l, w, rfl, hl, Reads.source hG (by omega) hw⟩
  have rcondition : Reads (after (.keyword .where) inner.expr) uc (Stops 15) condition := by
    refine after_optional hcondition (by decide) ?_
    rintro e ⟨_, w, _, rfl, ⟨l, rfl, hl⟩, hw⟩
    simp at hn
    exact ⟨l, w, rfl, hl, (hG.expr (by omega) hw).mono fun t ht => ht.mono (by decide)⟩
  have rgroupBy : Reads (after (.keyword .group) (Parser.groupBy inner)) ug (Stops 17) groupBy :=
    after_optional hgroupBy (by decide) fun _ ha => Reads.groupBy hG (by omega) ha
  have rorderBy : Reads (after (.keyword .order) (Parser.orderBy inner)) uo (Stops 18) orderBy :=
    after_optional horderBy (by decide) fun _ ha => Reads.orderBy hG (by omega) ha
  have rpivotBy : Reads (after (.keyword .pivot) Parser.pivotBy) up (Stops 19) pivotBy :=
    after_optional hpivotBy (by decide) fun _ ha => Reads.pivotBy ha
  have rlimit : Reads (after (.keyword .limit) Parser.count) ul (Stops 20) limit := by
    refine after_optional hlimit (by decide) ?_
    rintro i ⟨_, w, _, rfl, ⟨l, rfl, hl⟩, hw⟩
    exact ⟨l, w, rfl, hl, count hw⟩
  have slimit : ∀ {rank t}, rank < 20 → Stops 20 t → Stops rank (firstOf t ul) := fun hr ht =>
    stops_optional hlimit Phrase.beginsWith_bind hr (ht.mono (Nat.le_of_lt hr))
  have spivotBy : ∀ {rank t}, rank < 19 → Stops 20 t → Stops rank (firstOf t (up ++ ul)) :=
    fun hr ht => by
      rw [firstOf_append]
      exact stops_optional hpivotBy Phrase.beginsWith_bind hr (slimit (by omega) ht)
  have sorderBy : ∀ {rank t}, rank < 18 → Stops 20 t → Stops rank (firstOf t (uo ++ (up ++ ul))) :=
    fun hr ht => by
      rw [firstOf_append]
      exact stops_optional horderBy Phrase.beginsWith_bind hr (spivotBy (by omega) ht)
  have sgroupBy : ∀ {rank t}, rank < 16 → Stops 20 t →
      Stops rank (firstOf t (ug ++ (uo ++ (up ++ ul)))) := fun hr ht => by
    rw [firstOf_append]
    exact stops_optional hgroupBy Phrase.beginsWith_bind hr (sorderBy (by omega) ht)
  have scondition : ∀ {rank t}, rank < 15 → Stops 20 t →
      Stops rank (firstOf t (uc ++ (ug ++ (uo ++ (up ++ ul))))) := fun hr ht => by
    rw [firstOf_append]
    exact stops_optional hcondition Phrase.beginsWith_bind hr (sgroupBy (by omega) ht)
  have ssource : ∀ {rank t}, rank < 11 → Stops 20 t →
      Stops rank (firstOf t (us ++ (uc ++ (ug ++ (uo ++ (up ++ ul)))))) := fun hr ht => by
    rw [firstOf_append]
    exact stops_optional hsource Phrase.beginsWith_bind hr (scondition (by omega) ht)
  refine andThen (v := [l]) (expect hl) ?_
  refine bind (E := fun t => t.is (.keyword .distinct) = false)
    (accept_flag hdistinct fun t ht => ht) ?_ fun t _ => ?_
  · refine bind (Reads.targets hG (by omega) htargets) ?_ fun t ht => ssource (by decide) ht
    refine bind rsource ?_ fun t ht => scondition (by decide) ht
    refine bind rcondition ?_ fun t ht => sgroupBy (by decide) ht
    refine bind rgroupBy ?_ fun t ht => sorderBy (by decide) ht
    refine bind rorderBy ?_ fun t ht => spivotBy (by decide) ht
    exact bind rpivotBy (bind_pure rlimit) fun t ht => slimit (by decide) ht
  · rw [firstOf_append]
    exact targets_open hG htargets _

/-! ## Statements -/

omit hG in
theorem summary {o : Option String} (h : Phrase.optional Phrase.summary u o) :
    Reads Parser.summary u (Stops 10) o := by
  refine after_optional h (by decide) ?_
  rintro _ ⟨_, w, _, rfl, ⟨l, rfl, hl⟩, hw⟩
  exact ⟨l, w, rfl, hl, name hw⟩

theorem shorthandSource {o : Option EntryFilter} (hn : u.length ≤ n)
    (h : Phrase.optional (Phrase.shorthandSource G) u o) :
    Reads (Parser.shorthandSource inner) u (Stops 14) o := by
  refine after_optional h (by decide) ?_
  rintro f ⟨_, w, _, rfl, ⟨l, rfl, hl⟩, hw⟩
  exact ⟨l, w, rfl, hl, entryFilter hG (by simp at hn; omega) hw⟩

omit hG in
theorem accountPattern {o : Option String} (h : Phrase.optional Phrase.stringValue u o) :
    Reads Parser.accountPattern u (Stops 9) o := by
  cases o with
  | none =>
    obtain rfl : u = [] := h
    refine peek fun t ht => ?_
    have hr : Reads (Parser.record .string >>= fun _ => Pure.pure (none : Option String)) [] (· = t)
        none := skip (E := fun _ => True) (record _) (pure _) fun _ _ => trivial
    cases t with
    | string s => exact absurd ht (Nat.not_lt_zero _)
    | _ => exact hr
  | some value =>
    obtain ⟨⟨_, span⟩, s, rfl, rfl, rfl⟩ := Phrase.stringValue_iff.mp h
    exact peek fun t _ => take_ok _

theorem balances {q : Balances} (hn : u.length ≤ n) (h : Phrase.balances G u q) :
    Reads (Parser.balances inner) u (Stops 20) q := by
  obtain ⟨_, _, _, rfl, ⟨l, rfl, hl⟩, ua, _, summary, rfl, hsummary, us, _, source, rfl, hsource,
    uc, _, condition, rfl, hcondition, rfl, rfl⟩ := h
  rw [List.append_nil] at hn ⊢
  simp only [List.length_append, List.length_cons, List.length_nil] at hn
  have rcondition : Reads (after (.keyword .where) inner.expr) uc (Stops 15) condition := by
    refine after_optional hcondition (by decide) ?_
    rintro e ⟨_, w, _, rfl, ⟨l, rfl, hl⟩, hw⟩
    simp at hn
    exact ⟨l, w, rfl, hl, (hG.expr (by omega) hw).mono fun t ht => ht.mono (by decide)⟩
  have scondition : ∀ {rank t}, rank < 15 → Stops 20 t → Stops rank (firstOf t uc) :=
    fun hr ht => stops_optional hcondition Phrase.beginsWith_bind hr (ht.mono (by omega))
  refine andThen (expect hl) (bind (Reads.summary hsummary) (bind
    (Reads.shorthandSource hG (by omega) hsource) (bind_pure
      (rcondition.mono fun t ht => ht.mono (by decide)))
    fun t ht => scondition (by decide) ht) fun t ht => ?_)
  rw [firstOf_append]
  exact stops_optional hsource Phrase.beginsWith_bind (by decide) (scondition (by decide) ht)

theorem journal {q : Journal} (hn : u.length ≤ n) (h : Phrase.journal G u q) :
    Reads (Parser.journal inner) u (Stops 20) q := by
  obtain ⟨_, _, _, rfl, ⟨l, rfl, hl⟩, uj, _, account, rfl, haccount, ua, _, summary, rfl, hsummary,
    us, _, source, rfl, hsource, rfl, rfl⟩ := h
  rw [List.append_nil] at hn ⊢
  simp only [List.length_append, List.length_cons, List.length_nil] at hn
  have ssource : ∀ {rank t}, rank < 11 → Stops 20 t → Stops rank (firstOf t us) :=
    fun hr ht => stops_optional hsource Phrase.beginsWith_bind hr (ht.mono (by omega))
  refine andThen (expect hl) (bind (Reads.accountPattern haccount) (bind (Reads.summary hsummary)
    (bind_pure ((Reads.shorthandSource hG (by omega) hsource).mono fun t ht => ht.mono (by decide)))
    fun t ht => ssource (by decide) ht) fun t ht => ?_)
  rw [firstOf_append]
  exact stops_optional hsummary Phrase.beginsWith_bind (by decide) (ssource (by decide) ht)

theorem print {q : Print} (hn : u.length ≤ n) (h : Phrase.print G u q) :
    Reads (Parser.print inner) u (Stops 20) q := by
  obtain ⟨_, _, _, rfl, ⟨l, rfl, hl⟩, us, _, source, rfl, hsource, rfl, rfl⟩ := h
  rw [List.append_nil] at hn ⊢
  simp only [List.length_append, List.length_cons, List.length_nil] at hn
  exact andThen (expect hl) (bind_pure ((Reads.shorthandSource hG (by omega) hsource).mono
    fun t ht => ht.mono (by decide)))

theorem statement {s : Statement} (hn : u.length < n) (h : Phrase.statement G u s) :
    Reads (Parser.statement inner) u (Stops 20) s := by
  have starts : ∀ {α : Type} {k : Keyword} {f : Unit → Phrase α} {v : List Lexeme} {a : α},
      (Phrase.keyword k >>= f) v a → ∃ written span w, v = ⟨.keyword k written, span⟩ :: w := by
    rintro α k f _ a ⟨_, w, _, rfl, ⟨⟨_, span⟩, rfl, hl⟩, -⟩
    obtain ⟨written, rfl⟩ := is_keyword_iff.mp hl
    exact ⟨written, span, w, rfl⟩
  simp only [Phrase.statement, Phrase.oneOf_cons, Phrase.oneOf_nil, or_false] at h
  rcases h with ⟨v, w, q, rfl, hq, rfl, rfl⟩ | ⟨v, w, q, rfl, hq, rfl, rfl⟩ |
    ⟨v, w, q, rfl, hq, rfl, rfl⟩ | ⟨v, w, q, rfl, hq, rfl, rfl⟩
  all_goals rw [List.append_nil] at *
  · have hr := hG.select hn hq
    obtain ⟨⟨_, span⟩, w, rfl, hl⟩ := hG.selectOpens hq
    obtain ⟨written, rfl⟩ := is_keyword_iff.mp hl
    exact peek fun t ht => bind_pure (hr.mono fun t' ht' => ht' ▸ ht)
  · have hr := balances hG (Nat.le_of_lt hn) hq
    obtain ⟨written, span, w, rfl⟩ := starts hq
    exact peek fun t ht => bind_pure (hr.mono fun t' ht' => ht' ▸ ht)
  · have hr := journal hG (Nat.le_of_lt hn) hq
    obtain ⟨written, span, w, rfl⟩ := starts hq
    exact peek fun t ht => bind_pure (hr.mono fun t' ht' => ht' ▸ ht)
  · have hr := print hG (Nat.le_of_lt hn) hq
    obtain ⟨written, span, w, rfl⟩ := starts hq
    exact peek fun t ht => bind_pure (hr.mono fun t' ht' => ht' ▸ ht)

end

/-! ## Operands that stand alone -/

theorem leftGrouped_alone {family : Symbol → Option BinaryOp} {p : Parser Expr} {e : Expr}
    (h : Reads p u F e) (hF : ∀ t, F t → ∀ s, t = .symbol s → family s = none) :
    Reads (Parser.leftGrouped family p) u F e := by
  have hstop : Reads (operation? family p) [] F none := by
    refine peek fun t ht => ?_
    cases t with
    | symbol s =>
      dsimp only [firstOf]
      rw [hF _ ht s rfl]
      exact pure none
    | _ => exact pure none
  refine andLast h (andLast (many (L := Phrase.none) hstop ?_ ?_ (fun _ ht => ht) .nil) (pure e))
  · exact fun _ _ _ hl => absurd hl id
  · exact fun _ _ hl => absurd hl id

theorem connected_alone {op : BoolOp} {p : Parser Expr} {e : Expr}
    (h : Reads p u F e) (hF : ∀ t, F t → t.is (.keyword op.key) = false) :
    Reads (Parser.connected op p) u F e := by
  refine andLast h (andLast (many (L := Phrase.none) (afterQuietly_miss hF) ?_ ?_ (fun _ ht => ht)
    .nil) (pure e))
  · exact fun _ _ _ hl => absurd hl id
  · exact fun _ _ hl => absurd hl id

/-- An atom by itself is an expression, if the token after it does not go on with it. -/
theorem atom_alone {inner : Nested} {e : Expr} (h : Reads (Parser.atom inner) (l :: u) F e)
    (hF : ∀ t, F t → t.continuesExpression = false) (hnot : l.token.is (.keyword .not) = false)
    (hfactor : ∀ s ∈ [Symbol.leftParen, .minus, .plus], l.token ≠ .symbol s) :
    Reads (Parser.disjunction inner) (l :: u) F e := by
  have words : ∀ op : BoolOp, ∀ t, F t → t.is (.keyword op.key) = false := by
    intro op t ht
    rw [← Bool.not_eq_true]
    intro hi
    obtain ⟨written, rfl⟩ := is_keyword_iff.mp hi
    cases op <;> cases hF _ ht
  have symbols : ∀ t, F t → ∀ s, t = .symbol s → BinaryOp.ofMultiplicative? s = none ∧
      BinaryOp.ofAdditive? s = none ∧ s ≠ .dot ∧ s ≠ .leftBracket := by
    rintro t ht s rfl
    cases s <;> first | exact ⟨rfl, rfl, by decide, by decide⟩ | cases hF _ ht
  have marks : ∀ t, F t → ∀ s ∈ [Symbol.dot, .leftBracket], t.is (.symbol s) = false := by
    intro t ht s hs
    rw [← Bool.not_eq_true]
    intro hi
    obtain ⟨-, -, hdot, hbracket⟩ := symbols t ht s (is_symbol_iff.mp hi)
    simp only [List.mem_cons, List.not_mem_nil, or_false] at hs
    exact hs.elim hdot hbracket
  have suffix : Reads Parser.suffix? [] F none :=
    skip (acceptQuietly_miss fun t ht => marks t ht _ (by simp))
      (skip (acceptQuietly_miss fun t ht => marks t ht _ (by simp)) (pure none) fun _ ht => ht) fun _ ht => ht
  have primary : Reads (Parser.primary inner) (l :: u) F e := by
    refine andLast h (andLast (many (L := Phrase.none) suffix ?_ ?_ (fun _ ht => ht) .nil) (pure _))
    · exact fun _ _ _ hl => absurd hl id
    · exact fun _ _ hl => absurd hl id
  have factor : Reads (Parser.factor inner) (l :: u) F e := by
    refine peek fun t ht => ?_
    dsimp only [firstOf]
    split
    · next hl => exact absurd hl (hfactor _ (by simp))
    · next hl => exact absurd hl (hfactor _ (by simp))
    · next hl => exact absurd hl (hfactor _ (by simp))
    · exact primary.mono fun t' ht' => ht' ▸ ht
  have sum := leftGrouped_alone (leftGrouped_alone factor fun t ht s hs => (symbols t ht s hs).1)
    fun t ht s hs => (symbols t ht s hs).2.1
  have none : Reads Parser.comparison? [] F none := by
    refine peek fun t ht => ?_
    have hc := hF t ht
    cases t with
    | symbol s => cases s <;> first | exact pure none | cases hc
    | keyword k written => cases k <;> first | exact pure none | cases hc
    | _ => exact pure none
  have comparison : Reads (Parser.comparison inner) (l :: u) F e := andLast sum (skip none (pure _) fun _ ht => ht)
  have inversion : Reads (Parser.inversion inner) (l :: u) F e :=
    skip (acceptQuietly_miss (F := (· = l.token)) (by rintro t rfl; exact hnot)) comparison fun _ _ => rfl
  exact connected_alone (connected_alone inversion (words _)) (words _)

/-- A query by itself is an expression, if the token after it ends everything. -/
theorem subselect {inner : Nested} {q : Select} (h : Reads inner.select (l :: u) (Stops 20) q)
    (hl : l.token.is (.keyword .select) = true) :
    Reads (Parser.disjunction inner) (l :: u) (Stops 20) (.subselect q) := by
  obtain ⟨_, span⟩ := l
  obtain ⟨written, rfl⟩ := is_keyword_iff.mp hl
  exact atom_alone (peek fun t ht => bind_pure (h.mono fun t' ht' => ht' ▸ ht))
    (fun t ht => (ht.mono (by decide)).not_continues) rfl fun _ _ => nofun

/-- An integer by itself is an expression, if the token after it does not go on with it. -/
theorem integer_alone (inner : Nested) {digits : String} {n : Int64} (hl : l.token = .integer digits)
    (hn : integerOf digits = .ok n) :
    Reads (Parser.disjunction inner) [l] (·.continuesExpression = false) (.literal (.integer n)) := by
  obtain ⟨_, span⟩ := l
  obtain rfl := hl
  have hliteral : (Token.integer digits).literal? = some (.ok (.integer n)) := by
    show some (Literal.integer <$> integerOf digits) = _
    rw [hn]
    rfl
  exact atom_alone (peek fun t ht => andThen (w := []) (literal?_hit hliteral) (pure _)) (fun _ ht => ht) rfl
    fun _ _ => nofun

end Reads

/-! ## Nesting -/

/-- With as many levels as the grammar used, or as many as there are lexemes, the readers read what
the grammar allows. -/
theorem nested_ready {mode : Subselects} (hmode : mode ≠ .anywhere) (limit : Nat) :
    ∀ levels k n, levels ≤ k ∨ n ≤ k + 1 → Ready (Parser.nested limit k) (phrases mode levels) n
  | 0, _, _, _ =>
    { expr := fun _ h => absurd h id
      inversion := fun _ h => absurd h id
      factor := fun _ h => absurd h id
      select := fun _ h => absurd h id
      grouped := fun _ h => absurd h id
      key := fun h => absurd h id
      bare := fun _ _ h => h
      opens := fun h => absurd h id
      selectOpens := fun h => absurd h id
      groupedOpens := fun h => absurd h id }
  | levels + 1, k, n, hk => by
    have bare : ∀ u q, ¬ (phrases mode (levels + 1)).bare u q := by
      intro u q h
      simp only [phrases, if_neg hmode] at h
      exact h
    have bare' : ∀ u q, (phrases mode levels).bare u q →
        ∃ l v, u = l :: v ∧ l.token.is (.keyword .select) = true := fun _ _ => phrases_bare_opens
    have selectOpens : ∀ {levels u q}, (phrases mode levels).select u q →
        ∃ l v, u = l :: v ∧ l.token.is (.keyword .select) = true := by
      intro levels u q h
      cases levels with
      | zero => exact absurd h id
      | succ levels => exact Phrase.select_opens h
    have grouped : ∀ {u q}, (phrases mode (levels + 1)).grouped u q →
        (phrases mode levels).select u q := by
      intro u q h
      simp only [phrases] at h
      split at h
      · exact h
      · exact absurd h id
    have hk' : ∀ {u : List Lexeme}, u ≠ [] → u.length < n →
        ∃ k', k = k' + 1 ∧ Ready (Parser.nested limit k') (phrases mode levels) (n - 1) := by
      intro u hu hn
      have := List.length_pos_iff.mpr hu
      obtain ⟨k', rfl⟩ : ∃ k', k = k' + 1 := ⟨k - 1, by omega⟩
      exact ⟨k', rfl, nested_ready hmode limit levels k' (n - 1) (by omega)⟩
    refine
      { expr := fun {u e} hn h => ?_
        inversion := fun {u e} hn h => ?_
        factor := fun {u e} hn h => ?_
        select := fun {u q} hn h => ?_
        grouped := fun {u q} hn h => ?_
        key := fun {u e} h => ?_
        bare := bare
        opens := phrases_expr_opens
        selectOpens := selectOpens
        groupedOpens := fun h => selectOpens (grouped h) }
    · obtain ⟨k', rfl, hr⟩ := hk' (Phrase.disjunction_opens bare' h).ne_nil hn
      exact Reads.disjunction hr (by omega) h
    · obtain ⟨k', rfl, hr⟩ := hk' (Phrase.inversion_opens bare' h).ne_nil hn
      exact Reads.inversion hr (by omega) h
    · obtain ⟨k', rfl, hr⟩ := hk' (Phrase.factor_opens bare' h).ne_nil hn
      exact Reads.factor hr (by omega) h
    · obtain ⟨l, v, rfl, -⟩ := Phrase.select_opens h
      obtain ⟨k', rfl, hr⟩ := hk' (by simp) hn
      exact Reads.select hr (by omega) h
    · obtain ⟨l, v, rfl, hl⟩ := selectOpens (grouped h)
      obtain ⟨k', rfl, hr⟩ := hk' (u := l :: v) (by simp) (by omega)
      exact Reads.subselect (hr.select (by omega) (grouped h)) hl
    · simp only [phrases, if_neg hmode] at h
      exact h

theorem Phrase.statement_ne_nil {mode : Subselects} {levels : Nat} {u : List Lexeme}
    {s : Statement} (h : Phrase.statement (phrases mode levels) u s) : u ≠ [] := by
  simp only [Phrase.statement, oneOf_cons, oneOf_nil, or_false] at h
  rcases h with ⟨v, w, q, rfl, hq, -⟩ | ⟨_, w, _, rfl, ⟨_, _, _, rfl, ⟨l, rfl, -⟩, -⟩, -⟩ |
    ⟨_, w, _, rfl, ⟨_, _, _, rfl, ⟨l, rfl, -⟩, -⟩, -⟩ | ⟨_, w, _, rfl, ⟨_, _, _, rfl, ⟨l, rfl, -⟩, -⟩, -⟩
  · cases levels with
    | zero => exact absurd hq id
    | succ levels =>
      obtain ⟨l, v, rfl, -⟩ := Phrase.select_opens hq
      simp
  all_goals simp

/-- A statement of the grammar is parsed, under a limit of as many levels as the grammar used, or of
as many as there are lexemes. -/
theorem parseLexemes_of_statement {mode : Subselects} (hmode : mode ≠ .anywhere)
    {levels limit : Nat} {lexemes : List Lexeme} {s : Statement}
    (h : Phrase.statement (phrases mode levels) lexemes s)
    (hl : levels ≤ limit ∨ lexemes.length ≤ limit) :
    ∃ span, parseLexemes lexemes limit = .ok (s, span) := by
  have hr := Reads.statement (nested_ready hmode limit levels limit (lexemes.length + 1)
    (by omega)) (Nat.lt_succ_self _) h
  obtain ⟨l, u, rfl⟩ := List.exists_cons_of_ne_nil (Phrase.statement_ne_nil h)
  obtain ⟨tried, he⟩ := hr [] [] l.span (by decide)
  rw [List.append_nil] at he
  refine ⟨l.span.merge (spanAfter l.span (l :: u)), ?_⟩
  show Except.map Prod.fst (Parser.statement _ ⟨l :: u, [], l.span⟩ >>= fun x => (do
    let stop ← Parser.lastSpan
    Parser.endOfInput
    return (x.1, l.span.merge stop) : Parser (Statement × Span)) x.2) = _
  rw [he]
  rfl

end LedgerQuery
