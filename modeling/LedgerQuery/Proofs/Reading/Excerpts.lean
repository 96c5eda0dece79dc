import LedgerQuery.Proofs.Limit.Threshold
import LedgerQuery.Proofs.Reading.Derived
import LedgerQuery.Proofs.Reading.Targets
import LedgerQuery.Proofs.Reading.Uniform

/-!
# The texts of spans

The text of a span can stand alone (`parseSpanned_excerpts`).  The text of the span of a statement is parsed as
this statement.  The text of the span of a target, after `SELECT`, is parsed as a query of that target alone.

A text that begins and ends with a token can be cut out of a larger text, and its tokens stay the same,
unless it begins after an operand (`Segmented.excerpt`).
-/

namespace LedgerQuery

open Token LedgerQuery.Parser

/-! ## Cutting out a text -/

section
variable {ss : List Segment} {before u after : List Lexeme}

open Segment

/-- A run of lexemes that begins after no operand can be cut out of its text, and stand alone or after
`SELECT`. -/
theorem Segmented.excerpt {source : String} (h : scan source = .ok (before ++ u ++ after)) (hu : u ≠ [])
    (hb : endsOperand before = false) : ∃ span : Span,
      (∃ first ∈ u.head?, ∃ last ∈ u.getLast?, span = ⟨first.span.start, last.span.stop⟩) ∧
      (∃ u', scan (span.text source) = .ok u' ∧ u'.map Lexeme.token = u.map Lexeme.token) ∧
      ∃ u', scan ("SELECT " ++ span.text source) = .ok u' ∧
        u'.map Lexeme.token = .keyword .select "SELECT" :: u.map Lexeme.token := by
  obtain ⟨ss, hjoin, hss, hlexemes⟩ := scanFrom_eq_ok_iff.mp (scan_ok_iff.mp h)
  obtain ⟨qs, t, us, rs, rfl, hqs, hus, -, hline, first, hfirst, last, hlast, hstart, hstop⟩ :=
    exists_eq_of_run hlexemes hu
  generalize token t :: us = us at *
  refine ⟨⟨first.span.start, last.span.stop⟩, ⟨first, hfirst, last, hlast, rfl⟩, ?_⟩
  have htext : (Span.mk first.span.start last.span.stop).text source = String.ofList (join us) := by
    have := Span.slice?_append (join qs) (join us) (join rs)
    rw [Span.text, ← hjoin, hstart, hstop, join_append, join_append, join_append, byteLength_append, this]
    rfl
  have hcut : Segmented false us [] := by
    obtain ⟨hqus, -⟩ := segmented_append.mp hss
    obtain ⟨-, hseg⟩ := segmented_append.mp hqus
    rw [foldl_operandAfter_false, hqs, hb] at hseg
    exact hseg.replace separated_nil fun hc => absurd hc hline
  have htokens : tokens us = u.map Lexeme.token := by rw [← hus, map_token_lexemes]
  rw [htext]
  refine ⟨⟨lexemes 0 us, ?_, by rw [map_token_lexemes, htokens]⟩, ?_⟩
  · exact scan_ok_iff.mpr (scanFrom_eq_ok_iff.mpr ⟨us, by simp, hcut, rfl⟩)
  · have hselect : Segmented false (token (.keyword .select "SELECT") :: trivia [' '] :: us) [] := by
      refine ⟨fits_token_iff.mpr ⟨⟨by decide, by decide⟩, nofun, Separated.apart ?_⟩, fits_trivia_iff.mpr
        (.blank (by decide)), hcut⟩
      intro d hd
      obtain rfl : ' ' = d := by simpa using hd
      decide
    refine ⟨_, scan_ok_iff.mpr (scanFrom_eq_ok_iff.mpr ⟨_, ?_, hselect, rfl⟩), ?_⟩
    · simp [Token.text]
    · rw [map_token_lexemes, tokens_token, tokens_trivia, htokens]

end

/-! ## A target alone -/

section
variable {G : Nested}

/-- At the end there are no more items. -/
theorem many_after_end {α : Type} {x : Terminal} {p : Parser α} {s : Input} (hs : s.rest = []) :
    ∃ t, Parser.many (Parser.after x p) s = .ok ([], t) ∧ t.rest = [] := by
  obtain ⟨rest, tried, last⟩ := s
  obtain rfl : rest = [] := hs
  exact ⟨_, rfl, rfl⟩

/-- At the end there are no more clauses. -/
theorem clauses_end (G : Nested) (ts : Targets) (distinct : Bool) {s : Input} (hs : s.rest = []) : ∃ t,
    (do
      let source ← Parser.after (.keyword .from) (Parser.source G)
      let condition ← Parser.after (.keyword .where) G.expr
      let groupBy ← Parser.after (.keyword .group) (Parser.groupBy G)
      let orderBy ← Parser.after (.keyword .order) (Parser.orderBy G)
      let pivotBy ← Parser.after (.keyword .pivot) Parser.pivotBy
      let limit ← Parser.after (.keyword .limit) Parser.count
      return Select.mk ts distinct source condition groupBy orderBy pivotBy limit : Parser Select) s =
        .ok (⟨ts, distinct, none, none, none, none, none, none⟩, t) ∧ t.rest = [] := by
  obtain ⟨rest, tried, last⟩ := s
  obtain rfl : rest = [] := hs
  exact ⟨_, rfl, rfl⟩

/-- A `SELECT` before a target and nothing else is a query of that target alone. -/
theorem selectQuery_alone {s : Input} {k : Lexeme} {u : List Lexeme} {E : Target → Prop}
    (hs : s.rest = k :: u) (hk : k.token.is (.keyword .select) = true)
    (hopens : (nextOf u).opensExpr = true)
    (ht : ∀ s', s'.rest = u → ∃ t s'', Parser.target G s' = .ok (t, s'') ∧ s''.rest = [] ∧ E t) :
    ∃ t s', Parser.selectQuery G s = .ok (.ofTargets (.list [t]), s') ∧ s'.rest = [] ∧ E t := by
  have miss : ∀ {x}, (nextOf u).is x = false → ∀ s, s.rest = u → ∃ t, Parser.accept x s = .ok (false, t) ∧
      t.rest = u := by
    intro x hx s hs
    obtain ⟨_, tried, last⟩ := s
    obtain rfl : _ = u := hs
    obtain ⟨tried', h⟩ := Reads.accept_miss (F := fun t => t.is x = false) (fun _ h => h) _ tried last hx
    exact ⟨_, h, rfl⟩
  have hdistinct : (nextOf u).is (.keyword .distinct) = false := by
    generalize nextOf u = t at hopens
    cases t with
    | keyword k _ => cases k <;> first | rfl | cases hopens
    | _ => rfl
  have hstar : (nextOf u).is (.symbol .star) = false := by
    generalize nextOf u = t at hopens
    cases t with
    | symbol x => cases x <;> first | rfl | cases hopens
    | _ => rfl
  obtain ⟨_, tried, last⟩ := s
  obtain rfl : _ = k :: u := hs
  obtain ⟨tried', h₁⟩ := Reads.expect (F := fun _ => True) hk u tried last trivial
  obtain ⟨s₂, h₂, hs₂⟩ := miss hdistinct ⟨u, tried', spanAfter last [k]⟩ rfl
  obtain ⟨s₃, h₃, hs₃⟩ := miss hstar s₂ hs₂
  obtain ⟨t, s₄, h₄, hs₄, hE⟩ := ht s₃ hs₃
  obtain ⟨s₅, h₅, hs₅⟩ := many_after_end (x := .symbol .comma) (p := Parser.target G) hs₄
  obtain ⟨s₆, h₆, hs₆⟩ := clauses_end G (.list [t]) false hs₅
  have htargets : Parser.targets G s₂ = .ok (.list [t], s₅) :=
    bind_eq_ok.mpr ⟨false, s₃, h₃, bind_eq_ok.mpr ⟨[t], s₅, bind_eq_ok.mpr ⟨t, s₄, h₄,
      bind_eq_ok.mpr ⟨[], s₅, h₅, rfl⟩⟩, rfl⟩⟩
  exact ⟨t, s₆, bind_eq_ok.mpr ⟨(), _, h₁, bind_eq_ok.mpr ⟨false, s₂, h₂, bind_eq_ok.mpr ⟨_, s₅, htargets, h₆⟩⟩⟩,
    hs₆, hE⟩

end

section
variable {limit : Nat} {before u after : List Lexeme} {t : Target}

/-- A target that is read is one of the grammar, with subselects anywhere. -/
theorem target_derived {n : Nat} {s s' : Input} (h : Parser.target (nested limit n) s = .ok (t, s')) :
    ∃ u, s.rest = u ++ s'.rest ∧ Phrase.target (phrases .anywhere n) u t := by
  have hsound := nested_sound limit invariant_true (Q := Never) (.inl ⟨rfl, rfl⟩) n
  obtain ⟨u, m, -, hu⟩ := (Finds.target invariant_true hsound).exact trivial h
  exact ⟨u, m.rest, hu⟩

/-- How a target was read from its run. -/
theorem Target.StandsAt.derived (h : t.StandsAt limit before u after) :
    ∃ n, Phrase.target (phrases .anywhere n) u t := by
  obtain ⟨n, -, s, s', hread, hs, hs'⟩ := h.read
  obtain ⟨u', hu', hderived⟩ := target_derived hread
  rw [hu', hs'] at hs
  obtain rfl := List.append_cancel_right hs
  exact ⟨n, hderived⟩

/-- The span of a target is that of its run, and an expression begins there. -/
theorem Phrase.target_span {n : Nat} (h : Phrase.target (phrases .anywhere n) u t) : (nextOf u).opensExpr = true ∧
    ∃ first ∈ u.head?, ∃ last ∈ u.getLast?, t.span = some (first.span.merge last.span) := by
  obtain ⟨x, y, ⟨⟨e, name⟩, span⟩, rfl, ⟨⟨v, w, e', rfl, hv, hw⟩, first, hfirst, last, hlast, rfl⟩, rfl, rfl⟩ := h
  obtain ⟨l, v', rfl, hl, -⟩ := phrases_expr_opens hv
  rw [List.append_nil]
  exact ⟨hl, first, hfirst, last, hlast, rfl⟩

theorem Target.StandsAt.span_eq (h : t.StandsAt limit before u after) : (nextOf u).opensExpr = true ∧
    ∃ first ∈ u.head?, ∃ last ∈ u.getLast?, t.span = some (first.span.merge last.span) := by
  obtain ⟨n, hn⟩ := h.derived
  exact Phrase.target_span hn

/-- A target alone, after `SELECT`. -/
theorem Target.StandsAt.parse (h : t.StandsAt limit before u after) {lexemes : List Lexeme} {written : String}
    (hl : lexemes.map Lexeme.token = .keyword .select written :: u.map Lexeme.token) :
    ∃ q span, parseLexemes lexemes limit = .ok (.select q, span) ∧
      (Statement.select q).Same (.select (.ofTargets (.list [t]))) := by
  obtain ⟨k, u', rfl, hk, hu'⟩ := List.map_eq_cons_iff.mp hl
  obtain ⟨hopens, -⟩ := h.span_eq
  have hends := h.ends
  obtain ⟨n, hn, s, s', hread, hs, rfl⟩ := h.read
  obtain ⟨m, rfl⟩ : ∃ m, limit = m + 1 := ⟨limit - 1, by omega⟩
  have hsees := Sees.target (nested_sees True (m + 1) (m + 1) (Nat.le_of_lt_succ hn))
  have hnext : nextOf u' = nextOf u := by
    have hne : u ≠ [] := by
      rintro rfl
      cases hopens
    have h : nextOf (u' ++ []) = nextOf (u ++ []) := nextOf_append_of_map_eq hu' hne
    simpa using h
  -- the target is read the same where nothing follows, since nothing dangles after it
  obtain ⟨t', s₁, hq, hs₁, ht'⟩ := selectQuery_alone (E := fun t' => Like True Target.plain t t')
    (G := nested (m + 1) m) (s := Input.start (k :: u')) rfl (is_keyword_iff.mpr ⟨written, hk⟩) (hnext ▸ hopens)
    fun s₁ hs₁ => (hsees s t s' hread).2 s₁ [] ⟨u, u', hs, by simpa using hs₁, hu'⟩ (.inr ⟨.inl rfl, fun _ hd => hends (.inl hd)⟩)
  have hstatement : Parser.statement (nested (m + 1) (m + 1)) (Input.start (k :: u')) =
      .ok (.select (.ofTargets (.list [t'])), s₁) := by
    unfold Parser.statement
    rw [Parser.peek_bind, show nextOf (Input.start (k :: u')).rest = .keyword .select written from hk]
    exact bind_eq_ok.mpr ⟨_, s₁, hq, rfl⟩
  obtain ⟨span, hparse⟩ := parseLexemes_of_statement_ok hstatement (by rw [hs₁]; rfl)
  refine ⟨_, span, hparse, ?_⟩
  have hlist : Like True Targets.plain (.list [t]) (.list [t']) := .targets (.cons ht' .nil)
  have hselect := Like.select false none none hlist .none .none .none .none
  exact congrArg Statement.select (hselect trivial).symm

end

/-! ## What is said of spans -/

/-- Whether the text of the span of a target, after `SELECT`, is parsed as a query of this target and nothing
else. -/
def Target.Excerpted (source : String) (limit : Nat) (t : Target) : Prop :=
  ∃ span q, t.span = some span ∧ parse ("SELECT " ++ span.text source) limit = .ok (.select q) ∧
    (Statement.select q).Same (.select (.ofTargets (.list [t])))

/-- Whether the span of a target lies before that of another one, with a comma and no other token
between. -/
def Target.CommaBefore (lexemes : List Lexeme) (t t' : Target) : Prop :=
  ∃ span span' comma, t.span = some span ∧ t'.span = some span' ∧ span.start < span.stop ∧
    span.stop ≤ span'.start ∧ span'.start < span'.stop ∧ comma.token = .symbol .comma ∧
    lexemes.filter (fun l => span.stop ≤ l.span.start ∧ l.span.stop ≤ span'.start) = [comma]

/-- Whether the spans of the targets of a query do as they should: their texts stand for the targets, and
one comma is between two of them. -/
def Select.Excerpted (source : String) (lexemes : List Lexeme) (limit : Nat) (q : Select) : Prop :=
  ∀ ts, q.targets = .list ts → (∀ t ∈ ts, t.Excerpted source limit) ∧ ts.IsChain (Target.CommaBefore lexemes)

/-! ## Spans of runs -/

section
variable {source : String} {limit : Nat} {lexemes before u u' after rest : List Lexeme} {t t' : Target}
  {ts : List Target}

/-- The spans of the lexemes of a text are apart, in order and not empty. -/
theorem scan_ordered (h : scan source = .ok lexemes) :
    lexemes.Pairwise Lexeme.Before ∧ ∀ l ∈ lexemes, l.span.start < l.span.stop := by
  obtain ⟨ss, hjoin, hss, rfl⟩ := scanFrom_eq_ok_iff.mp (scan_ok_iff.mp h)
  obtain ⟨hpair, -⟩ := lexemes_pairwise (Eq.refl (0 + byteLength (Segment.join ss)))
  refine ⟨(List.pairwise_append.mp hpair).1, fun l hl => ?_⟩
  obtain ⟨x, y, hxy⟩ := List.append_of_mem hl
  obtain ⟨qs, token, rs, rfl, -, rfl, -⟩ := exists_eq_of_lexemes hxy
  simpa using hss.tiled.nonempty

/-- The first lexeme of a run begins no later than the others, and the last one ends no earlier. -/
theorem merge_eq (hp : u.Pairwise Lexeme.Before) (hn : ∀ l ∈ u, l.span.start < l.span.stop) {first last : Lexeme}
    (hfirst : first ∈ u.head?) (hlast : last ∈ u.getLast?) :
    first.span.merge last.span = ⟨first.span.start, last.span.stop⟩ ∧ first.span.start < last.span.stop := by
  obtain ⟨v, rfl⟩ := List.head?_eq_some_iff.mp hfirst
  have hle : first.span.start ≤ last.span.start ∧ first.span.stop ≤ last.span.stop := by
    rcases List.eq_nil_or_concat v with rfl | ⟨v, m, rfl⟩
    · obtain rfl : first = last := by simpa using hlast
      exact ⟨Nat.le_refl _, Nat.le_refl _⟩
    · obtain rfl : m = last := by simpa [List.getLast?_cons] using hlast
      have hbefore : first.span.stop ≤ m.span.start := (List.pairwise_cons.mp hp).1 m (by simp)
      have := hn first (by simp)
      have := hn m (by simp)
      omega
  have := hn first (by simp)
  exact ⟨by rw [Span.merge, Nat.min_eq_left hle.1, Nat.max_eq_right hle.2], by omega⟩

/-- The span of a target is from its first token to its last. -/
theorem Target.StandsAt.span_of_scan (h : t.StandsAt limit before u after)
    (hscan : scan source = .ok (before ++ u ++ after)) : u ≠ [] ∧ ∃ first ∈ u.head?, ∃ last ∈ u.getLast?,
      t.span = some ⟨first.span.start, last.span.stop⟩ ∧ first.span.start < last.span.stop := by
  obtain ⟨hopens, first, hfirst, last, hlast, hspan⟩ := h.span_eq
  obtain ⟨hpair, hnonempty⟩ := scan_ordered hscan
  obtain ⟨hmerge, hlt⟩ := merge_eq (List.pairwise_append.mp (List.pairwise_append.mp hpair).1).2.1
    (fun l hl => hnonempty l (by simp [hl])) hfirst hlast
  refine ⟨?_, first, hfirst, last, hlast, hmerge ▸ hspan, hlt⟩
  rintro rfl
  cases hopens

/-- The text of the span of a target stands for the target. -/
theorem Target.StandsAt.excerpted (hscan : scan source = .ok lexemes) (hl : lexemes = before ++ u ++ after)
    (h : t.StandsAt limit before u after) : t.Excerpted source limit := by
  subst hl
  obtain ⟨hne, first, hfirst, last, hlast, hspan, -⟩ := h.span_of_scan hscan
  obtain ⟨span, ⟨first', hfirst', last', hlast', rfl⟩, -, u', hu', htokens⟩ :=
    Segmented.excerpt hscan hne h.opens.endsOperand_eq
  obtain rfl := Option.mem_unique hfirst hfirst'
  obtain rfl := Option.mem_unique hlast hlast'
  obtain ⟨q, span, hq, hsame⟩ := h.parse htokens
  exact ⟨_, q, hspan, (parse_eq_ok_iff hu').mpr ⟨span, hq⟩, hsame⟩

/-- Between two targets with a comma between their runs there is this comma and no other token. -/
theorem Target.StandsAt.commaBefore (hscan : scan source = .ok lexemes) {comma : Lexeme}
    (hl : lexemes = before ++ u ++ comma :: (u' ++ after)) (hc : comma.token.is (.symbol .comma) = true)
    (h : t.StandsAt limit before u (comma :: (u' ++ after)))
    (h' : t'.StandsAt limit (before ++ u ++ [comma]) u' after) : t.CommaBefore lexemes t' := by
  obtain ⟨-, first, hfirst, last, hlast, hspan, hlt⟩ := h.span_of_scan (by rw [hscan, hl])
  obtain ⟨-, first', hfirst', last', hlast', hspan', hlt'⟩ := h'.span_of_scan (by rw [hscan, hl]; simp)
  obtain ⟨hpair, hnonempty⟩ := scan_ordered hscan
  obtain ⟨x, rfl⟩ : ∃ x, u = x ++ [last] := List.getLast?_eq_some_iff.mp hlast
  obtain ⟨y, rfl⟩ := List.head?_eq_some_iff.mp hfirst'
  have hl : lexemes = before ++ x ++ last :: comma :: first' :: (y ++ after) := by simpa using hl
  rw [hl] at hpair hnonempty
  simp only [List.pairwise_append, List.pairwise_cons, List.mem_cons, forall_eq_or_imp, Lexeme.Before] at hpair
  obtain ⟨-, ⟨⟨hcomma, -⟩, ⟨hfirst', -⟩, hafter, -⟩, hbefore⟩ := hpair
  have hcn := hnonempty comma (by simp)
  have hln := hnonempty last (by simp)
  have hfn := hnonempty first' (by simp)
  refine ⟨_, _, comma, hspan, hspan', hlt, by simp only; omega, hlt', is_symbol_iff.mp hc, ?_⟩
  have hx : (before ++ x).filter (fun l => last.span.stop ≤ l.span.start ∧ l.span.stop ≤ first'.span.start) = [] := by
    refine List.filter_eq_nil_iff.mpr fun l hm => ?_
    have := (hbefore l hm).1
    have := hnonempty l (List.mem_append_left _ hm)
    simp only [decide_eq_true_eq, not_and]
    omega
  have hy : (y ++ after).filter (fun l => last.span.stop ≤ l.span.start ∧ l.span.stop ≤ first'.span.start) = [] := by
    refine List.filter_eq_nil_iff.mpr fun l hm => ?_
    have := hafter l hm
    have := hnonempty l (List.mem_append_right _ (by simp [List.mem_append.mp hm]))
    simp only [decide_eq_true_eq, not_and]
    omega
  rw [hl, List.filter_append, hx, List.filter_cons_of_neg (by simp; omega), List.filter_cons_of_pos (by simp; omega),
    List.filter_cons_of_neg (by simp; omega), hy, List.nil_append]

/-- Targets that were read with commas between have texts that stand for them, and one comma is between two of
them. -/
theorem TargetsAt.excerpted (hscan : scan source = .ok lexemes) (h : TargetsAt limit before ts rest)
    (hl : lexemes = before ++ rest) :
    (∀ t ∈ ts, t.Excerpted source limit) ∧ ts.IsChain (Target.CommaBefore lexemes) := by
  induction h with
  | last h =>
    refine ⟨fun t ht => ?_, List.isChain_singleton _⟩
    obtain rfl := List.mem_singleton.mp ht
    exact h.excerpted hscan (by simpa using hl)
  | @cons before u rest t ts comma h hc hs ih =>
    obtain ⟨hall, hchain⟩ := ih (by simpa using hl)
    refine ⟨List.forall_mem_cons.mpr ⟨h.excerpted hscan (by simpa using hl), hall⟩, ?_⟩
    cases hs with
    | last h' => exact List.isChain_cons_cons.mpr ⟨h.commaBefore hscan (by simpa using hl) hc h', hchain⟩
    | cons h' _ _ => exact List.isChain_cons_cons.mpr ⟨h.commaBefore hscan (by simpa using hl) hc h', hchain⟩

end

/-! ## Whole texts -/

section
variable {p p' : Expr → Prop} {q q' : Select → Prop}

theorem all_imp (hp : ∀ e, p e → p' e) (hq : ∀ s, q s → q' s) :
    (∀ e : Expr, e.All p q → e.All p' q') ∧ ∀ s : Select, s.All p q → s.All p' q' := by
  refine Inductive.all ⟨fun e hparts hsub h => ?_, fun s hparts hsource h => ?_⟩
  · obtain ⟨h₁, h₂, h₃⟩ := Expr.all_iff.mp h
    exact .mk (hp e h₁) (fun x hx => hparts x hx (h₂ x hx)) fun s hs => hsub s hs (h₃ s hs)
  · obtain ⟨h₁, h₂, h₃⟩ := Select.all_iff.mp h
    exact .mk (hq s h₁) (fun x hx => hparts x hx (h₂ x hx)) fun s' hs => hsource s' hs (h₃ s' hs)

theorem Statement.All.imp {t : Statement} (h : t.All p q) (hp : ∀ e, p e → p' e) (hq : ∀ s, q s → q' s) :
    t.All p' q' := by
  obtain ⟨he, hs⟩ := all_imp hp hq
  cases t with
  | select s => exact hs s h
  | balances b => exact ⟨fun f hf x hx => he x (h.1 f hf x hx), fun x hx => he x (h.2 x hx)⟩
  | journal j => exact fun f hf x hx => he x (h f hf x hx)
  | print pr => exact fun f hf x hx => he x (h f hf x hx)

end

section
variable {source : String} {lexemes : List Lexeme} {limit : Nat} {t : Statement} {span : Span}

/-- The span of a statement is that of all lexemes. -/
theorem span_of_parseLexemes (heof : ∀ l ∈ lexemes, l.token ≠ .eof)
    (h : parseLexemes lexemes limit = .ok (t, span)) :
    ∃ first ∈ lexemes.head?, ∃ last ∈ lexemes.getLast?, span = first.span.merge last.span := by
  obtain ⟨⟨_, s⟩, hw, ⟨⟩⟩ : ∃ r, Parser.wholeText (nested limit limit) (Input.start lexemes) = .ok r ∧
      r.1 = (t, span) := by
    unfold parseLexemes at h
    cases hw : Parser.wholeText (nested limit limit) (Input.start lexemes) with
    | error stop => simp [hw, Except.map] at h
    | ok r => exact ⟨r, rfl, by simpa [hw, Except.map] using h⟩
  obtain ⟨start, s₀, h₀, hs₀⟩ := bind_eq_ok.mp hw
  obtain ⟨rfl, rfl⟩ := Prod.mk.inj (Except.ok.inj (show Except.ok (_, Input.start lexemes) = _ from h₀))
  obtain ⟨a, s₁, h₁, hs₁⟩ := bind_eq_ok.mp hs₀
  obtain ⟨stop, s₂, h₂, hs₂⟩ := bind_eq_ok.mp hs₁
  obtain ⟨rfl, rfl⟩ := Prod.mk.inj (Except.ok.inj (show Except.ok (s₁.last, s₁) = _ from h₂))
  obtain ⟨_, s₃, h₃, hs₃⟩ := bind_eq_ok.mp hs₂
  obtain ⟨hspan, -⟩ := pure_eq_ok.mp hs₃
  obtain ⟨-, rfl⟩ := Prod.mk.inj hspan
  have hsound := nested_sound limit invariant_true (Q := Never) (.inl ⟨rfl, rfl⟩) limit
  obtain ⟨u, m, -, -⟩ := (Finds.statement hsound invariant_true hsound fun _ _ => id).exact
    ⟨fun _ => trivial, fun _ _ _ _ => trivial⟩ h₁
  have hrest : s₁.rest = [] := by
    cases hr : s₁.rest with
    | nil => rfl
    | cons l rest =>
      have hl : l ∈ lexemes := by
        rw [show lexemes = u ++ s₁.rest from m.rest, hr]
        simp
      unfold Parser.endOfInput at h₃
      rw [Parser.peek_bind] at h₃
      cases he : nextOf s₁.rest with
      | eof => exact absurd (by simpa [hr] using he) (heof l hl)
      | _ =>
        rw [he] at h₃
        exact absurd h₃ missing_ne_ok
  have hu : lexemes = u := by simpa [hrest, Input.start] using m.rest
  have hne : lexemes ≠ [] := by
    rintro rfl
    cases h₁
  obtain ⟨first, v, hv⟩ := List.exists_cons_of_ne_nil hne
  obtain ⟨last, hlast, hspan⟩ := spanAfter_eq_getLast? (Input.start lexemes).last hne
  refine ⟨first, by simp [hv], last, hlast, ?_⟩
  rw [m.last, ← hu, hspan]
  simp [Input.start, hv]

end

/-- The text of the span of a statement stands for the statement, and the texts of the spans of all targets in
it stand for the targets, with one comma between two of them. -/
theorem parseSpanned_excerpts {source : String} {limit : Nat} {t : Statement} {span : Span}
    (h : parseSpanned source limit = .ok (t, span)) : ∃ lexemes,
      tokenize source = .ok (lexemes ++ [⟨.eof, endOfText source⟩]) ∧
      (∃ first ∈ lexemes.head?, ∃ last ∈ lexemes.getLast?, span = ⟨first.span.start, last.span.stop⟩) ∧
      (∃ t', parse (span.text source) limit = .ok t' ∧ t'.Same t) ∧
      t.All (fun _ => True) (Select.Excerpted source lexemes limit) := by
  cases hscan : scan source with
  | error e => simp [parseSpanned, hscan, bind, Except.bind] at h
  | ok lexemes =>
    have hparsed : parseLexemes lexemes limit = .ok (t, span) := by
      rw [parseSpanned_eq hscan] at h
      cases hp : parseLexemes lexemes limit with
      | error stop =>
        rw [hp] at h
        cases h
      | ok r =>
        rw [hp] at h
        exact congrArg Except.ok (Except.ok.inj h)
    refine ⟨lexemes, by rw [tokenize, hscan]; rfl, ?_⟩
    obtain ⟨first, hfirst, last, hlast, rfl⟩ :=
      span_of_parseLexemes (fun l hl => (scan_legal hscan l hl).ne_eof) hparsed
    obtain ⟨hpair, hnonempty⟩ := scan_ordered hscan
    obtain ⟨hmerge, -⟩ := merge_eq hpair hnonempty hfirst hlast
    have hne : lexemes ≠ [] := by
      rintro rfl
      cases hfirst
    have hrun : scan source = .ok ([] ++ lexemes ++ []) := by simpa using hscan
    obtain ⟨span, ⟨first', hfirst', last', hlast', rfl⟩, ⟨u', hu', htokens⟩, -⟩ :=
      Segmented.excerpt hrun hne rfl
    obtain rfl := Option.mem_unique hfirst hfirst'
    obtain rfl := Option.mem_unique hlast hlast'
    rw [hmerge]
    refine ⟨⟨first, hfirst, last, hlast, rfl⟩, ?_, ?_⟩
    · have halike := parseLexemes_alike limit htokens
      rw [hparsed] at halike
      generalize hr : parseLexemes u' limit = r at halike
      cases halike with
      | ok hsame => exact ⟨_, (parse_eq_ok_iff hu').mpr ⟨_, hr⟩, hsame⟩
    · refine (located_of_parseLexemes hparsed).imp (fun _ => id) fun q hq ts hts => ?_
      obtain ⟨before, rest, hl, hat⟩ := hq ts hts
      exact hat.excerpted hscan hl

/-- A subselect without parentheses, a target with an alias and one that begins with a placeholder. -/
theorem parseSpanned_excerpts_subselect :
    let source := "SELECT SELECT 1 AS x , %s GROUP BY 2"
    let t : Statement := .select (.ofTargets (.list [⟨.subselect ⟨.list [⟨.literal (.integer 1), some "x",
      some ⟨14, 20⟩⟩, ⟨.placeholder .positional, none, some ⟨23, 25⟩⟩], false, none, none,
      some ⟨[.index 2], none⟩, none, none, none⟩, none, some ⟨7, 36⟩⟩]))
    parseSpanned source 4 = .ok (t, ⟨0, 36⟩) ∧ ∃ lexemes,
      tokenize source = .ok (lexemes ++ [⟨.eof, endOfText source⟩]) ∧
      (∃ first ∈ lexemes.head?, ∃ last ∈ lexemes.getLast?, ⟨0, 36⟩ = Span.mk first.span.start last.span.stop) ∧
      (∃ t', parse (Span.text ⟨0, 36⟩ source) 4 = .ok t' ∧ t'.Same t) ∧
      t.All (fun _ => True) (Select.Excerpted source lexemes 4) := by
  intro source t
  have h : parseSpanned source 4 = .ok (t, ⟨0, 36⟩) := by cbv
  exact ⟨h, parseSpanned_excerpts h⟩

end LedgerQuery
