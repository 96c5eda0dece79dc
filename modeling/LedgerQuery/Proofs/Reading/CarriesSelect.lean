import LedgerQuery.Proofs.Reading.CarriesExpr
import LedgerQuery.Proofs.Reading.Excerpts

/-!
# Reading queries around a pair of parentheses

The run in parentheses is that of a target, and it is the only one with its span (`Enclosure.eq_of_span`).
So a query either holds no target without a name that has this span (`Select.Lacks`), or it is read around the
parentheses (`nested_carries`), and so is a statement.
-/

namespace LedgerQuery

open Token LedgerQuery.Parser

/-! ## The span of a run -/

/-- Lexemes at different places do not agree where they increase. -/
theorem append_cons_inj_of_lt {f : Lexeme → Nat} {x y x' y' : List Lexeme} {l l' : Lexeme}
    (hp : (x ++ l :: y).Pairwise fun l m => f l < f m) (h : x ++ l :: y = x' ++ l' :: y') (hf : f l = f l') :
    x = x' ∧ y = y' := by
  rcases List.append_eq_append_iff.mp h with ⟨z, rfl, hz⟩ | ⟨z, rfl, hz⟩
  · cases z with
    | nil => exact ⟨by simp, (List.cons.inj hz).2⟩
    | cons m z =>
      obtain ⟨rfl, rfl⟩ := List.cons.inj hz
      have := (List.pairwise_cons.mp (List.pairwise_append.mp hp).2.1).1 l' (by simp)
      omega
  · cases z with
    | nil => exact ⟨by simp, (List.cons.inj hz).2.symm⟩
    | cons m z =>
      obtain ⟨rfl, rfl⟩ := List.cons.inj hz
      have := (List.pairwise_append.mp hp).2.2 l' (by simp) l (by simp)
      omega

namespace Enclosure

/-- The span from the first lexeme of the run to its last. -/
def span (g : Enclosure) : Span := ⟨(g.run.head g.run_ne_nil).span.start, (g.run.getLast g.run_ne_nil).span.stop⟩

variable {g : Enclosure} {u rest : List Lexeme}

theorem starts_lt (g : Enclosure) : g.lexemes.Pairwise fun l m => l.span.start < m.span.start :=
  g.ordered.imp_of_mem fun hl _ h => Nat.lt_of_lt_of_le (g.nonempty _ hl) h

theorem stops_lt (g : Enclosure) : g.lexemes.Pairwise fun l m => l.span.stop < m.span.stop :=
  g.ordered.imp_of_mem fun _ hm h => Nat.lt_of_le_of_lt h (g.nonempty _ hm)

/-- Only the run has its span. -/
theorem eq_of_span (hsuffix : u ++ rest <:+ g.lexemes) {first last : Lexeme} (hfirst : first ∈ u.head?)
    (hlast : last ∈ u.getLast?) (h : first.span.merge last.span = g.span) : u = g.run ∧ rest = g.after := by
  obtain ⟨b, hb⟩ := hsuffix
  have hordered : (b ++ (u ++ rest)).Pairwise Lexeme.Before := hb ▸ g.ordered
  have hnonempty : ∀ l ∈ b ++ (u ++ rest), l.span.start < l.span.stop := hb ▸ g.nonempty
  obtain ⟨hmerge, -⟩ := merge_eq (List.pairwise_append.mp (List.pairwise_append.mp hordered).2.1).1
    (fun l hl => hnonempty l (by simp [hl])) hfirst hlast
  obtain ⟨hstart, hstop⟩ := Span.mk.inj (hmerge.symm.trans h)
  obtain ⟨v, rfl⟩ := List.head?_eq_some_iff.mp hfirst
  -- the two runs begin at the same place, and end at the same place
  have hbegin : b ++ first :: (v ++ rest) = g.before ++ g.run.head g.run_ne_nil :: (g.run.tail ++ g.after) := by
    rw [← List.cons_append, ← List.cons_append, List.cons_head_tail]
    exact hb
  obtain ⟨rfl, -⟩ := append_cons_inj_of_lt (f := fun l => l.span.start)
    (by rw [← List.cons_append, hb]; exact g.starts_lt) hbegin hstart
  obtain ⟨w, hw⟩ := List.getLast?_eq_some_iff.mp hlast
  have hrun : first :: v ++ rest = g.run ++ g.after := List.append_cancel_left hb
  have hend : w ++ last :: rest = g.run.dropLast ++ g.run.getLast g.run_ne_nil :: g.after := by
    rw [List.append_cons w, List.append_cons g.run.dropLast, List.dropLast_append_getLast, ← hw, hrun]
  obtain ⟨-, rfl⟩ := append_cons_inj_of_lt (f := fun l => l.span.stop)
    (by rw [List.append_cons, ← hw, hrun]; exact (List.pairwise_append.mp g.stops_lt).2.1) hend hstop
  exact ⟨List.append_cancel_right hrun, rfl⟩

end Enclosure

/-! ## Queries without a span -/

/-- Whether no target of a query without a name has some span. -/
def Select.Lacks (span : Span) (q : Select) : Prop :=
  ∀ ts, q.targets = .list ts → ∀ t ∈ ts, t.name = none → t.span ≠ some span

namespace Carries

variable {g : Enclosure} {P : Prop} {Q : Select → Prop} {G H : Nested}

/-! ## Keys and filters -/

section
variable (h : G.Carries g Q H)
include h

theorem columnKey : Carries g P (fun k => ∀ x ∈ k.parts, x.All (fun _ => True) Q) (Like True ColumnKey.plain)
    (Parser.columnKey G) (Parser.columnKey H) := by
  have hexpr : ∀ {P : Prop}, Carries g P (fun k => ∀ x ∈ ColumnKey.parts k, x.All (fun _ => True) Q)
      (Like True ColumnKey.plain) (do return .expr (← G.expr)) (do return .expr (← H.expr)) :=
    bind h.expr fun _ _ he => pure (.columnKey he) fun hV => by simpa [ColumnKey.parts] using hV.2
  refine fun s => .peek (Sees.columnKey h.sees s) fun hP => ?_
  split
  · next digits hn =>
    refine .look (v := fun s => s.nth 1) (fun _ => rfl) ?_ fun pre s' hpre hsuffix hs hs' => ?_
    · split
      · exact (hexpr (P := P) s).wraps hP
      · intro k t _ ht
        obtain ⟨n, s₁, -, h₂⟩ := bind_eq_ok.mp ht
        obtain ⟨rfl, -⟩ := pure_eq_ok.mp h₂
        exact .inl (by simp [ColumnKey.parts])
    · -- a target begins after no integer
      have hlen := Enclosure.two_le_length hsuffix hs hpre (by rw [hn]; exact fun _ _ => rfl)
      rw [Enclosure.nth_eq hs hs' hlen]
  · exact (hexpr (P := P) s).wraps hP

theorem entryFilter : Carries g P (fun f => ∀ x ∈ f.parts, x.All (fun _ => True) Q) (Like True EntryFilter.plain)
    (Parser.entryFilter G) (Parser.entryFilter H) := by
  refine andThen (Sees.accept _) fun b => ?_
  split
  · exact andThen Sees.openDate fun _ => andThen (Sees.after_eq _ Sees.closing) fun _ =>
      andThen (Sees.accept _) fun _ => pure (.refl _) fun _ => by simp [EntryFilter.parts]
  · refine andThen (Sees.accept _) fun b => ?_
    split
    · exact andThen Sees.closing fun _ => andThen (Sees.accept _) fun _ =>
        pure (.refl _) fun _ => by simp [EntryFilter.parts]
    · refine andThen (Sees.accept _) fun b => ?_
      split
      · exact pure (.refl _) fun _ => by simp [EntryFilter.parts]
      · exact bind h.expr fun _ _ he => andThen (Sees.after_eq _ Sees.openDate) fun o =>
          andThen (Sees.after_eq _ Sees.closing) fun c => andThen (Sees.accept _) fun b =>
          pure (.filter (.some he) o c b) fun hV => by simpa [EntryFilter.parts] using hV.2

/-! ## Clauses -/

theorem source : Carries g P (fun a => (∀ x ∈ a.parts, x.All (fun _ => True) Q) ∧
    ∀ s, a = .query s → s.All (fun _ => True) Q) (Like True Source.plain) (Parser.source G) (Parser.source H) := by
  refine fun s => .peek (Sees.source h.sees s) fun hP => ?_
  split
  · intro a t _ ht
    obtain rfl := take_ok_eq ht
    exact .inl ⟨by simp [Source.parts], by simp⟩
  · refine .look Sees.atQuery_eq ?_ fun pre s' hpre hsuffix hs hs' => ?_
    · split
      · next hb =>
        obtain ⟨hparen, -⟩ := Bool.and_eq_true_iff.mp hb
        refine (CarriesAt.andThen (P := P) (SeesAt.advance (ne_eof_of_is (nth_zero s ▸ hparen)))
          fun _ s₁ _ => ?_).wraps hP
        exact bind h.select (fun _ _ hq => andThen (Sees.expect _) fun _ =>
          pure (.query hq) fun hV => ⟨by simp [Source.parts], by simpa using hV.2⟩) s₁
      · exact (andThen (P := P) (Sees.record _) (fun _ => bind (entryFilter h) fun _ _ hf =>
          pure (.entries hf) fun hV => ⟨hV.2, by simp⟩) s).wraps hP
    · have hzero := Enclosure.nth_eq hs hs' (List.length_pos_of_ne_nil hpre)
      cases hparen : (s.nth 0).is (.symbol .leftParen) with
      | false => rw [hzero, hparen, Bool.false_and, Bool.false_and]
      | true =>
        have hlen := Enclosure.two_le_length hsuffix hs hpre (by
          rw [← nth_zero, is_symbol_iff.mp hparen]
          decide)
        rw [hzero, Enclosure.nth_eq hs hs' hlen, hparen]

theorem groupBy : Carries g P (fun b => ∀ x ∈ b.parts, x.All (fun _ => True) Q) (Like True GroupBy.plain)
    (Parser.groupBy G) (Parser.groupBy H) := by
  refine andThen (Sees.expect _) fun _ => bind (commaList (columnKey h)) fun _ _ hks =>
    bind (after h.expr) fun _ _ he => pure (.groupBy hks he) fun ⟨⟨_, hks⟩, ho⟩ x hx => ?_
  simp only [GroupBy.parts, List.mem_append, List.mem_flatMap, Option.mem_toList] at hx
  rcases hx with ⟨k, hk, hx⟩ | hx
  · exact hks k hk x hx
  · exact ho x hx

theorem orderBy : Carries g P (fun ks => ∀ k ∈ ks, ∀ x ∈ k.column.parts, x.All (fun _ => True) Q)
    (List.Forall₂ (Like True SortKey.plain)) (Parser.orderBy G) (Parser.orderBy H) :=
  andThen (Sees.expect _) fun _ => commaList <| bind (columnKey h) fun _ _ hk => andThen Sees.sortDirection fun d =>
    pure (.sortKey hk d) fun hV => hV.2

/-- The clauses of a query after its targets. -/
theorem clauses {ts ts' : Targets} (distinct : Bool) (ht : Like True Targets.plain ts ts')
    (hparts : P → ∀ x ∈ ts.parts, x.All (fun _ => True) Q)
    (hts : P → ∀ a c b o p l, Q ⟨ts, distinct, a, c, b, o, p, l⟩) :
    Carries g P (Select.All (fun _ => True) Q) (Like True Select.plain)
      (do
        let source ← Parser.after (.keyword .from) (Parser.source G)
        let condition ← Parser.after (.keyword .where) G.expr
        let groupBy ← Parser.after (.keyword .group) (Parser.groupBy G)
        let orderBy ← Parser.after (.keyword .order) (Parser.orderBy G)
        let pivotBy ← Parser.after (.keyword .pivot) Parser.pivotBy
        let limit ← Parser.after (.keyword .limit) Parser.count
        return ⟨ts, distinct, source, condition, groupBy, orderBy, pivotBy, limit⟩)
      (do
        let source ← Parser.after (.keyword .from) (Parser.source H)
        let condition ← Parser.after (.keyword .where) H.expr
        let groupBy ← Parser.after (.keyword .group) (Parser.groupBy H)
        let orderBy ← Parser.after (.keyword .order) (Parser.orderBy H)
        let pivotBy ← Parser.after (.keyword .pivot) Parser.pivotBy
        let limit ← Parser.after (.keyword .limit) Parser.count
        return ⟨ts', distinct, source, condition, groupBy, orderBy, pivotBy, limit⟩) := by
  refine bind (after (source h)) fun a _ ha => bind (after h.expr) fun c _ hc => bind (after (groupBy h)) fun b _ hb =>
    bind (after (orderBy h)) fun o _ ho => andThen (Sees.after_eq _ Sees.pivotBy) fun p =>
    andThen (Sees.after_eq _ Sees.count) fun l => pure (.select distinct p l ht ha hc hb ho) ?_
  rintro ⟨⟨⟨⟨hP, ha⟩, hc⟩, hb⟩, ho⟩
  obtain ⟨hp, hq⟩ := (Select.forall_parts (s := ⟨ts, distinct, a, c, b, o, p, l⟩)).mpr ⟨hparts hP, ha, hc, hb, ho⟩
  exact .mk (hts hP a c b o p l) hp hq

end

/-! ## Targets -/

section
variable {limit limit' n : Nat} (h : (nested limit n).Carries g (Select.Lacks g.span) (nested limit' (n + 1)))
include h

/-- A target is read around the parentheses if the run is its run, or if it holds the run. -/
theorem target_reaches : Reaches g
    (fun t => t.expr.All (fun _ => True) (Select.Lacks g.span) ∧ (t.name = none → t.span ≠ some g.span))
    (Like True Target.plain) (Parser.target (nested limit n)) (Parser.target (nested limit' (n + 1))) := by
  intro s x t hsuffix hread
  by_cases hx : x.name = none ∧ x.span = some g.span
  · obtain ⟨hname, hspan⟩ := hx
    obtain ⟨u, hs, hu⟩ := target_derived hread
    obtain ⟨-, first, hfirst, last, hlast, hmerge⟩ := Phrase.target_span hu
    obtain ⟨rfl, ht⟩ := Enclosure.eq_of_span (hs ▸ hsuffix) hfirst hlast (Option.some.inj (hmerge.symm.trans hspan))
    refine .inr ⟨[], by rw [hs, ht]; rfl, fun s' hs' => ?_⟩
    exact target_enclosed hread hname hs (ht ▸ g.ends) (ht ▸ g.arithmetic) g.left_token g.right_token
      (by rw [hs', ht]; rfl)
  · have htarget : Carries g True (fun t => t.expr.All (fun _ => True) (Select.Lacks g.span))
        (Like True Target.plain) (Parser.target (nested limit n)) (Parser.target (nested limit' (n + 1))) :=
      bind (of_sees Sees.nextSpan (V := fun _ => True) fun _ _ => trivial) fun _ _ _ => bind h.expr fun _ _ he =>
        andThen (Sees.after_eq _ Sees.name) fun name =>
        bind (of_sees Sees.lastSpan (V := fun _ => True) fun _ _ => trivial) fun _ _ _ =>
        pure (.target he name _ _) fun hV => hV.1.2
    exact ((htarget s).wraps trivial x t hsuffix hread).imp (fun hV => ⟨hV, fun hname hspan => hx ⟨hname, hspan⟩⟩)
      fun ⟨pre, _, hs, hrun⟩ => ⟨pre, hs, hrun⟩

/-- The targets of a query are read around the parentheses if one of them is, or holds the run. -/
theorem targets_reach : Reaches g
    (fun ts => (∀ x ∈ ts.parts, x.All (fun _ => True) (Select.Lacks g.span)) ∧
      ∀ items, ts = .list items → ∀ t ∈ items, t.name = none → t.span ≠ some g.span)
    (Like True Targets.plain) (Parser.targets (nested limit n)) (Parser.targets (nested limit' (n + 1))) := by
  refine .accept_bind (fun t ht => ?_) fun b => ?_
  · rw [← Bool.not_eq_true]
    intro hstar
    rw [is_symbol_iff.mp hstar] at ht
    cases ht
  · split
    · exact .pure ⟨by simp [Targets.parts], by simp⟩
    · refine .bind (Sees.commaList (Sees.target h.sees)) (.commaList (Sees.target h.sees) (target_reaches h))
        fun items _ hs => pure (.targets hs) fun hV => ⟨?_, ?_⟩
      · simpa [Targets.parts] using fun t ht => (hV t ht).1
      · rintro _ ⟨⟩ t ht
        exact (hV t ht).2

theorem selectQuery : Carries g P (Select.All (fun _ => True) (Select.Lacks g.span)) (Like True Select.plain)
    (Parser.selectQuery (nested limit n)) (Parser.selectQuery (nested limit' (n + 1))) := by
  have hclauses : ∀ (distinct : Bool) (ts ts' : Targets), Like True Targets.plain ts ts' → _ :=
    fun distinct ts ts' ht => clauses (P := (∀ x ∈ ts.parts, x.All (fun _ => True) (Select.Lacks g.span)) ∧
      ∀ items, ts = .list items → ∀ t ∈ items, t.name = none → t.span ≠ some g.span) h distinct ht
      (fun hV => hV.1) fun hV _ _ _ _ _ _ => hV.2
  refine Reaches.expect_bind (.andThen (Sees.accept _) fun d => .bind (Sees.targets h.sees) fun ts ts' ht =>
    (hclauses d ts ts' ht).sees) (.accept_bind (fun t ht => ?_) fun d => .bind (Sees.targets h.sees) (targets_reach h)
      fun ts ts' ht => hclauses d ts ts' ht)
  rw [← Bool.not_eq_true]
  intro hdistinct
  obtain ⟨written, rfl⟩ := is_keyword_iff.mp hdistinct
  cases ht

end

end Carries

/-- Readers under a limit carry the parentheses to readers that may go one level deeper. -/
theorem nested_carries (g : Enclosure) (limit limit' : Nat) : ∀ n,
    (nested limit n).Carries g (Select.Lacks g.span) (nested limit' (n + 1))
  | 0 => ⟨nested_sees True limit limit' (Nat.zero_le 1), .fail, .fail, .fail, .fail⟩
  | n + 1 =>
    have h := nested_carries g limit limit' n
    ⟨nested_sees True limit limit' (Nat.le_succ _), .disjunction h, .inversion h, .factor h, .selectQuery h⟩

/-! ## Statements -/

namespace Carries

variable {g : Enclosure} {P : Prop} {Q : Select → Prop} {G H : Nested}

theorem shorthandSource (h : G.Carries g Q H) : Carries g P (fun o => ∀ f ∈ o, ∀ x ∈ EntryFilter.parts f,
      x.All (fun _ => True) Q) (Option.Rel (Like True EntryFilter.plain)) (Parser.shorthandSource G)
    (Parser.shorthandSource H) := after (entryFilter h)

theorem balances (h : G.Carries g Q H) : Carries g P
    (fun b => Statement.All (fun _ => True) Q (.balances b))
    (fun b b' => Like True Statement.plain (.balances b) (.balances b')) (Parser.balances G) (Parser.balances H) :=
  andThen (Sees.expect _) fun _ => andThen (Sees.after_eq _ Sees.name) fun name => bind (shorthandSource h)
    fun _ _ hf => bind (after h.expr) fun _ _ hc => pure (.balances name hf hc) fun ⟨⟨_, hf⟩, hc⟩ => ⟨hf, hc⟩

theorem journal (h : G.Carries g Q H) : Carries g P
    (fun j => Statement.All (fun _ => True) Q (.journal j))
    (fun j j' => Like True Statement.plain (.journal j) (.journal j')) (Parser.journal G) (Parser.journal H) :=
  andThen (Sees.expect _) fun _ => andThen (accountPattern_takesOr.sees (Sees.pure rfl) rfl fun _ => rfl) fun account =>
    andThen (Sees.after_eq _ Sees.name) fun name => bind (shorthandSource h) fun _ _ hf =>
    pure (.journal account name hf) fun hV => hV.2

theorem print (h : G.Carries g Q H) : Carries g P
    (fun p => Statement.All (fun _ => True) Q (.print p))
    (fun p p' => Like True Statement.plain (.print p) (.print p')) (Parser.print G) (Parser.print H) :=
  andThen (Sees.expect _) fun _ => bind (shorthandSource h) fun _ _ hf => pure (.print hf) fun hV => hV.2

/-- A statement is read around the parentheses if it holds the run. -/
theorem statement (h : G.Carries g Q H) (s : Input) : WrapsAt g (Statement.All (fun _ => True) Q)
    (Like True Statement.plain) s (Parser.statement G) (Parser.statement H) := by
  refine .peek ?_
  split
  · have hselect : Carries g True (Statement.All (fun _ => True) Q) (Like True Statement.plain)
        (do return .select (← G.select)) (do return .select (← H.select)) :=
      bind h.select fun _ _ hq => pure (.statement hq) fun hV => hV.2
    exact (hselect s).wraps trivial
  · exact (bind (P := True) (balances h) (fun _ _ hb => pure hb fun hV => hV.2) s).wraps trivial
  · exact (bind (P := True) (journal h) (fun _ _ hj => pure hj fun hV => hV.2) s).wraps trivial
  · exact (bind (P := True) (print h) (fun _ _ hp => pure hp fun hV => hV.2) s).wraps trivial
  · intro a t _ hs
    obtain ⟨_, s₁, -, h₂⟩ := bind_eq_ok.mp hs
    exact absurd h₂ unexpected_ne_ok

end Carries

end LedgerQuery
