import LedgerQuery.Proofs.Reading.HeedsExpr

/-!
# What was tried in queries would have been read

The readers of clauses read what they tried in vain.  Two of them look at the token after a key, and refuse a
sample for what stands before it (`Stop.Refuses`).  A comma after the second key of a pivot is one too many.  And
a connective after an integer makes the key an expression, in which fewer integers are in range than among
targets (`Nested.MeetsIntegers`).

Then the same holds of all readers under a limit and readers that may go deeper (`nested_heeds`).
-/

namespace LedgerQuery

open Token LedgerQuery.Parser

deriving instance Nonempty for ColumnKey, SortKey, GroupBy, Source, Targets, Target, EntryFilter, Balances, Journal,
  Print

/-- Whether readers of expressions take an integer as they should. -/
structure Nested.MeetsIntegers (H : Nested) : Prop where
  /-- An integer that is too large is refused. -/
  refuses : ∀ {s : Input} {digits f}, nextOf s.rest = .integer digits → integerOf digits = .error f →
    H.expr s = .error ⟨f, s.rest⟩
  /-- An integer in range is read, if what follows does not go on with it. -/
  alone : ∀ {s : Input} {l m digits n}, s.rest = [l, m] → l.token = .integer digits → integerOf digits = .ok n →
    m.token.continuesExpression = false → ∃ e t, H.expr s = .ok (e, t) ∧ t.rest = [m]
  /-- A sample that follows an integer in range is read, or else left. -/
  heeds : ∀ {s : Input} {l m digits n}, s.rest = [l, m] → l.token = .integer digits → integerOf digits = .ok n →
    m.token.IsSample → Halts (H.expr s) → ∃ e t, H.expr s = .ok (e, t) ∧ t.rest = [m]

variable {α β : Type} {s : Input} {l m : Lexeme} {rest : List Lexeme}

/-- What has moved to a reader goes on there before the same token. -/
theorem SeesAt.of_moved {w : Prop} {E : α → β → Prop} {p p₁ : Parser α} {q q₁ : Parser β} (h : SeesAt w E s p₁ q₁)
    (hp : p s = p₁ s) (hmoved : ∀ a t, p₁ s = .ok (a, t) → t.rest ≠ s.rest)
    (hq : ∀ s' : Input, nextOf s'.rest = nextOf s.rest → q s' = q₁ s') : SeesAt w E s p q := by
  intro a t ht
  rw [hp] at ht
  obtain ⟨hu, hrun⟩ := h a t ht
  refine ⟨hu, fun s' rest' hb hr => ?_⟩
  rw [hq s' (hb.next (hmoved a t ht).symm)]
  exact hrun s' rest' hb hr

/-! ## Keys -/

namespace Heeds

section
variable {G H : Nested} (h : G.Heeds H) (hH : H.MeetsIntegers)
include h

/-- A key that is an expression. -/
theorem expressionKey : Heeds Whatever (do return ColumnKey.expr (← G.expr) : Parser ColumnKey)
    (do return ColumnKey.expr (← H.expr)) := bind h.expr fun _ _ => pure trivial

omit h in
/-- An integer alone is read. -/
theorem columnKey_sample (K : Nested) {digits : String} (hs : s.rest = [l]) (hl : l.token = .integer digits)
    (hsample : l.token.IsSample) : leftOf (Parser.columnKey K s) = [] := by
  obtain ⟨n, hn⟩ := countOf_of_isSample (hl ▸ hsample)
  rw [columnKey_index K hs hl hn rfl]
  rfl

omit h in
/-- A sample that is next makes no difference to a key that is an expression, unless it is an integer and read. -/
theorem columnKey_first {k : Lexeme} (hs : s.rest = [k]) (hk : k.token.IsSample)
    (hhalts : Halts (Parser.columnKey H s)) :
    Parser.columnKey H s = (do return ColumnKey.expr (← H.expr) : Parser ColumnKey) s := by
  refine Sees.columnKey_other H fun digits hd => ?_
  rw [hs] at hd
  exact hhalts.left (columnKey_sample H hs hd hk)

/-- A key that begins with an integer is in range of expressions, if more than nothing of it is read as one. -/
theorem integerOf_of_moved {digits : String} {f : Fault} (hn : nextOf s.rest = .integer digits)
    (hi : integerOf digits = .error f) :
    leftOf ((do return ColumnKey.expr (← G.expr) : Parser ColumnKey) s) = s.rest := by
  obtain ⟨stop, hstop, hrest, -⟩ := h.refuses s f (by
    rw [hn]
    show some (Literal.integer <$> integerOf digits) = _
    rw [hi]
    rfl)
  rw [bind_of_error hstop]
  exact hrest

include hH

/-- After an integer that something goes on with, the key is an expression.  Before something else it would be the
number of a target. -/
theorem columnKey_continued {digits : String} (hs : s.rest = l :: rest) (hl : l.token = .integer digits)
    (hc : (nextOf rest).continuesExpression = true) :
    HeedsAt Whatever s (Parser.columnKey G) (Parser.columnKey H) := by
  obtain ⟨u, hu, hrun⟩ := (expressionKey h).heeds s
  rw [HeedsAt, columnKey_expression G hs hl hc]
  refine ⟨u, hu, fun s' v k hs' hv hk hhalts => ?_⟩
  rcases v with _ | ⟨l', _ | ⟨m', v⟩⟩
  · have hq := columnKey_first hs' hk hhalts
    rw [hq] at hhalts ⊢
    exact hrun s' [] k hs' hv hk hhalts
  · obtain ⟨l₀, rfl, hl₀⟩ := List.map_eq_singleton_iff.mp hv.symm
    obtain rfl : l = l₀ := (List.cons.inj (hs.symm.trans hu)).1
    have hl' := hl₀.symm.trans hl
    cases hck : k.token.continuesExpression with
    | true =>
      rw [columnKey_expression H hs' hl' hck] at hhalts ⊢
      exact hrun s' [l'] k hs' hv hk hhalts
    | false =>
      cases hi : integerOf digits with
      | error f =>
        rw [integerOf_of_moved h (by rw [hs]; exact hl) hi] at hu
        exact absurd (congrArg List.length hu) (by simp)
      | ok n =>
        obtain ⟨c, hcount⟩ := countOf_of_integerOf hi
        obtain ⟨e, t, he, ht⟩ := hH.alone hs' hl' hi hck
        have hq : Halts ((do return ColumnKey.expr (← H.expr) : Parser ColumnKey) s') := by
          rw [bind_of_ok he]
          exact ⟨by rw [show leftOf _ = t.rest from rfl, ht]; simp, fun _ he => by cases he⟩
        refine ⟨(hrun s' [l'] k hs' hv hk hq).1, fun _ _ _ => ?_⟩
        exact ⟨_, _, columnKey_index H hs' hl' hcount hck, rfl, trivial⟩
  · obtain ⟨l₀, u, rfl, hl₀, hu'⟩ := List.map_eq_cons_iff.mp hv.symm
    obtain ⟨m, u, rfl, hm, -⟩ := List.map_eq_cons_iff.mp hu'
    obtain ⟨rfl, hrest⟩ := List.cons.inj (hs.symm.trans hu)
    have hc' : m'.token.continuesExpression = true := by
      rw [← hm]
      rwa [hrest] at hc
    rw [columnKey_expression H hs' (hl₀.symm.trans hl) hc'] at hhalts ⊢
    exact hrun s' _ k hs' hv hk hhalts

omit h in
/-- After an integer that nothing goes on with, the key is the number of a target.  Before a sample that goes on with
it, it would be an expression. -/
theorem columnKey_ended {digits : String} (hs : s.rest = l :: rest) (hl : l.token = .integer digits)
    (hc : (nextOf rest).continuesExpression = false) :
    HeedsAt Whatever s (Parser.columnKey G) (Parser.columnKey H) := by
  cases hcount : countOf digits with
  | error f =>
    refine .of_error ⟨f, s.rest⟩ ?_ ⟨[], rfl⟩ (countOf_items hcount)
    rw [Sees.columnKey_integer G (show nextOf s.rest = .integer digits by rw [hs]; exact hl), if_neg (by rw [nth_one, hs]; simp [hc]),
      hcount]
    rfl
  | ok c =>
    rw [HeedsAt, columnKey_index G hs hl hcount hc]
    refine ⟨[l], hs, fun s' v k hs' hv hk hhalts => ⟨fun e (he : e ∈ []) _ => absurd he List.not_mem_nil, fun _ _ _ => ?_⟩⟩
    obtain ⟨l', rfl, hl₀⟩ := List.map_eq_singleton_iff.mp hv
    have hl' := hl₀.trans hl
    cases hck : k.token.continuesExpression with
    | false => exact ⟨_, _, columnKey_index H hs' hl' hcount hck, rfl, trivial⟩
    | true =>
      rw [columnKey_expression H hs' hl' hck] at hhalts ⊢
      cases hi : integerOf digits with
      | error f =>
        have hrefused := hH.refuses (s := s') (by rw [hs']; exact hl') hi
        obtain rfl := integerOf_eq_error hi
        rw [hs'] at hrefused
        exact absurd (.number hl' ⟨c, hcount⟩ hck) (hhalts.accepts _ (bind_of_error hrefused))
      | ok n =>
        obtain ⟨e, t, he, ht⟩ := hH.heeds hs' hl' hi hk (hhalts.of_bind fun _ => .pure _)
        exact ⟨_, t, bind_of_ok he, ht, trivial⟩

theorem columnKey : Heeds Whatever (Parser.columnKey G) (Parser.columnKey H) where
  sees := (Sees.columnKey h.sees).mono fun _ _ _ => trivial
  tidy := .columnKey h.deeper
  heeds s := by
    by_cases hn : ∃ digits, nextOf s.rest = .integer digits
    · obtain ⟨digits, hn⟩ := hn
      obtain ⟨l, rest, hs, hn⟩ := exists_cons_of_next hn (by simp)
      cases hc : (nextOf rest).continuesExpression with
      | true => exact columnKey_continued h hH hs hn hc
      | false => exact columnKey_ended hH hs hn hc
    · have hother : ∀ digits, nextOf s.rest ≠ .integer digits := fun digits hd => hn ⟨digits, hd⟩
      obtain ⟨u, hu, hrun⟩ := (expressionKey h).heeds s
      rw [HeedsAt, Sees.columnKey_other G hother]
      refine ⟨u, hu, fun s' v k hs' hv hk hhalts => ?_⟩
      have hq : Parser.columnKey H s' = (do return ColumnKey.expr (← H.expr) : Parser ColumnKey) s' := by
        rcases v with _ | ⟨l', v⟩
        · exact columnKey_first hs' hk hhalts
        · refine Sees.columnKey_other H fun digits hd => hother digits ?_
          rw [← hd, hs', hu]
          exact nextOf_append_of_map_eq hv.symm (List.cons_ne_nil _ _)
      rw [hq] at hhalts ⊢
      exact hrun s' v k hs' hv hk hhalts

end

/-! ## Dates and directions -/

theorem openDate : Heeds Eq Parser.openDate Parser.openDate := andThen (expect rfl) fun _ => date

theorem closing : Heeds Eq Parser.closing Parser.closing := by
  refine andThen (accept rfl) fun b => ?_
  split
  · exact andThen date fun _ => pure rfl
  · exact pure rfl

theorem sortDirection : Heeds Eq Parser.sortDirection Parser.sortDirection := by
  refine andThen (accept rfl) fun b => ?_
  split
  · exact pure rfl
  · exact andThen (accept rfl) fun _ => pure rfl

/-- What is the same after a terminal. -/
theorem after_eq {x : Terminal} {p : Parser α} (hx : (Expected.terminal x).isOrdinary = true) (hp : Heeds Eq p p) :
    Heeds Eq (Parser.after x p) (Parser.after x p) := by
  refine andThen (accept hx) fun b => ?_
  split
  · exact andThen hp fun _ => pure rfl
  · exact pure rfl

/-- What is found after a terminal, if at all. -/
theorem after_any [Nonempty α] {x : Terminal} {p : Parser α} {q : Parser β}
    (hx : (Expected.terminal x).isOrdinary = true) (hp : Heeds Whatever p q) :
    Heeds Whatever (Parser.after x p) (Parser.after x q) := (after hx hp).mono fun _ _ _ => trivial

/-! ## Pivots -/

/-- Two keys are a pivot, unless a comma follows, and then that is one too many. -/
theorem pivotEnd (row column : PivotKey) : Heeds Eq (Parser.pivotEnd row column) (Parser.pivotEnd row column) where
  sees := .pivotEnd rfl
  tidy := .pivotEnd row column
  heeds s := by
    cases hc : (nextOf s.rest).is (.symbol .comma) with
    | true => exact .of_error _ (pivotEnd_hit row column hc) ⟨[], rfl⟩ rfl
    | false =>
      refine .of_stays (by rw [pivotEnd_miss row column hc]; rfl) fun s' l hs' hl hhalts => ?_
      rw [pivotEnd_miss row column hc]
      cases hcomma : l.token.is (.symbol .comma) with
      | true =>
        have hq := pivotEnd_hit row column (s := s') (by rw [hs']; exact hcomma)
        rw [hs'] at hq
        exact absurd (.comma hcomma) (hhalts.accepts _ hq)
      | false =>
        refine ⟨fun _ he _ => he, ?_⟩
        rintro _ _ ⟨⟩
        exact ⟨_, s', pivotEnd_miss row column (by rw [hs']; exact hcomma), hs', rfl⟩

/-- A pivot needs a comma and a second key after the first one. -/
theorem pivotRest (row : PivotKey) : Heeds Eq (Parser.pivotRest row) (Parser.pivotRest row) where
  sees := .pivotRest fun _ => rfl
  tidy := .pivotRest row
  heeds s := by
    cases hc : (nextOf s.rest).is (.symbol .comma) with
    | true =>
      obtain ⟨l, rest, hs, hc⟩ := exists_cons_of_is hc
      exact .step _ _ ⟨rest, [], l.span⟩ hs rfl (pivotRest_hit row hs hc)
        (fun s' l' rest' hs' hl' => ⟨⟨rest', [], l'.span⟩, rfl, pivotRest_hit row hs' (hl' ▸ hc)⟩)
        ((andThen pivotKey fun column => pivotEnd row column).heeds _)
    | false => exact .of_error _ (pivotRest_miss row hc) ⟨[], rfl⟩ rfl

theorem pivotBy : Heeds Eq Parser.pivotBy Parser.pivotBy :=
  andThen (expect rfl) fun _ => andThen pivotKey fun row => pivotRest row

/-! ## Targets and sources -/

section
variable {G H : Nested} (h : G.Heeds H)
include h

theorem target : Heeds Whatever (Parser.target G) (Parser.target H) :=
  bind nextSpan fun _ _ => bind h.expr fun _ _ => andThen (after_eq rfl name) fun _ => bind lastSpan fun _ _ =>
    pure trivial

theorem targets : Heeds Whatever (Parser.targets G) (Parser.targets H) := by
  refine andThen (accept rfl) fun b => ?_
  split
  · exact pure trivial
  · exact bind (commaList (target h)) fun _ _ => pure trivial

theorem entryFilter : Heeds Whatever (Parser.entryFilter G) (Parser.entryFilter H) := by
  refine andThen (accept rfl) fun b => ?_
  split
  · exact andThen openDate fun _ => andThen (after_eq rfl closing) fun _ => andThen (accept rfl) fun _ => pure trivial
  · refine andThen (accept rfl) fun b => ?_
    split
    · exact andThen closing fun _ => andThen (accept rfl) fun _ => pure trivial
    · refine andThen (accept rfl) fun b => ?_
      split
      · exact pure trivial
      · exact bind h.expr fun _ _ => andThen (after_eq rfl openDate) fun _ => andThen (after_eq rfl closing) fun _ =>
          andThen (accept rfl) fun _ => pure trivial

theorem querySource : Heeds Whatever (Parser.querySource G) (Parser.querySource H) :=
  bind h.select fun _ _ => andThen (expect rfl) fun _ => pure trivial

/-- A reader that begins with a query moves where one begins, or stops and lists nothing. -/
theorem select_bind_starts {f : Select → Parser α} (hf : ∀ q, Tidy (f q))
    (hs : (nextOf s.rest).is (.keyword .select) = true) : leftOf ((G.select >>= f) s) ≠ s.rest ∨
      ∃ stop, (G.select >>= f) s = .error stop ∧ stop.rest = s.rest ∧ stop.fault.items = [] := by
  rcases h.starts s hs with hmoved | ⟨stop, hstop, hrest, hitems⟩
  · exact .inl (leftOf_bind_ne h.tidy.select hf hmoved)
  · exact .inr ⟨stop, bind_of_error hstop, hrest, hitems⟩

theorem source : Heeds Whatever (Parser.source G) (Parser.source H) where
  sees := (Sees.source h.sees).mono fun _ _ _ => trivial
  tidy := .source h.deeper
  heeds s := by
    by_cases htable : ∃ n, nextOf s.rest = .table n
    · obtain ⟨n, hn⟩ := htable
      obtain ⟨l, rest, hs, hn⟩ := exists_cons_of_next hn (by simp)
      exact .step (Pure.pure (.table n)) (Pure.pure (.table n)) ⟨rest, [], l.span⟩ hs rfl
        (source_table G hs hn)
        (fun s' l' rest' hs' hl' => ⟨⟨rest', [], l'.span⟩, rfl, source_table H hs' (hl'.trans hn)⟩) (.pure trivial)
    have hother : ∀ n, nextOf s.rest ≠ .table n := fun n hn => htable ⟨n, hn⟩
    cases hquery : ((s.nth 0).is (.symbol .leftParen) && (s.nth 1).is (.keyword .select)) with
    | true =>
      obtain ⟨hparen, hselect⟩ := Bool.and_eq_true_iff.mp hquery
      rw [nth_zero] at hparen
      rw [nth_one] at hselect
      obtain ⟨l, rest, hs, hparen⟩ := exists_cons_of_is hparen
      rw [hs] at hselect
      have hp := source_query G hs hparen hselect
      rcases select_bind_starts h (s := ⟨rest, [], l.span⟩) (fun q => .bind (.expect (x := .symbol .rightParen) rfl)
        fun _ => .pure (Source.query q)) hselect with hmoved | ⟨stop, hstop, hrest, hitems⟩
      · exact .stepOn ⟨rest, [], l.span⟩ hs hp hmoved (fun s' l' rest' hs' hl' hnext =>
          ⟨⟨rest', [], l'.span⟩, rfl, source_query H hs' (hl' ▸ hparen) (hnext ▸ hselect)⟩) ((querySource h).heeds _)
      · exact .of_error _ (hp.trans hstop) ⟨[l], by rw [hs, hrest]; rfl⟩ hitems
    | false =>
      have hentries : Heeds Whatever (do return Source.entries (← Parser.entryFilter G))
          (do return Source.entries (← Parser.entryFilter H)) := bind (entryFilter h) fun _ _ => pure trivial
      obtain ⟨u, hu, hrun⟩ := hentries.heeds (s.trying [.table])
      replace hu : s.rest = u ++ _ := hu
      rw [HeedsAt, source_entries G hother hquery]
      refine ⟨u, hu, fun s' v k hs' hv hk hhalts => ?_⟩
      -- a sample that begins a query is read
      have hquery' : ((s'.nth 0).is (.symbol .leftParen) && (s'.nth 1).is (.keyword .select)) = false := by
        rw [← Bool.not_eq_true, nth_zero, nth_one, hs', Bool.and_eq_true]
        rintro ⟨hparen, hselect⟩
        rcases v with _ | ⟨l', _ | ⟨m', v⟩⟩
        · cases hselect
        · rw [source_query H hs' hparen hselect] at hhalts
          exact hhalts.left (leftOf_bind_eq_nil (fun _ => .bind (.expect rfl) fun _ => .pure _)
            (h.opens ⟨[k], [], l'.span⟩ k rfl hselect))
        · obtain ⟨l, u, rfl, hl, hu'⟩ := List.map_eq_cons_iff.mp hv.symm
          obtain ⟨m, u, rfl, hm, -⟩ := List.map_eq_cons_iff.mp hu'
          rw [nth_zero, nth_one, hu] at hquery
          replace hquery : (l.token.is (.symbol .leftParen) && m.token.is (.keyword .select)) = false := hquery
          rw [hl, hm] at hquery
          exact Bool.false_ne_true (hquery.symm.trans (Bool.and_eq_true_iff.mpr ⟨hparen, hselect⟩))
      have htable' : ∀ n, nextOf s'.rest ≠ .table n := by
        intro n hn
        rcases v with _ | ⟨l', v⟩
        · rw [hs'] at hn
          rw [source_table H hs' hn] at hhalts
          exact hhalts.left rfl
        · refine hother n ?_
          rw [← hn, hs', hu]
          exact nextOf_append_of_map_eq hv.symm (List.cons_ne_nil _ _)
      rw [source_entries H htable' hquery'] at hhalts ⊢
      obtain ⟨hmissed, hok⟩ := hrun (s'.trying [.table]) v k hs' hv hk hhalts
      refine ⟨fun e he hle => ?_, hok⟩
      obtain ⟨rfl, he⟩ := hmissed e he hle
      obtain rfl : v = [] := by simpa using hv
      refine ⟨rfl, (List.mem_cons.mp he).resolve_left ?_⟩
      rintro rfl
      exact htable' "" (by rw [hs']; exact hle)

/-! ## Clauses -/

section
variable (hH : H.MeetsIntegers)
include hH

theorem groupBy : Heeds Whatever (Parser.groupBy G) (Parser.groupBy H) :=
  andThen (expect rfl) fun _ => bind (commaList (columnKey h hH)) fun _ _ =>
    bind (after_any rfl h.expr) fun _ _ => pure trivial

theorem sortKey : Heeds Whatever (Parser.sortKey G) (Parser.sortKey H) :=
  bind (columnKey h hH) fun _ _ => andThen sortDirection fun _ => pure trivial

theorem orderBy : Heeds Whatever (Parser.orderBy G) (Parser.orderBy H) :=
  andThen (expect rfl) fun _ => commaList (sortKey h hH)

theorem selectQuery : Heeds Whatever (Parser.selectQuery G) (Parser.selectQuery H) :=
  andThen (expect rfl) fun _ => andThen (accept rfl) fun _ => bind (targets h) fun _ _ =>
    bind (after_any rfl (source h)) fun _ _ => bind (after_any rfl h.expr) fun _ _ =>
    bind (after_any rfl (groupBy h hH)) fun _ _ => bind (after_any rfl (orderBy h hH)) fun _ _ =>
    andThen (after_eq rfl pivotBy) fun _ => andThen (after_eq rfl count) fun _ => pure trivial

end

/-! ## Statements -/

theorem shorthandSource : Heeds Whatever (Parser.shorthandSource G) (Parser.shorthandSource H) :=
  after_any rfl (entryFilter h)

theorem balances : Heeds Whatever (Parser.balances G) (Parser.balances H) :=
  andThen (expect rfl) fun _ => andThen (after_eq rfl name) fun _ => bind (shorthandSource h) fun _ _ =>
    bind (after_any rfl h.expr) fun _ _ => pure trivial

theorem journal : Heeds Whatever (Parser.journal G) (Parser.journal H) :=
  andThen (expect rfl) fun _ => andThen accountPattern fun _ => andThen (after_eq rfl name) fun _ =>
    bind (shorthandSource h) fun _ _ => pure trivial

theorem print : Heeds Whatever (Parser.print G) (Parser.print H) :=
  andThen (expect rfl) fun _ => bind (shorthandSource h) fun _ _ => pure trivial

/-! ## First keywords -/

omit h in
/-- A keyword that has to be next and is the last token is read. -/
theorem begins_alone {x : Terminal} {f : Unit → Parser α} (hf : ∀ a, Tidy (f a)) (hs : s.rest = [l])
    (hl : l.token.is x = true) : leftOf ((Parser.expect x >>= f) s) = [] :=
  leftOf_bind_eq_nil hf (by rw [expect_hit hs hl]; rfl)

omit h in
/-- A keyword that has to be next and is next is moved over. -/
theorem begins_moved {x : Terminal} {f : Unit → Parser α} (hx : (Expected.terminal x).isOrdinary = true)
    (hf : ∀ a, Tidy (f a)) (hn : (nextOf s.rest).is x = true) : leftOf ((Parser.expect x >>= f) s) ≠ s.rest := by
  obtain ⟨l, rest, hs, hn⟩ := exists_cons_of_is hn
  refine leftOf_bind_ne (.expect hx) hf ?_
  rw [expect_hit hs hn, hs]
  exact fun h => List.cons_ne_self _ _ h.symm

omit h in
/-- Where the first keyword of a statement is next, it is known how the statement is read. -/
theorem statement_begins (h : G.Heeds H) (hs : ∃ k ∈ statementStarts, (nextOf s.rest).is (.keyword k) = true) :
    ∃ p q : Parser Statement, Heeds Whatever p q ∧ Parser.statement G s = p s ∧
      (∀ s' : Input, nextOf s'.rest = nextOf s.rest → Parser.statement H s' = q s') ∧
      (leftOf (p s) ≠ s.rest ∨ ∃ stop, p s = .error stop ∧ stop.rest = s.rest ∧ stop.fault.items = []) ∧
      ∀ l, s.rest = [l] → leftOf (q s) = [] := by
  obtain ⟨k, hk, hk'⟩ := hs
  have hbalances : ∀ {K : Nested}, K.Tidy → ∀ u : Unit, Tidy (do
      let summary ← Parser.summary
      let source ← Parser.shorthandSource K
      return Balances.mk summary source (← Parser.after (.keyword .where) K.expr)) := fun hK _ =>
    .bind (.after rfl .name) fun _ => .bind (.shorthandSource hK) fun _ => .bind (.after rfl hK.expr) fun _ => .pure _
  have hjournal : ∀ {K : Nested}, K.Tidy → ∀ u : Unit, Tidy (do
      let account ← Parser.accountPattern
      let summary ← Parser.summary
      return Journal.mk account summary (← Parser.shorthandSource K)) := fun hK _ =>
    .bind .accountPattern fun _ => .bind (.after rfl .name) fun _ => .bind (.shorthandSource hK) fun _ => .pure _
  have hprint : ∀ {K : Nested}, K.Tidy → ∀ u : Unit, Tidy (do return Print.mk (← Parser.shorthandSource K)) :=
    fun hK _ => .bind (.shorthandSource hK) fun _ => .pure _
  simp only [statementStarts, List.mem_cons, List.not_mem_nil, or_false] at hk
  rcases hk with rfl | rfl | rfl | rfl
  · refine ⟨_, _, bind h.select fun _ _ => pure trivial, statement_select G hk',
      fun s' hs' => statement_select H (hs' ▸ hk'), select_bind_starts h (fun _ => .pure _) hk', fun l hl => ?_⟩
    exact leftOf_bind_eq_nil (fun _ => .pure _) (h.opens s l hl (by rwa [hl] at hk'))
  · refine ⟨_, _, bind (balances h) fun _ _ => pure trivial, statement_balances G hk',
      fun s' hs' => statement_balances H (hs' ▸ hk'), .inl ?_, fun l hl => ?_⟩
    · rw [leftOf_map]
      exact begins_moved rfl (hbalances h.tidy) hk'
    · rw [leftOf_map]
      exact begins_alone (hbalances h.deeper) hl (by rwa [hl] at hk')
  · refine ⟨_, _, bind (journal h) fun _ _ => pure trivial, statement_journal G hk',
      fun s' hs' => statement_journal H (hs' ▸ hk'), .inl ?_, fun l hl => ?_⟩
    · rw [leftOf_map]
      exact begins_moved rfl (hjournal h.tidy) hk'
    · rw [leftOf_map]
      exact begins_alone (hjournal h.deeper) hl (by rwa [hl] at hk')
  · refine ⟨_, _, bind (print h) fun _ _ => pure trivial, statement_print G hk',
      fun s' hs' => statement_print H (hs' ▸ hk'), .inl ?_, fun l hl => ?_⟩
    · rw [leftOf_map]
      exact begins_moved rfl (hprint h.tidy) hk'
    · rw [leftOf_map]
      exact begins_alone (hprint h.deeper) hl (by rwa [hl] at hk')

theorem statement : Heeds Whatever (Parser.statement G) (Parser.statement H) := by
  have hother : ∀ K {s : Input}, ¬ (∃ k ∈ statementStarts, (nextOf s.rest).is (.keyword k) = true) →
      Parser.statement K s = Parser.unexpected (s.trying (statementStarts.reverse.map fun k => .terminal (.keyword k))) :=
    fun K s hS => statement_other K fun k hk => by
      rw [← Bool.not_eq_true]
      exact fun hk' => hS ⟨k, hk, hk'⟩
  refine choice (fun t => ∃ k ∈ statementStarts, t.is (.keyword k) = true) _ Parser.unexpected
    Parser.unexpected (fun s => ?_) (.statement h.deeper) unexpected ?_ (fun s l rest hs hS => ?_)
    (fun s l hs _ hS => ?_) (fun s hS => hother G hS) (fun s hS => hother H hS) ?_
  · by_cases hS : ∃ k ∈ statementStarts, (nextOf s.rest).is (.keyword k) = true
    · obtain ⟨p, q, hpq, hp, hq, hstart, -⟩ := statement_begins h hS
      refine .of_moved (hpq.sees s) hp (fun a t ht => ?_) hq
      rcases hstart with hmoved | ⟨stop, hstop, -⟩
      · rwa [ht] at hmoved
      · cases hstop.symm.trans ht
    · exact .of_ne_ok fun a t ht => absurd ((hother G hS).symm.trans ht) unexpected_ne_ok
  · rintro ⟨k, -, hk⟩
    cases hk
  · obtain ⟨p, q, hpq, hp, hq, hmoved | ⟨stop, hstop, hrest, hitems⟩, -⟩ :=
      statement_begins h (s := s) (by rw [hs]; exact hS)
    · exact .of_moved (hpq.heeds s) hp hmoved hq
    · exact .of_error _ (hp.trans hstop) ⟨[], hrest.symm⟩ hitems
  · obtain ⟨p, q, -, -, hq, -, halone⟩ := statement_begins h (s := s) (by rw [hs]; exact hS)
    rw [hq s rfl]
    exact halone l hs
  · simp [Expected.sample, ofTerminal_is_iff, statementStarts]

end

end Heeds

/-! ## Nesting -/

/-- The first keyword of a query is moved over. -/
theorem selectQuery_moved {K : Nested} (hK : K.Tidy) (hs : (nextOf s.rest).is (.keyword .select) = true) :
    leftOf (selectQuery K s) ≠ s.rest := Heeds.begins_moved rfl (fun _ => Tidy.selectClauses hK) hs

/-- The first keyword of a query is read if it is the last token. -/
theorem selectQuery_last {K : Nested} (hK : K.Tidy) (hs : s.rest = [l]) (hl : l.token.is (.keyword .select) = true) :
    leftOf (selectQuery K s) = [] := Heeds.begins_alone (fun _ => Tidy.selectClauses hK) hs hl

/-- With no level left nothing is tried. -/
theorem nested_heeds_zero (limit limit' levels : Nat) : (nested limit 0).Heeds (nested limit' (levels + 1)) :=
  have hdeeper := nested_tidy limit' (levels + 1)
  { sees := nested_sees False limit limit' (Nat.zero_le _)
    tidy := nested_tidy limit 0
    expr := .fail rfl hdeeper.expr
    inversion := .fail rfl hdeeper.inversion
    factor := .fail rfl hdeeper.factor
    select := .fail rfl hdeeper.select
    starts := fun _ _ => .inr ⟨_, rfl, rfl, rfl⟩
    opens := fun _ _ hs hl => selectQuery_last (nested_tidy limit' levels) hs hl
    refuses := fun _ _ _ => ⟨_, rfl, rfl, rfl⟩ }

/-- Readers of expressions that may go two levels deeper or more take integers as they should. -/
theorem nested_meetsIntegers (limit levels : Nat) : (nested limit (levels + 2)).MeetsIntegers where
  refuses {s digits f} hn hi := disjunction_refused _ (by
    rw [hn]
    show some (Literal.integer <$> integerOf digits) = _
    rw [hi]
    rfl)
  alone {s l m digits n} hs hl hi hm := by
    obtain ⟨_, tried, last⟩ := s
    obtain rfl := hs
    obtain ⟨tried', ht⟩ := Reads.integer_alone (nested limit (levels + 1)) hl hi [m] tried last hm
    exact ⟨_, _, ht, rfl⟩
  heeds {s l m digits n} hs hl hi hm hhalts := by
    -- before a parenthesis the integer is read alone, and everything that can go on with it is tried
    let stop : Lexeme := ⟨.symbol .rightParen, ⟨0, 0⟩⟩
    obtain ⟨tried, ht⟩ := Reads.integer_alone (nested 0 0) hl hi [stop] [] s.last rfl
    obtain ⟨u, hu, hrun⟩ := (Heeds.disjunction (nested_heeds_zero 0 limit levels)).heeds ⟨[l, stop], [], s.last⟩
    rw [show disjunction (nested 0 0) ⟨[l, stop], [], s.last⟩ = _ from ht] at hu hrun
    obtain rfl : [l] = u := List.append_cancel_right (show [l] ++ [stop] = u ++ [stop] from hu)
    obtain ⟨e, t, he, ht, -⟩ := (hrun s [l] m hs rfl hm hhalts).2 _ _ rfl
    exact ⟨e, t, he, ht⟩

/-- What readers under a limit tried in vain, readers that may go two levels deeper or more read. -/
theorem nested_heeds (limit limit' : Nat) : ∀ {m n}, m + 2 ≤ n → (nested limit m).Heeds (nested limit' n)
  | 0, n + 1, _ => nested_heeds_zero limit limit' n
  | m + 1, n + 3, hle =>
    have h := nested_heeds limit limit' (m := m) (n := n + 2) (Nat.le_of_succ_le_succ hle)
    { sees := nested_sees False limit limit' (by omega)
      tidy := nested_tidy limit (m + 1)
      expr := .disjunction h
      inversion := .inversion h
      factor := .factor h
      select := .selectQuery h (nested_meetsIntegers limit' n)
      starts := fun _ hs => .inl (selectQuery_moved (nested_tidy limit m) hs)
      opens := fun _ _ hs hl => selectQuery_last (nested_tidy limit' (n + 2)) hs hl
      refuses := fun _ _ hf => ⟨_, disjunction_refused _ hf, rfl, literal?_items hf⟩ }

end LedgerQuery
