import LedgerQuery.Proofs.Phrase.Place
import LedgerQuery.Proofs.Reading.CompleteSelect
import LedgerQuery.Proofs.Reading.CompletesExpr
import LedgerQuery.Proofs.Reading.HeedsSelect

/-!
# Completing queries

A query is completed by `LIMIT 1`, unless it has a limit already.  After that any token may follow.  So a subselect
without parentheses leaves what comes after it to the query around it, and the token after each clause is `LIMIT`,
at which all of them stop.

Two readers look at the token after an integer or a parenthesis.  A key that was read as one integer is completed by
nothing, whatever it was read as (`columnKey`).  A source of which only the parenthesis was read is completed by a
query.
-/

namespace LedgerQuery

open Token LedgerQuery.Parser

variable {ι α β γ δ : Type} {s : Input} {l : Lexeme} {rest : List Lexeme} {F : Token → Prop}

namespace Completes

/-! ## Keys -/

section
variable {G H : Nested} (h : G.Completes H)
include h

/-- A key that is an expression. -/
theorem expressionKey : Completes Whatever [.integer "1"] (Stops 7)
    (do return ColumnKey.expr (← G.expr) : Parser ColumnKey) fun _ : Unit => (do return ColumnKey.expr (← H.expr) : Parser ColumnKey) := map h.expr fun _ _ _ => trivial

omit h in
/-- An integer alone is the number of a target. -/
theorem takes_index {t : Token} {digits : String} {n : UInt64} (ht : t = .integer digits)
    (hn : countOf digits = .ok n) : Takes (Stops 7) [t] (Parser.columnKey H) := by
  subst ht
  intro s v rest hs hv hr _
  obtain ⟨l, rfl, hl⟩ := List.map_eq_singleton_iff.mp hv
  exact ⟨_, _, columnKey_index H hs hl hn hr.not_continues, rfl⟩

/-- An integer that something goes on with begins an expression.  If only the integer was read, it is completed as the
number of a target. -/
theorem columnKey_continued {digits : String} (hs : s.rest = l :: rest) (hl : l.token = .integer digits)
    (hc : (nextOf rest).continuesExpression = true) :
    CompletesAt (Stops 7) s (Parser.columnKey G) fun _ : Unit => Parser.columnKey H := by
  obtain ⟨u, hu, hrun⟩ := (expressionKey h).completes s
  rw [CompletesAt, columnKey_expression G hs hl hc]
  refine ⟨u, hu, fun hne => ?_⟩
  rcases u with _ | ⟨l₀, _ | ⟨m, u⟩⟩
  · exact absurd rfl hne
  · obtain rfl : l = l₀ := (List.cons.inj (hs.symm.trans hu)).1
    cases hi : integerOf digits with
    | error f =>
      -- then the integer was not read
      obtain ⟨stop, hstop, hrest⟩ := h.refuses s f (by
        rw [hs]
        show l.token.literal? = _
        rw [hl]
        show some (Literal.integer <$> integerOf digits) = _
        rw [hi]
        rfl)
      rw [bind_of_error hstop, leftOf, hrest] at hu
      exact absurd (congrArg List.length hu) (by simp)
    | ok n =>
      obtain ⟨c, hcount⟩ := countOf_of_integerOf hi
      exact ⟨[], List.forall_mem_nil _, fun _ => takes_index hl hcount⟩
  · obtain ⟨w, hplain, hw⟩ := hrun hne
    refine ⟨w, hplain, fun i s' v rest' hs' hv hr hin => ?_⟩
    obtain ⟨l', v, rfl, hl', hv'⟩ := List.map_eq_cons_iff.mp hv
    obtain ⟨m', v, rfl, hm', -⟩ := List.map_eq_cons_iff.mp hv'
    obtain ⟨rfl, hrest⟩ := List.cons.inj (hs.symm.trans hu)
    have hc' : m'.token.continuesExpression = true := by
      rw [hm']
      rwa [hrest] at hc
    rw [columnKey_expression H hs' (hl'.trans hl) hc']
    exact hw i s' _ rest' hs' hv hr hin

theorem columnKey :
    Completes Whatever [.integer "1"] (Stops 7) (Parser.columnKey G) fun _ : Unit => Parser.columnKey H where
  sees _ := (Sees.columnKey h.sees).mono fun _ _ _ => trivial
  completes s := by
    by_cases hn : ∃ digits, nextOf s.rest = .integer digits
    · obtain ⟨digits, hn⟩ := hn
      obtain ⟨l, rest, hs, hn⟩ := exists_cons_of_next hn (by simp)
      cases hc : (nextOf rest).continuesExpression with
      | true => exact columnKey_continued h hs hn hc
      | false =>
        cases hcount : countOf digits with
        | error f =>
          refine .of_stays ?_
          rw [Sees.columnKey_integer G (show nextOf s.rest = .integer digits by rw [hs]; exact hn),
            if_neg (by rw [nth_one, hs]; simp [hc]), hcount]
          rfl
        | ok c =>
          rw [CompletesAt, columnKey_index G hs hn hcount hc]
          exact ⟨[l], hs, fun _ => ⟨[], List.forall_mem_nil _, fun _ => takes_index hn hcount⟩⟩
    · have hother : ∀ digits, nextOf s.rest ≠ .integer digits := fun digits hd => hn ⟨digits, hd⟩
      exact .skip _ _ s rfl (Sees.columnKey_other G hother)
        (fun _ s' hs' => ⟨s', rfl, Sees.columnKey_other H (hs' ▸ hother)⟩) ((expressionKey h).completes s)
  plain := List.forall_mem_singleton.mpr plain_one
  takes _ := takes_index rfl (n := 1) (by rfl)

end

/-! ## Dates, directions and pivots -/

theorem openDate : Completes Whatever [.ofTerminal (.keyword .on), .date "2000-01-01"] F Parser.openDate
    fun _ : Unit => Parser.openDate := expecting rfl date.whatever

theorem closing : Completes Whatever [] (Stops 13) Parser.closing fun _ : Unit => Parser.closing :=
  acceptElse (map date fun _ _ _ => trivial) (pure fun _ => trivial) fun _ ht => ht.not_is (by decide)

theorem sortDirection : Completes Whatever [] (Stops 8) Parser.sortDirection fun _ : Unit => Parser.sortDirection :=
  acceptElse (pure fun _ => trivial) ((map accept fun _ _ _ => trivial).before fun _ ht => ht.not_is (by decide))
    fun _ ht => ht.not_is (by decide)

/-- Two keys are a pivot, if no comma follows. -/
theorem pivotEnd (row column : PivotKey) (row' column' : ι → PivotKey) : Completes Whatever [] (Stops 9)
    (Parser.pivotEnd row column) fun i => Parser.pivotEnd (row' i) (column' i) where
  sees _ := .pivotEnd trivial
  completes s := by
    refine .of_stays ?_
    cases hc : (nextOf s.rest).is (.symbol .comma) with
    | true => rw [pivotEnd_hit row column hc]; rfl
    | false => rw [pivotEnd_miss row column hc]; rfl
  plain := List.forall_mem_nil _
  takes i := .of_stays fun s hs => ⟨_, s, pivotEnd_miss _ _ (hs.not_is (by decide)), rfl⟩

/-- After one key a comma and a second key complete the pivot. -/
theorem pivotRest (row : PivotKey) (row' : ι → PivotKey) :
    Completes Whatever [.ofTerminal (.symbol .comma), .integer "1"] (Stops 9) (Parser.pivotRest row)
      fun i => Parser.pivotRest (row' i) := by
  have hafter : Completes Whatever [.integer "1"] (Stops 9) (Parser.pivotKey >>= Parser.pivotEnd row)
      fun i => Parser.pivotKey >>= Parser.pivotEnd (row' i) :=
    andMore pivotKey (fun column => pivotEnd row column _ _) fun _ _ => trivial
  exact {
    sees _ := .pivotRest fun _ => trivial
    completes s := by
      cases hc : (nextOf s.rest).is (.symbol .comma) with
      | true =>
        obtain ⟨l, rest, hs, hc⟩ := exists_cons_of_is hc
        exact .step _ _ ⟨rest, [], l.span⟩ hs (pivotRest_hit row hs hc) (fun i s' l' rest' hs' hl' =>
          ⟨⟨rest', [], l'.span⟩, rfl, pivotRest_hit (row' i) hs' (hl' ▸ hc)⟩) (hafter.completes _) hafter.plain
          hafter.takes
      | false => exact .of_stays (by rw [pivotRest_miss row hc]; rfl)
    plain := List.forall_mem_cons.mpr ⟨plain_of_isOrdinary rfl, hafter.plain⟩
    takes i := .step _ (fun s l rest hs hl => ⟨⟨rest, [], l.span⟩, rfl,
      pivotRest_hit (row' i) hs (hl ▸ ofTerminal_is _)⟩) (hafter.takes i) }

theorem pivotBy : Completes Whatever
    [.ofTerminal (.keyword .by), .integer "1", .ofTerminal (.symbol .comma), .integer "1"] (Stops 9) Parser.pivotBy
    fun _ : Unit => Parser.pivotBy :=
  expecting rfl (bind [.integer "1"] (fun _ => True) pivotKey (fun row => pivotRest row _) fun _ _ => trivial)

/-! ## Targets and sources -/

section
variable {G H : Nested} (h : G.Completes H)
include h

theorem target : Completes Whatever [.integer "1"] (Stops 9) (Parser.target G) fun _ : Unit => Parser.target H :=
  optionally (fun _ => True) nextSpan (fun _ => andMore h.expr (fun _ => andMore (after name) (fun _ =>
    map lastSpan fun _ _ _ => trivial) fun _ ht => ⟨ht.not_is (by decide), trivial⟩) fun _ ht => ht.mono (by decide))
    fun _ _ => trivial

theorem targets : Completes Whatever [.integer "1"] (Stops 9) (Parser.targets G) fun _ : Unit => Parser.targets H :=
  acceptElse (pure fun _ => trivial)
    (map (commaList (target h) (.target h.deeper) fun _ ht => ⟨ht.not_is (by decide), ht⟩) fun _ _ _ => trivial)
    fun _ _ => rfl

omit h in
/-- The modifiers of a filter after its opening. -/
theorem closeAndClear {f : Option Closing → Bool → EntryFilter} {g : ι → Option Closing → Bool → EntryFilter} :
    Completes Whatever [] (Stops 14)
      (do
        let close ← Parser.after (.keyword .close) Parser.closing
        return f close (← Parser.accept (.keyword .clear)))
      fun i => do
        let close ← Parser.after (.keyword .close) Parser.closing
        return g i close (← Parser.accept (.keyword .clear)) :=
  andMore (after closing) (fun _ => (map accept fun _ _ _ => trivial).before fun _ ht => ht.not_is (by decide))
    fun _ ht => ⟨ht.not_is (by decide), ht.mono (by decide)⟩

theorem entryFilter :
    Completes Whatever [.integer "1"] (Stops 14) (Parser.entryFilter G) fun _ : Unit => Parser.entryFilter H := by
  refine acceptElse (andMore openDate (fun _ => closeAndClear) fun _ => id) ?_ fun _ _ => rfl
  refine acceptElse (andMore closing (fun _ => (map accept fun _ _ _ => trivial).before fun _ ht =>
    ht.not_is (by decide)) fun _ ht => ht.mono (by decide)) ?_ fun _ _ => rfl
  refine acceptElse (pure fun _ => trivial) ?_ fun _ _ => rfl
  exact andMore h.expr (fun _ => andMore (after openDate) (fun _ => closeAndClear)
    fun _ ht => ⟨ht.not_is (by decide), ht⟩) fun _ ht => ht.mono (by decide)

theorem querySource : Completes Whatever (selectOne ++ [.ofTerminal (.symbol .rightParen)]) F (Parser.querySource G)
    fun _ : Unit => Parser.querySource H :=
  bind selectOne (fun _ => True) h.select (fun _ => expecting rfl (pure fun _ => trivial)) fun _ _ => trivial

theorem entriesSource : Completes Whatever [.integer "1"] (Stops 14) (do return Source.entries (← Parser.entryFilter G))
    fun _ : Unit => do return Source.entries (← Parser.entryFilter H) := map (entryFilter h) fun _ _ _ => trivial

/-- A query in parentheses.  If only the parenthesis was read, a query is put after it. -/
theorem source_query (hs : s.rest = l :: rest) (hl : l.token.is (.symbol .leftParen) = true)
    (hm : (nextOf rest).is (.keyword .select) = true) :
    CompletesAt (Stops 14) s (Parser.source G) fun _ : Unit => Parser.source H := by
  have hquery : Completes Whatever _ (Stops 14) _ _ := querySource h
  obtain ⟨u, hu, hrun⟩ := hquery.completes ⟨rest, [], l.span⟩
  replace hu : rest = u ++ _ := hu
  obtain ⟨w, hplain, hw, hselect⟩ : ∃ w, (∀ t ∈ w, t.Plain) ∧
      (∀ i : Unit, Takes (Stops 14) (u.map Lexeme.token ++ w) (Parser.querySource H)) ∧
      ∀ t, ((u.map Lexeme.token ++ w).headD t).is (.keyword .select) = true := by
    cases u with
    | nil => exact ⟨_, hquery.plain, hquery.takes, fun _ => rfl⟩
    | cons m u =>
      obtain ⟨w, hplain, hw⟩ := hrun (List.cons_ne_nil _ _)
      rw [hu] at hm
      exact ⟨w, hplain, hw, fun _ => hm⟩
  rw [CompletesAt, Parser.source_query G hs hl hm]
  refine ⟨l :: u, by rw [hs]; exact congrArg (l :: ·) hu, fun _ => ⟨w, hplain, fun i s' x rest' hs' hx hr hin => ?_⟩⟩
  obtain ⟨l', v, rfl, hl', hv⟩ := List.map_eq_cons_iff.mp hx
  have hnext : nextOf (v ++ rest') = (u.map Lexeme.token ++ w).headD (nextOf rest') := by
    rw [nextOf_append_map, hv]
    rfl
  rw [Parser.source_query H hs' (hl' ▸ hl) (hnext ▸ hselect _)]
  exact hw i _ v rest' rfl hv hr hin

theorem takes_query : Takes F (.ofTerminal (.symbol .leftParen) :: (selectOne ++ [.ofTerminal (.symbol .rightParen)]))
    (Parser.source H) := by
  intro s x rest hs hx hr hin
  obtain ⟨l, v, rfl, hl, hv⟩ := List.map_eq_cons_iff.mp hx
  have hnext : nextOf (v ++ rest) = .ofTerminal (.keyword .select) := by
    rw [nextOf_append_map, hv]
    rfl
  rw [Parser.source_query H hs (hl ▸ ofTerminal_is _) (hnext ▸ ofTerminal_is _)]
  exact (querySource h).takes () _ v rest rfl hv hr hin

/-- A filter on entries.  After a parenthesis that was read alone a query is put, since what completes the filter might
begin like one. -/
theorem source_entries (htable : ∀ n, nextOf s.rest ≠ .table n)
    (hquery : ((s.nth 0).is (.symbol .leftParen) && (s.nth 1).is (.keyword .select)) = false) :
    CompletesAt (Stops 14) s (Parser.source G) fun _ : Unit => Parser.source H := by
  obtain ⟨u, hu, hrun⟩ := (entriesSource h).completes (s.trying [.table])
  replace hu : s.rest = u ++ _ := hu
  rw [CompletesAt, Parser.source_entries G htable hquery]
  refine ⟨u, hu, fun hne => ?_⟩
  by_cases hparen : ∃ l, u = [l] ∧ l.token.is (.symbol .leftParen) = true
  · obtain ⟨l, rfl, hl⟩ := hparen
    refine ⟨_, (querySource h (F := Stops 14)).plain, fun _ => ?_⟩
    rw [List.map_singleton, is_symbol_iff.mp hl]
    exact takes_query h
  · obtain ⟨w, hplain, hw⟩ := hrun hne
    refine ⟨w, hplain, fun i s' v rest' hs' hv hr hin => ?_⟩
    have hnext : nextOf s'.rest = nextOf s.rest := by
      rw [hs', hu, nextOf_append_map, nextOf_append_map, hv]
      cases u with
      | nil => exact absurd rfl hne
      | cons l u => rfl
    have hquery' : ((s'.nth 0).is (.symbol .leftParen) && (s'.nth 1).is (.keyword .select)) = false := by
      rw [nth_zero, nth_one] at hquery ⊢
      rw [hnext, ← Bool.not_eq_true, Bool.and_eq_true]
      rintro ⟨hl, hm⟩
      rcases u with _ | ⟨l, _ | ⟨m, u⟩⟩
      · exact hne rfl
      · exact hparen ⟨l, rfl, by rwa [hu] at hl⟩
      · obtain ⟨l', v, rfl, -, hv⟩ := List.map_eq_cons_iff.mp hv
        obtain ⟨m', v, rfl, hm', -⟩ := List.map_eq_cons_iff.mp hv
        have hm'' : (nextOf s'.rest.tail) = nextOf s.rest.tail := by
          rw [hs', hu]
          exact hm'
        rw [hl, ← hm'', hm] at hquery
        cases hquery
    rw [Parser.source_entries H (hnext ▸ htable) hquery']
    exact hw i _ v rest' hs' hv hr hin

theorem source : Completes Whatever [.integer "1"] (Stops 14) (Parser.source G) fun _ : Unit => Parser.source H where
  sees _ := (Sees.source h.sees).mono fun _ _ _ => trivial
  completes s := by
    by_cases htable : ∃ n, nextOf s.rest = .table n
    · obtain ⟨n, hn⟩ := htable
      obtain ⟨l, rest, hs, hn⟩ := exists_cons_of_next hn (by simp)
      exact .token hs (source_table G hs hn) fun _ _ _ _ hs' hl' => ⟨_, rfl, source_table H hs' (hl'.trans hn)⟩
    · cases hquery : ((s.nth 0).is (.symbol .leftParen) && (s.nth 1).is (.keyword .select)) with
      | true =>
        obtain ⟨hparen, hselect⟩ := Bool.and_eq_true_iff.mp hquery
        rw [nth_zero] at hparen
        rw [nth_one] at hselect
        obtain ⟨l, rest, hs, hparen⟩ := exists_cons_of_is hparen
        rw [hs] at hselect
        exact source_query h hs hparen hselect
      | false => exact source_entries h (fun n hn => htable ⟨n, hn⟩) hquery
  plain := (entriesSource h).plain
  takes _ := by
    refine .skip _ (fun s ⟨_, _, hs⟩ => ⟨s.trying [.table], rfl, Parser.source_entries H ?_ ?_⟩)
      ((entriesSource h).takes ())
    · simp [hs]
    · rw [nth_zero, hs]
      rfl

/-! ## Clauses -/

theorem groupBy : Completes Whatever [.ofTerminal (.keyword .by), .integer "1"] (Stops 17) (Parser.groupBy G)
    fun _ : Unit => Parser.groupBy H := by
  have hkeys : Completes Whatever [.integer "1"] (Stops 9) (Parser.commaList (Parser.columnKey G))
      fun _ : Unit => Parser.commaList (Parser.columnKey H) :=
    commaList (columnKey h) (.columnKey h.deeper) fun _ ht => ⟨ht.not_is (by decide), ht.mono (by decide)⟩
  exact expecting rfl (andMore hkeys (fun _ => (map (after h.expr) fun _ _ _ => trivial).before fun _ ht =>
    ⟨ht.not_is (by decide), ht.mono (by decide)⟩) fun _ ht => ht.mono (by decide))

theorem sortKey :
    Completes Whatever [.integer "1"] (Stops 8) (Parser.sortKey G) fun _ : Unit => Parser.sortKey H :=
  andMore (columnKey h) (fun _ => map sortDirection fun _ _ _ => trivial) fun _ ht => ht.mono (by decide)

theorem orderBy : Completes Whatever [.ofTerminal (.keyword .by), .integer "1"] (Stops 9) (Parser.orderBy G)
    fun _ : Unit => Parser.orderBy H :=
  expecting rfl (commaList (sortKey h) (.sortKey h.deeper) fun _ ht => ⟨ht.not_is (by decide), ht.mono (by decide)⟩)

omit h in
/-- A limit, or the limit 1. -/
theorem limit : Completes Whatever limitOne F (Parser.after (.keyword .limit) Parser.count)
    fun _ : Unit => Parser.after (.keyword .limit) Parser.count := by
  have hcount : Completes Whatever [.integer "1"] F (do return some (← Parser.count))
      fun _ : Unit => do return some (← Parser.count) := map count fun _ _ _ => trivial
  have hhit : ∀ (s : Input) l rest, s.rest = l :: rest → l.token.is (.keyword .limit) = true →
      Parser.after (.keyword .limit) Parser.count s = (do return some (← Parser.count) : Parser _) ⟨rest, [], l.span⟩ :=
    fun s l rest hs hl => bind_of_ok (accept_hit hs hl)
  exact {
    sees _ := (Sees.after (.keyword .limit) ((count (F := F)).sees ())).mono fun _ _ _ => trivial
    completes s := by
      cases hn : (nextOf s.rest).is (.keyword .limit) with
      | true =>
        obtain ⟨l, rest, hs, hn⟩ := exists_cons_of_is hn
        exact .step _ _ ⟨rest, [], l.span⟩ hs (hhit s l rest hs hn) (fun _ s' l' rest' hs' hl' =>
          ⟨⟨rest', [], l'.span⟩, rfl, hhit s' l' rest' hs' (hl' ▸ hn)⟩) (hcount.completes _) hcount.plain hcount.takes
      | false =>
        refine .of_stays ?_
        rw [show Parser.after (.keyword .limit) Parser.count s = _ from bind_of_ok (accept_miss hn)]
        rfl
    plain := List.forall_mem_cons.mpr ⟨plain_of_isOrdinary rfl, hcount.plain⟩
    takes _ := .step _ (fun s l rest hs hl =>
      ⟨⟨rest, [], l.span⟩, rfl, hhit s l rest hs (hl ▸ ofTerminal_is _)⟩) (hcount.takes ()) }

omit h in
theorem plain_selectOne : ∀ t ∈ selectOne, t.Plain :=
  List.forall_mem_cons.mpr ⟨plain_of_isOrdinary rfl,
    List.forall_mem_cons.mpr ⟨plain_one, (limit (F := fun _ => True)).plain⟩⟩

omit h in
/-- At `LIMIT` every clause stops. -/
theorem stops_limit {n : Nat} (hn : n ≤ 17) : Stops n (.ofTerminal (.keyword .limit)) :=
  Nat.lt_of_le_of_lt hn (by decide)

theorem selectQuery : Completes Whatever selectOne F (Parser.selectQuery G) fun _ : Unit => Parser.selectQuery H := by
  refine expecting rfl (optionally _ accept (fun _ => ?_) fun _ _ => rfl)
  refine bind [.integer "1"] (Stops 9) (targets h) (fun _ => ?_) fun _ _ => stops_limit (by decide)
  refine optionally _ (after (source h)) (fun _ => ?_) fun _ _ => ⟨rfl, stops_limit (by decide)⟩
  refine optionally _ (after h.expr) (fun _ => ?_) fun _ _ => ⟨rfl, stops_limit (by decide)⟩
  refine optionally _ (after (groupBy h)) (fun _ => ?_) fun _ _ => ⟨rfl, stops_limit (by decide)⟩
  refine optionally _ (after (orderBy h)) (fun _ => ?_) fun _ _ => ⟨rfl, stops_limit (by decide)⟩
  refine optionally _ (after pivotBy) (fun _ => ?_) fun _ _ => ⟨rfl, stops_limit (by decide)⟩
  exact map limit fun _ _ _ => trivial

/-! ## Statements -/

theorem shorthandSource : Completes Whatever [] (Stops 14) (Parser.shorthandSource G)
    fun _ : Unit => Parser.shorthandSource H :=
  (after (entryFilter h)).whatever.before fun _ ht => ⟨ht.not_is (by decide), ht⟩

omit h in
theorem summary : Completes Whatever [] (Stops 10) Parser.summary fun _ : Unit => Parser.summary :=
  (after (name (F := fun _ => True))).whatever.before fun _ ht => ⟨ht.not_is (by decide), trivial⟩

theorem balances : Completes Whatever [.ofTerminal (.keyword .balances)] (Stops 15) (Parser.balances G)
    fun _ : Unit => Parser.balances H :=
  expecting rfl (optionally (Stops 10) summary (fun _ => optionally (Stops 14) (shorthandSource h) (fun _ =>
    (map (after h.expr) fun _ _ _ => trivial).before fun _ ht => ⟨ht.not_is (by decide), ht.mono (by decide)⟩)
    fun _ ht => ht.mono (by decide)) fun _ ht => ht.mono (by decide))

theorem journal : Completes Whatever [.ofTerminal (.keyword .journal), .string ⟨"", .single⟩] (Stops 14)
    (Parser.journal G) fun _ : Unit => Parser.journal H :=
  expecting rfl (andMore accountPattern (fun _ => optionally (Stops 10) summary (fun _ =>
    map (shorthandSource h) fun _ _ _ => trivial) fun _ ht => ht.mono (by decide)) fun _ _ => trivial)

theorem print : Completes Whatever [.ofTerminal (.keyword .print)] (Stops 14) (Parser.print G)
    fun _ : Unit => Parser.print H := expecting rfl (map (shorthandSource h) fun _ _ _ => trivial)

/-- A statement that was begun can be completed. -/
theorem statement (s : Input) :
    CompletesAt (Stops 20) s (Parser.statement G) fun _ : Unit => Parser.statement H := by
  by_cases hs : ∃ k ∈ statementStarts, (nextOf s.rest).is (.keyword k) = true
  · obtain ⟨k, hk, hk'⟩ := hs
    simp only [statementStarts, List.mem_cons, List.not_mem_nil, or_false] at hk
    rcases hk with rfl | rfl | rfl | rfl
    · exact .skip _ _ s rfl (statement_select G hk') (fun _ s' hs' => ⟨s', rfl, statement_select H (hs' ▸ hk')⟩)
        (((map (D := Whatever) h.select fun _ _ _ => trivial).before fun _ _ => trivial).completes s)
    · exact .skip _ _ s rfl (statement_balances G hk') (fun _ s' hs' => ⟨s', rfl, statement_balances H (hs' ▸ hk')⟩)
        (((map (D := Whatever) (balances h) fun _ _ _ => trivial).before fun _ ht => ht.mono (by decide)).completes s)
    · exact .skip _ _ s rfl (statement_journal G hk') (fun _ s' hs' => ⟨s', rfl, statement_journal H (hs' ▸ hk')⟩)
        (((map (D := Whatever) (journal h) fun _ _ _ => trivial).before fun _ ht => ht.mono (by decide)).completes s)
    · exact .skip _ _ s rfl (statement_print G hk') (fun _ s' hs' => ⟨s', rfl, statement_print H (hs' ▸ hk')⟩)
        (((map (D := Whatever) (print h) fun _ _ _ => trivial).before fun _ ht => ht.mono (by decide)).completes s)
  · refine .of_stays ?_
    rw [statement_other G fun k hk => by
      rw [← Bool.not_eq_true]
      exact fun hk' => hs ⟨k, hk, hk'⟩]
    rfl

/-- A query is a statement. -/
theorem takes_statement : Takes F selectOne (Parser.statement H) := by
  have hselect : Completes Whatever selectOne F (do return Statement.select (← G.select))
      fun _ : Unit => do return Statement.select (← H.select) :=
    map (h.select.before fun _ _ => trivial) fun _ _ _ => trivial
  exact .skip _ (fun s ⟨_, _, hs⟩ => ⟨s, rfl, statement_select H (by rw [hs]; rfl)⟩) (hselect.takes ())

end

end Completes

/-! ## What completes nothing -/

namespace Phrase

variable {G : Phrases} {u : List Lexeme} {a : Literal} {e : Expr}

/-- A literal is a factor. -/
theorem factor_literal (h : l.token.literal? = some (.ok a)) : factor G [l] (.literal a) := by
  have hatom : atom G [l] (.literal a) :=
    oneOf_tail (oneOf_tail (oneOf_tail (oneOf_head (seq_pure (literal_iff.mpr ⟨l, rfl, h⟩)))))
  exact oneOf_tail (oneOf_tail (oneOf_tail (oneOf_tail (oneOf_head (seq hatom (seq_pure Many.nil))))))

theorem inversion_literal (h : l.token.literal? = some (.ok a)) : inversion G [l] (.literal a) :=
  inversion_iff.mpr (.inl (comparison_iff.mpr (.inl (sum_iff.mpr (.inl (term_iff.mpr (.inl (factor_literal h))))))))

theorem disjunction_literal (h : l.token.literal? = some (.ok a)) : disjunction G [l] (.literal a) :=
  disjunction_iff.mpr (.inl (conjunction_iff.mpr (.inl (inversion_literal h))))

/-- One expression is a list of targets. -/
theorem targets_single (h : G.expr [l] e) : targets G [l] (.list [⟨e, .none, some (l.span.merge l.span)⟩]) := by
  have hnamed : (do let e ← G.expr; let name ← optional (do keyword .as; name); return (e, name) : Phrase _)
      [l] (e, .none) := seq (v := [l]) (w := []) h (seq_pure (u := []) rfl)
  have htarget : target G [l] ⟨e, .none, some (l.span.merge l.span)⟩ :=
    seq_pure (u := [l]) (a := ((e, Option.none), l.span.merge l.span)) ⟨hnamed, l, rfl, l, rfl, rfl⟩
  exact oneOf_tail (oneOf_head (seq_pure (u := [l]) (seq (v := [l]) (w := []) htarget (seq_pure Many.nil))))

end Phrase

/-- One token is read as the grammar allows, if a level is left. -/
theorem nested_ready_one (limit levels : Nat) : Ready (nested limit (levels + 1)) (phrases .nowhere 1) 2 :=
  @nested_ready .nowhere (by decide) limit 1 (levels + 1) 2 (.inl (Nat.le_add_left 1 levels))

namespace Takes

variable {limit levels : Nat} {t : Token}

section
variable {a : Literal} (ht : t.literal? = some (.ok a))
include ht

/-- A literal is read as an expression. -/
theorem literal : Takes (Stops 7) [t] (nested limit (levels + 1)).expr := of_reads fun v hv => by
  obtain ⟨l, rfl, rfl⟩ := List.map_eq_singleton_iff.mp hv
  exact ⟨_, (nested_ready_one limit levels).expr (by simp) (Phrase.disjunction_literal ht)⟩

/-- A literal is read as an operand of `NOT`. -/
theorem literal_inversion : Takes (Stops 5) [t] (nested limit (levels + 1)).inversion := of_reads fun v hv => by
  obtain ⟨l, rfl, rfl⟩ := List.map_eq_singleton_iff.mp hv
  exact ⟨_, (nested_ready_one limit levels).inversion (by simp) (Phrase.inversion_literal ht)⟩

/-- A literal is read as an operand of a sign. -/
theorem literal_factor : Takes (Stops 2) [t] (nested limit (levels + 1)).factor := of_reads fun v hv => by
  obtain ⟨l, rfl, rfl⟩ := List.map_eq_singleton_iff.mp hv
  exact ⟨_, (nested_ready_one limit levels).factor (by simp) (Phrase.factor_literal ht)⟩

end

/-- A clause is left out before the keyword of a limit. -/
theorem limitOne {x : Terminal} {p : Parser α} {g : Option α → Parser β}
    (hx : (ofTerminal (.keyword .limit)).is x = false) (hg : ∀ a, Takes F LedgerQuery.limitOne (g a)) :
    Takes F LedgerQuery.limitOne (Parser.after x p >>= g) := by
  have hnone : Takes (fun t => t.is x = false) [] (Parser.after x p) :=
    of_stays fun s hs => ⟨none, _, bind_of_ok (accept_miss hs), rfl⟩
  exact hnone.bind LedgerQuery.limitOne hg (Completes.limit (F := F)).plain fun _ _ => hx

/-- A query of one integer and a limit is read. -/
theorem selectOne : Takes F LedgerQuery.selectOne (nested limit (levels + 2)).select := by
  have htargets : Takes (Stops 9) [.integer "1"] (Parser.targets (nested limit (levels + 1))) := of_reads fun v hv => by
    obtain ⟨l, rfl, hl⟩ := List.map_eq_singleton_iff.mp hv
    exact ⟨_, Reads.targets (nested_ready_one limit levels) (by simp)
      (Phrase.targets_single (Phrase.disjunction_literal (a := .integer 1) (by rw [hl]; rfl)))⟩
  have hone : ∀ t ∈ Token.integer "1" :: LedgerQuery.limitOne, t.Plain :=
    List.forall_mem_cons.mpr ⟨plain_one, (Completes.limit (F := F)).plain⟩
  refine ((Completes.expect (F := fun _ => True) rfl).takes ()).bind (.integer "1" :: LedgerQuery.limitOne)
    (fun _ => ?_) hone fun _ _ => trivial
  refine (Completes.accept.takes ()).bind _ (fun _ => ?_) hone fun _ _ => rfl
  refine htargets.bind LedgerQuery.limitOne (fun _ => ?_) (Completes.limit (F := F)).plain
    fun _ _ => Completes.stops_limit (by decide)
  refine limitOne rfl fun _ => limitOne rfl fun _ => limitOne rfl fun _ => limitOne rfl fun _ =>
    limitOne rfl fun _ => ?_
  exact ((Completes.limit (F := F)).takes ()).bind [] (fun _ => .pure _) (List.forall_mem_nil _) fun _ => id

end Takes

/-! ## Nesting -/

/-- Readers that read nothing are completed by what is read in their place. -/
theorem Completes.fail {E : α → β → Prop} {w : List Token} {p : Parser α} {q : Parser β} {f : Fault}
    (hp : p = Parser.fail f) (hplain : ∀ t ∈ w, t.Plain) (hw : Takes F w q) : Completes E w F p fun _ : Unit => q where
  sees _ := hp ▸ .fail
  completes _ := .of_stays (by rw [hp]; rfl)
  plain := hplain
  takes _ := hw

theorem nested_completes_zero (limit limit' levels : Nat) :
    (nested limit 0).Completes (nested limit' (levels + 2)) where
  sees := nested_sees False limit limit' (Nat.zero_le _)
  deeper := nested_tidy limit' (levels + 2)
  expr := .fail rfl (List.forall_mem_singleton.mpr plain_one) (.literal rfl)
  inversion := .fail rfl (List.forall_mem_singleton.mpr plain_one) (.literal_inversion rfl)
  factor := .fail rfl (List.forall_mem_singleton.mpr plain_one) (.literal_factor rfl)
  select := .fail rfl Completes.plain_selectOne .selectOne
  refuses _ _ _ := ⟨_, rfl, rfl⟩
  literal := .literal

/-- What readers under a limit read, readers that may go two levels deeper or more read with what completes it. -/
theorem nested_completes (limit limit' : Nat) : ∀ {m n}, m + 2 ≤ n → (nested limit m).Completes (nested limit' n)
  | 0, n + 2, _ => nested_completes_zero limit limit' n
  | m + 1, n + 3, hle =>
    have h := nested_completes limit limit' (m := m) (n := n + 2) (Nat.le_of_succ_le_succ hle)
    { sees := nested_sees False limit limit' (by omega)
      deeper := nested_tidy limit' (n + 3)
      expr := .disjunction h
      inversion := .inversion h
      factor := .factor h
      select := .selectQuery h
      refuses := fun _ _ hf => ⟨_, disjunction_refused _ hf, rfl⟩
      literal := .literal }

end LedgerQuery
