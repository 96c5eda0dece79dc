import LedgerQuery.Proofs.Reading.LookaheadExpr

/-!
# How far the readers of queries look

The readers of clauses and statements find the same before any text that resumes alike.  Then so do all
readers under a limit, and readers that may go deeper find the same again (`nested_sees`).
-/

namespace LedgerQuery

open Token LedgerQuery.Parser

variable {α β : Type} {w : Prop} {s : Input}

theorem nth_zero (s : Input) : s.nth 0 = nextOf s.rest := next_eq_nextOf s

/-- Where a single lexeme is read, another one with its token is read beside it. -/
theorem Beside.single {s' : Input} {rest rest' : List Lexeme} (hb : Beside s s' rest rest')
    (hone : s.rest.length = rest.length + 1) :
    ∃ l l', s.rest = l :: rest ∧ s'.rest = l' :: rest' := by
  obtain ⟨u, u', hu, hu', hmap⟩ := hb
  obtain ⟨l, rfl⟩ : ∃ l, u = [l] := List.length_eq_one_iff.mp (by
    rw [hu, List.length_append] at hone
    omega)
  obtain ⟨l', rfl, -⟩ := List.map_eq_singleton_iff.mp hmap
  exact ⟨l, l', hu, hu'⟩

/-- What is in range for a literal is in range for a number of a target. -/
theorem countOf_of_integerOf {digits : String} {n : Int64} (h : integerOf digits = .ok n) :
    ∃ c, countOf digits = .ok c := by
  unfold integerOf at h
  unfold countOf
  dsimp only at h ⊢
  split at h
  · next hn =>
    have : digitsValue digits.toList < UInt64.size := by
      have hmax : Int64.maxValue.toInt = 9223372036854775807 := rfl
      have hsize : UInt64.size = 18446744073709551616 := rfl
      omega
    exact ⟨_, if_pos this⟩
  · cases h

theorem take_ok_of_cons {l : Lexeme} {rest : List Lexeme} (hs : s.rest = l :: rest) (a : α) :
    Parser.take (.ok a) s = .ok (a, ⟨rest, [], l.span⟩) := by
  obtain ⟨_, tried, last⟩ := s
  obtain rfl := hs
  rfl

namespace Parser

/-- The end of a pivot, after its second key. -/
def pivotEnd (row column : PivotKey) : Parser PivotBy := do
  if (← peek).is (.symbol .comma) then fail .pivotArity
  else return ⟨row, column⟩

/-- The rest of a pivot, after its first key. -/
def pivotRest (row : PivotKey) : Parser PivotBy := do
  if (← peek).is (.symbol .comma) then
    advance
    let column ← pivotKey
    pivotEnd row column
  else fail .pivotArity

end Parser

namespace Sees

/-! ## Dates and keys -/

theorem openDate : Sees w Eq Parser.openDate Parser.openDate := andThen (expect _) fun _ => date

theorem closing : Sees w Eq Parser.closing Parser.closing := by
  refine andThen (accept _) fun b => ?_
  split
  · exact andThen date fun _ => pure rfl
  · exact pure rfl

theorem sortDirection : Sees w Eq Parser.sortDirection Parser.sortDirection := by
  refine andThen (accept _) fun b => ?_
  split
  · exact pure rfl
  · exact andThen (accept _) fun _ => pure rfl

theorem pivotKey_moves : Moves Parser.pivotKey := by
  intro s k t hs
  unfold Parser.pivotKey at hs
  rw [Parser.peek_bind] at hs
  have hname : ∀ {s t}, (do
      Parser.record .integer
      return PivotKey.column (← Parser.name)) s = .ok (k, t) → t.rest.length < s.rest.length := by
    intro s t hs
    obtain ⟨_, s₁, h₁, h₂⟩ := bind_eq_ok.mp hs
    obtain rfl : { s with tried := .integer :: s.tried } = s₁ := by simpa [Parser.record] using h₁
    obtain ⟨n, s₂, h₃, h₄⟩ := bind_eq_ok.mp h₂
    obtain ⟨-, rfl⟩ := pure_eq_ok.mp h₄
    have hlt := name_moves _ n s₂ h₃
    exact hlt
  cases hn : nextOf s.rest with
  | integer digits =>
    rw [hn] at hs
    obtain ⟨n, s₁, h₁, h₂⟩ := bind_eq_ok.mp hs
    obtain ⟨-, rfl⟩ := pure_eq_ok.mp h₂
    exact Moves.take (by simp [hn]) h₁
  | _ =>
    rw [hn] at hs
    exact hname hs

theorem pivotKey : Sees w Eq Parser.pivotKey Parser.pivotKey := by
  intro s
  refine .peek_bind_moves ?_ fun k t hs => pivotKey_moves s k t ((Parser.peek_bind _ s).trans hs)
  split
  · next hn => exact .bind (.take (by simp [hn]) _) fun _ s₁ _ _ h => pure (congrArg PivotKey.index h) s₁
  · exact andThen (record _) (fun _ => andThen name fun _ => pure rfl) s

section
variable {E : PivotBy → PivotBy → Prop} {row row' : PivotKey}

theorem pivotEnd {column column' : PivotKey} (hE : E ⟨row, column⟩ ⟨row', column'⟩) :
    Sees w E (Parser.pivotEnd row column) (Parser.pivotEnd row' column') := by
  refine fun s => .peek_bind ?_ fun p t hs ht s' hs' => ?_
  · split
    · exact fail s
    · exact pure hE s
  · split at hs
    · exact absurd hs fail_ne_ok
    · obtain ⟨rfl, -⟩ := pure_eq_ok.mp hs
      exact ⟨_, s', by rw [hs'.not_is fun _ => by decide]; rfl, rfl, hE⟩

theorem pivotRest (hE : ∀ column, E ⟨row, column⟩ ⟨row', column⟩) :
    Sees w E (Parser.pivotRest row) (Parser.pivotRest row') := by
  have hcolumn : Sees w E (Parser.pivotKey >>= Parser.pivotEnd row) (Parser.pivotKey >>= Parser.pivotEnd row') :=
    andThen pivotKey fun column => pivotEnd (hE column)
  refine fun s => .peek_bind_moves ?_ fun p t hs => ?_
  · split
    · next hx => exact .bind (.advance (ne_eof_of_is hx)) fun _ s₁ _ _ _ => hcolumn s₁
    · exact fail s
  · split at hs
    · next hx =>
      obtain ⟨_, s₁, h₁, h₂⟩ := bind_eq_ok.mp hs
      have hlt := Moves.advance_length (ne_eof_of_is hx) h₁
      have hle := (hcolumn s₁).length_le h₂
      omega
    · exact absurd hs fail_ne_ok

end

theorem pivotBy : Sees w Eq Parser.pivotBy Parser.pivotBy :=
  andThen (expect _) fun _ => andThen pivotKey fun _ => pivotRest fun _ => rfl

section
variable {G H : Nested} (h : G.Sees w H) {digits : String}
include h

theorem expressionKey_moves {k : ColumnKey} {t : Input}
    (hs : (do return ColumnKey.expr (← G.expr) : Parser ColumnKey) s = .ok (k, t)) :
    t.rest.length < s.rest.length := by
  obtain ⟨e, s₁, h₁, h₂⟩ := bind_eq_ok.mp hs
  obtain ⟨-, rfl⟩ := pure_eq_ok.mp h₂
  exact h.exprMoves s e s₁ h₁

omit h in
theorem numberKey_moves {k : ColumnKey} {t : Input} (hn : nextOf s.rest = .integer digits)
    (hs : (do return ColumnKey.index (← Parser.take (countOf digits)) : Parser ColumnKey) s = .ok (k, t)) :
    t.rest.length + 1 = s.rest.length := by
  obtain ⟨n, s₁, h₁, h₂⟩ := bind_eq_ok.mp hs
  obtain ⟨-, rfl⟩ := pure_eq_ok.mp h₂
  obtain ⟨-, l, rest, hr, rfl⟩ := take_eq_ok h₁ (by simp [hn])
  simp [hr]

omit h in
/-- A key that begins with an integer is told by the token after it. -/
theorem columnKey_integer (K : Nested) (hn : nextOf s.rest = .integer digits) :
    Parser.columnKey K s = if (s.nth 1).continuesExpression = true
      then (do return ColumnKey.expr (← K.expr) : Parser ColumnKey) s
      else (do return ColumnKey.index (← Parser.take (countOf digits)) : Parser ColumnKey) s := by
  unfold Parser.columnKey
  rw [Parser.peek_bind, hn]
  show (if (s.nth 1).continuesExpression = true then _ else _ : Parser ColumnKey) s = _
  split <;> rfl

omit h in
/-- A key that begins with no integer is an expression. -/
theorem columnKey_other (K : Nested) (hn : ∀ digits, nextOf s.rest ≠ .integer digits) :
    Parser.columnKey K s = (do return ColumnKey.expr (← K.expr) : Parser ColumnKey) s := by
  unfold Parser.columnKey
  rw [Parser.peek_bind]
  cases ht : nextOf s.rest with
  | integer digits => exact absurd ht (hn digits)
  | _ => rfl

theorem columnKey_moves : Moves (Parser.columnKey G) := by
  intro s k t hs
  cases hn : nextOf s.rest with
  | integer digits =>
    rw [columnKey_integer G hn] at hs
    split at hs
    · exact expressionKey_moves h hs
    · have := numberKey_moves hn hs
      omega
  | _ =>
    rw [columnKey_other G (by simp [hn])] at hs
    exact expressionKey_moves h hs

theorem columnKey : Sees w (Like w ColumnKey.plain) (Parser.columnKey G) (Parser.columnKey H) := by
  intro s k t hs
  have hexpr : Sees w (Like w ColumnKey.plain) (do return ColumnKey.expr (← G.expr) : Parser ColumnKey)
      (do return ColumnKey.expr (← H.expr)) := bind h.expr fun _ _ he => pure (.columnKey he)
  have hlt := columnKey_moves h s k t hs
  by_cases hn : ∃ digits, nextOf s.rest = .integer digits
  · obtain ⟨digits, hn⟩ := hn
    have hindex : SeesAt w (Like w ColumnKey.plain) s
        (do return ColumnKey.index (← Parser.take (countOf digits)) : Parser ColumnKey)
        (do return ColumnKey.index (← Parser.take (countOf digits))) :=
      .bind (.take (by simp [hn]) _) fun _ s₁ _ _ hk => hk ▸ pure (.refl _) s₁
    have hn' : ∀ {s' rest'}, Beside s s' t.rest rest' → nextOf s'.rest = .integer digits := fun hb =>
      (hb.next fun he => by rw [he] at hlt; exact Nat.lt_irrefl _ hlt).trans hn
    rw [columnKey_integer G hn] at hs
    split at hs
    · next hc =>
      obtain ⟨hu, hrun⟩ := hexpr s k t hs
      refine ⟨hu, fun s' rest' hb hr => ?_⟩
      rw [columnKey_integer H (hn' hb)]
      split
      · exact hrun s' rest' hb hr
      · -- the integer was all that was read, and then only a `NOT` goes on with it
        next hc' =>
        obtain ⟨e, s₁, h₁, h₂⟩ := bind_eq_ok.mp hs
        obtain ⟨-, rfl⟩ := pure_eq_ok.mp h₂
        have hone : s.rest.length = s₁.rest.length + 1 := by
          by_contra hne
          exact hc' (by rwa [hb.nth (n := 1) (by omega)])
        obtain ⟨⟨n, hi⟩, hnot⟩ := h.integer h₁ hn hone
        obtain ⟨l, l', hs₁, hs'⟩ := hb.single hone
        rw [nth_one, hs₁] at hc
        rw [nth_one, hs'] at hc'
        rcases hr with ⟨hsame, -⟩ | ⟨-, hw⟩
        · exact absurd (hsame.symm ▸ hc) hc'
        · obtain ⟨c, hcount⟩ := countOf_of_integerOf hi
          refine ⟨.index c, ⟨rest', [], l'.span⟩, ?_, rfl, fun hw' => ?_⟩
          · rw [hcount]
            exact bind_eq_ok.mpr ⟨c, _, by rw [take_ok_of_cons hs'], rfl⟩
          · exact absurd (hnot hc) (hw hw')
    · next hc =>
      have hone := numberKey_moves hn hs
      obtain ⟨hu, hrun⟩ := hindex k t hs
      refine ⟨hu, fun s' rest' hb hr => ?_⟩
      rw [columnKey_integer H (hn' hb), if_neg ?_]
      · exact hrun s' rest' hb hr
      · obtain ⟨l, l', hs₁, hs'⟩ := hb.single hone.symm
        rw [nth_one, hs₁] at hc
        rw [nth_one, hs']
        rcases hr with ⟨hsame, -⟩ | ⟨rfl | ⟨-, hclose⟩, -⟩
        · exact fun h => hc (hsame ▸ h)
        · exact Bool.false_ne_true
        · rw [List.tail_cons, hclose]
          exact Bool.false_ne_true
  · have hn : ∀ digits, nextOf s.rest ≠ .integer digits := fun digits h => hn ⟨digits, h⟩
    rw [columnKey_other G hn] at hs
    obtain ⟨hu, hrun⟩ := hexpr s k t hs
    refine ⟨hu, fun s' rest' hb hr => ?_⟩
    rw [columnKey_other H]
    · exact hrun s' rest' hb hr
    · rwa [hb.next fun he => by rw [he] at hlt; exact Nat.lt_irrefl _ hlt]

/-! ## Targets and sources -/

theorem target : Sees w (Like w Target.plain) (Parser.target G) (Parser.target H) :=
  bind nextSpan fun _ _ _ => bind h.expr fun _ _ he => andThen (after_eq _ name) fun n =>
    bind lastSpan fun _ _ _ => pure (.target he n _ _)

theorem targets : Sees w (Like w Targets.plain) (Parser.targets G) (Parser.targets H) := by
  refine andThen (accept _) fun b => ?_
  split
  · exact pure (.refl _)
  · exact bind (commaList (target h)) fun _ _ hs => pure (.targets hs)

theorem entryFilter : Sees w (Like w EntryFilter.plain) (Parser.entryFilter G) (Parser.entryFilter H) := by
  refine andThen (accept _) fun b => ?_
  split
  · exact andThen openDate fun _ => andThen (after_eq _ closing) fun _ => andThen (accept _) fun _ =>
      pure (.refl _)
  · refine andThen (accept _) fun b => ?_
    split
    · exact andThen closing fun _ => andThen (accept _) fun _ => pure (.refl _)
    · refine andThen (accept _) fun b => ?_
      split
      · exact pure (.refl _)
      · exact bind h.expr fun _ _ he => andThen (after_eq _ openDate) fun o =>
          andThen (after_eq _ closing) fun c => andThen (accept _) fun b => pure (.filter (.some he) o c b)

omit h in
/-- A reader that moves on if it accepts a terminal, or else in the reader that follows. -/
theorem accept_moves {x : Terminal} {f : Bool → Parser α}
    (htrue : Sees w (fun _ _ => True) (f true) (f true)) (hfalse : Moves (f false)) :
    Moves (Parser.accept x >>= f) := by
  intro s a t hs
  obtain ⟨b, s₁, h₁, h₂⟩ := bind_eq_ok.mp hs
  rcases accept_eq_ok h₁ with ⟨rfl, l, rest, hl, -, rfl⟩ | ⟨rfl, -, hr, -⟩
  · have hle := (htrue _).length_le h₂
    rw [hl, List.length_cons]
    exact Nat.lt_succ_of_le hle
  · rw [← hr]
    exact hfalse s₁ a t h₂

omit h in
/-- The modifiers after the expression of a filter. -/
theorem modifiers {e f : Expr} (he : Like w Expr.plain e f) : Sees w (Like w EntryFilter.plain)
    (do
      let openOn ← Parser.after (.keyword .open) Parser.openDate
      let close ← Parser.after (.keyword .close) Parser.closing
      return ⟨some e, openOn, close, ← Parser.accept (.keyword .clear)⟩)
    (do
      let openOn ← Parser.after (.keyword .open) Parser.openDate
      let close ← Parser.after (.keyword .close) Parser.closing
      return EntryFilter.mk (some f) openOn close (← Parser.accept (.keyword .clear))) :=
  andThen (after_eq _ openDate) fun o => andThen (after_eq _ closing) fun c =>
    andThen (accept _) fun b => pure (.filter (.some he) o c b)

theorem entryFilter_moves : Moves (Parser.entryFilter G) := by
  refine accept_moves (w := w) (andThen openDate fun _ => andThen (after_eq _ closing) fun _ =>
    andThen (accept _) fun _ => pure trivial) ?_
  refine accept_moves (w := w) (andThen closing fun _ => andThen (accept _) fun _ => pure trivial) ?_
  refine accept_moves (w := w) (pure trivial) ?_
  exact h.exprMoves.bind fun e => modifiers (w := w) (Like.refl e)

omit h in
theorem atQuery_eq (s : Input) : Parser.atQuery s = .ok ((s.nth 0).is (.symbol .leftParen) &&
    (s.nth 1).is (.keyword .select), s) := rfl

omit h in
/-- A source that is no table is a query in parentheses or a filter. -/
theorem source_other (K : Nested) (hn : ∀ name, nextOf s.rest ≠ .table name) :
    Parser.source K s = (if ((s.nth 0).is (.symbol .leftParen) && (s.nth 1).is (.keyword .select)) = true then do
        Parser.advance
        let query ← K.select
        Parser.expect (.symbol .rightParen)
        return Source.query query
      else do
        Parser.record .table
        return Source.entries (← Parser.entryFilter K) : Parser Source) s := by
  unfold Parser.source
  rw [Parser.peek_bind]
  cases ht : nextOf s.rest with
  | table name => exact absurd ht (hn name)
  | _ => rfl

/-- A query in parentheses has two more tokens. -/
theorem query_length {t : Input} {a : Source} (hparen : (s.nth 0).is (.symbol .leftParen) = true)
    (hs : (do
      Parser.advance
      let query ← G.select
      Parser.expect (.symbol .rightParen)
      return Source.query query : Parser Source) s = .ok (a, t)) : t.rest.length + 3 ≤ s.rest.length := by
  obtain ⟨_, s₁, h₁, h₂⟩ := bind_eq_ok.mp hs
  obtain ⟨q, s₂, h₃, h₄⟩ := bind_eq_ok.mp h₂
  obtain ⟨_, s₃, h₅, h₆⟩ := bind_eq_ok.mp h₄
  obtain ⟨-, rfl⟩ := pure_eq_ok.mp h₆
  have hlt := Moves.advance_length (ne_eof_of_is (nth_zero s ▸ hparen)) h₁
  have hlt' := h.selectMoves s₁ q s₂ h₃
  have hlt'' := moves_expect _ s₂ _ s₃ h₅
  omega

theorem source_moves : Moves (Parser.source G) := by
  intro s a t hs
  by_cases hn : ∃ name, nextOf s.rest = .table name
  · obtain ⟨name, hn⟩ := hn
    unfold Parser.source at hs
    rw [Parser.peek_bind, hn] at hs
    exact Moves.take (by simp [hn]) hs
  · rw [source_other G fun name h => hn ⟨name, h⟩] at hs
    split at hs
    · next hb =>
      have := query_length h (Bool.and_eq_true_iff.mp hb).1 hs
      omega
    · obtain ⟨_, s₁, h₁, h₂⟩ := bind_eq_ok.mp hs
      obtain ⟨f, s₂, h₃, h₄⟩ := bind_eq_ok.mp h₂
      obtain ⟨-, rfl⟩ := pure_eq_ok.mp h₄
      obtain rfl : { s with tried := .table :: s.tried } = s₁ := by simpa [Parser.record] using h₁
      have hlt := entryFilter_moves h _ f s₂ h₃
      exact hlt

theorem source : Sees w (Like w Source.plain) (Parser.source G) (Parser.source H) := by
  intro s
  refine .peek_bind_moves ?_ fun a t hs => source_moves h s a t ((Parser.peek_bind _ s).trans hs)
  split
  · next hn => exact (SeesAt.take (by simp [hn]) _).mono fun _ _ ha => ha ▸ .refl _
  · next hn =>
    refine SeesAt.look atQuery_eq ?_ fun a t s' rest' hs hb hr => ?_
    · split
      · next hb =>
        obtain ⟨hparen, -⟩ := Bool.and_eq_true_iff.mp hb
        refine .bind (.advance (ne_eof_of_is (nth_zero s ▸ hparen))) fun _ s₁ _ _ _ => ?_
        exact bind h.select (fun _ _ hq => andThen (expect _) fun _ => pure (.query hq)) s₁
      · exact andThen (record _) (fun _ => bind (entryFilter h) fun _ _ hf => pure (.entries hf)) s
    · have hlt := source_moves h s a t ((source_other G hn).trans hs)
      rw [hb.nth (n := 0) (by omega)]
      cases hparen : (s.nth 0).is (.symbol .leftParen) with
      | false => rfl
      | true =>
        cases hselect : (s.nth 1).is (.keyword .select) with
        | false => rw [hb.nth_not_is hr (by omega) hselect fun _ => by decide]
        | true =>
          rw [hparen, hselect] at hs
          have := query_length h hparen hs
          rw [hb.nth (n := 1) (by omega), hselect]

/-! ## Clauses -/

theorem groupBy : Sees w (Like w GroupBy.plain) (Parser.groupBy G) (Parser.groupBy H) :=
  andThen (expect _) fun _ => bind (commaList (columnKey h)) fun _ _ hks =>
    bind (after _ h.expr) fun _ _ he => pure (.groupBy hks he)

theorem sortKey : Sees w (Like w SortKey.plain) (Parser.sortKey G) (Parser.sortKey H) :=
  bind (columnKey h) fun _ _ hk => andThen sortDirection fun d => pure (.sortKey hk d)

theorem orderBy : Sees w (List.Forall₂ (Like w SortKey.plain)) (Parser.orderBy G) (Parser.orderBy H) :=
  andThen (expect _) fun _ => commaList (sortKey h)

theorem selectQuery : Sees w (Like w Select.plain) (Parser.selectQuery G) (Parser.selectQuery H) ∧
    Moves (Parser.selectQuery G) :=
  expect_bind (andThen (accept _) fun d => bind (targets h) fun _ _ ht =>
    bind (after _ (source h)) fun _ _ ha => bind (after _ h.expr) fun _ _ hc =>
    bind (after _ (groupBy h)) fun _ _ hg => bind (after _ (orderBy h)) fun _ _ ho =>
    andThen (after_eq _ pivotBy) fun p => andThen (after_eq _ count) fun l =>
    pure (.select d p l ht ha hc hg ho))

end

end Sees

/-- What readers under a limit find, readers that may go at least as deep find before any text that resumes
alike. -/
theorem nested_sees (w : Prop) (limit limit' : Nat) : ∀ {m n}, m ≤ n →
    (nested limit m).Sees w (nested limit' n)
  | 0, _, _ => ⟨Sees.fail, Sees.fail, Sees.fail, Sees.fail, fun _ _ _ h => absurd h fail_ne_ok,
      fun _ _ _ h => absurd h fail_ne_ok, fun h => absurd h fail_ne_ok⟩
  | _ + 1, _ + 1, hle =>
    have h := nested_sees w limit limit' (Nat.le_of_succ_le_succ hle)
    ⟨Sees.disjunction h, Sees.inversion h, Sees.factor h, (Sees.selectQuery h).1, Sees.disjunction_moves h,
      (Sees.selectQuery h).2, Sees.disjunction_single h⟩

end LedgerQuery
