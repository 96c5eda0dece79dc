import LedgerQuery.Proofs.Reading.Heeds

/-!
# What was tried in expressions would have been read

Every reader of expressions reads what it tried in vain, if the readers one nesting level deeper do
(`Nested.Heeds`).  Some look further than at the next token, so that a sample after the tokens that were read
can change what they do.  In each case the sample is read then.

* A name is a call before a left parenthesis, and the arguments start with it.
* A literal in parentheses begins a list before a comma, and the list goes on with it.
-/

namespace LedgerQuery

open Token LedgerQuery.Parser

/-- Whether what the readers one nesting level deeper tried in vain, deeper ones read. -/
structure Nested.Heeds (G H : Nested) : Prop where
  /-- They find the like before any text that resumes alike. -/
  sees : G.Sees False H
  /-- They leave an end of what they were given. -/
  tidy : G.Tidy
  /-- Expressions. -/
  expr : LedgerQuery.Heeds Whatever G.expr H.expr
  /-- Operands of `NOT`. -/
  inversion : LedgerQuery.Heeds Whatever G.inversion H.inversion
  /-- Operands of signs. -/
  factor : LedgerQuery.Heeds Whatever G.factor H.factor
  /-- Queries. -/
  select : LedgerQuery.Heeds Whatever G.select H.select
  /-- Where a query begins, its reader moves, or it stops and lists nothing. -/
  starts : ∀ s : Input, (nextOf s.rest).is (.keyword .select) = true → leftOf (G.select s) ≠ s.rest ∨
    ∃ stop, G.select s = .error stop ∧ stop.rest = s.rest ∧ stop.fault.items = []
  /-- The first keyword of a query is read. -/
  opens : ∀ (s : Input) l, s.rest = [l] → l.token.is (.keyword .select) = true → leftOf (H.select s) = []
  /-- Where a literal is out of range, an expression stops and lists nothing. -/
  refuses : ∀ (s : Input) f, (nextOf s.rest).literal? = some (.error f) →
    ∃ stop, G.expr s = .error stop ∧ stop.rest = s.rest ∧ stop.fault.items = []

/-- The deeper readers leave an end of what they were given. -/
theorem Nested.Heeds.deeper {G H : Nested} (h : G.Heeds H) : H.Tidy :=
  ⟨h.expr.tidy, h.inversion.tidy, h.factor.tidy, h.select.tidy⟩

variable {α β γ δ : Type} {s t : Input}

namespace Heeds

/-! ## Values -/

theorem name : Heeds Eq Parser.name Parser.name := by
  refine token name_takesOr .name .name unexpected rfl (fun t f ht => ?_) (fun t _ r hr => ?_) (by decide)
  · cases h : t.name? <;> simp [h] at ht
  · cases h : t.name? <;> simp [h] at hr
    exact ⟨_, hr.symm⟩

theorem date : Heeds Eq Parser.date Parser.date := by
  refine token date_takesOr .date .date unexpected rfl (fun t f ht => ?_) (fun t ht r hr => ?_) (by decide)
  · cases t with
    | date written => exact dateOf_items (Option.some.inj ht)
    | _ => cases ht
  · cases t with
    | date written =>
      obtain ⟨a, ha⟩ := ht.literal?_ok (r := Literal.date <$> dateOf written) rfl
      obtain rfl := Option.some.inj hr
      cases hd : dateOf written with
      | ok d => exact ⟨d, rfl⟩
      | error f => rw [hd] at ha; cases ha
    | _ => cases hr

/-- A string is not refused for its value. -/
theorem textValue_ok {t : Token} {r : Except Fault String} (hr : textValue t = some r) : ∃ c, r = .ok c := by
  cases t <;> cases hr
  exact ⟨_, rfl⟩

theorem stringValue : Heeds Eq Parser.stringValue Parser.stringValue :=
  token stringValue_takesOr .stringValue .stringValue unexpected rfl
    (fun _ _ ht => (textValue_ok ht).elim fun _ h => nomatch h) (fun _ _ _ => textValue_ok) (by decide)

/-- A sample of an integer is in range. -/
theorem countOf_of_isSample {digits : String} (h : IsSample (.integer digits)) : ∃ n, countOf digits = .ok n := by
  obtain ⟨a, ha⟩ := h.literal?_ok (r := Literal.integer <$> integerOf digits) rfl
  cases hd : integerOf digits with
  | ok n => exact countOf_of_integerOf hd
  | error f =>
    rw [hd] at ha
    cases ha

/-- A reader that takes a number, or else goes on without it. -/
theorem number {found : UInt64 → α} {p k : Parser α} (hp : TakesOr numberValue found [.integer] p k)
    (hsees : Sees False Eq p p) (htidy : Tidy p) (hk : Heeds Eq k k) : Heeds Eq p p := by
  refine token hp hsees htidy hk rfl (fun t f ht => ?_) (fun t ht r hr => ?_) (by decide)
  · cases t with
    | integer digits => exact countOf_items (Option.some.inj ht)
    | _ => cases ht
  · cases t with
    | integer digits =>
      obtain rfl := Option.some.inj hr
      exact countOf_of_isSample ht
    | _ => cases hr

theorem count : Heeds Eq Parser.count Parser.count := number count_takesOr .count .count unexpected

theorem pivotKey : Heeds Eq Parser.pivotKey Parser.pivotKey :=
  number pivotKey_takesOr .pivotKey .pivotKey (andThen name fun _ => pure rfl)

theorem accountPattern : Heeds Eq Parser.accountPattern Parser.accountPattern :=
  token accountPattern_takesOr (accountPattern_takesOr.sees (.pure rfl) rfl fun _ => rfl) .accountPattern (pure rfl) rfl
    (fun _ _ ht => (textValue_ok ht).elim fun _ h => nomatch h) (fun _ _ _ => textValue_ok) (by decide)

/-! ## Literals -/

/-- A reader that takes a literal, or else goes on without it. -/
theorem literal {found : Literal → α} {e : Expected} {p k : Parser α} (hp : TakesOr Token.literal? found [e] p k)
    (hsees : Sees False Eq p p) (htidy : Tidy p) (hk : Heeds Eq k k) (he : e.sample.literal? ≠ none) :
    Heeds Eq p p :=
  token hp hsees htidy hk rfl (fun _ _ => literal?_items) (fun _ ht _ hr => ht.literal?_ok hr)
    fun _ he' => List.mem_singleton.mp he' ▸ he

theorem listItem : Heeds Eq Parser.listItem Parser.listItem :=
  literal listItem_takesOr .listItem .listItem (pure rfl) (by decide)

theorem literalAtom : Heeds Eq Parser.literalAtom Parser.literalAtom :=
  literal literalAtom_takesOr .literalAtom .literalAtom unexpected (by decide)

theorem optional_of_eq {p : Parser (Option α)} (h : Heeds Eq p p) : Heeds (Option.Rel Whatever) p p :=
  h.mono fun a _ hab => by
    subst hab
    cases a with
    | none => exact .none
    | some a => exact .some trivial

theorem literalListAfter : Heeds Whatever Parser.literalListAfter Parser.literalListAfter := by
  rw [literalListAfter_eq]
  exact andThen (literal firstLiteral_takesOr (firstLiteral_takesOr.sees .unexpected rfl fun _ => rfl) .firstLiteral unexpected (by decide)) fun _ =>
    bind (many_after rfl (listItem.mono fun _ _ _ => trivial)) fun _ _ => andThen (expect rfl) fun _ => pure trivial

theorem literalListTail (a : Literal) : Heeds Whatever (Parser.literalListTail a) (Parser.literalListTail a) :=
  andThen listItem fun _ => bind (many_after rfl (listItem.mono fun _ _ _ => trivial)) fun _ _ =>
    andThen (expect rfl) fun _ => pure trivial

/-! ## Operators -/

theorem suffix? : Heeds Eq Parser.suffix? Parser.suffix? := by
  refine andThen acceptQuietly fun b => ?_
  split
  · exact andThen name fun _ => pure rfl
  · refine andThen acceptQuietly fun b => ?_
    split
    · exact andThen stringValue fun _ => andThen (expect rfl) fun _ => pure rfl
    · exact pure rfl

theorem many_suffix? : Heeds Whatever (Parser.many Parser.suffix?) (Parser.many Parser.suffix?) :=
  many (optional_of_eq suffix?) Sees.suffix?_moves Sees.suffix?_moves

section
variable {p q : Parser Expr} (hp : Heeds Whatever p q)
include hp

theorem operation? (family : Symbol → Option BinaryOp) :
    Heeds (Option.Rel Whatever) (Parser.operation? family p) (Parser.operation? family q) := by
  have hafter : ∀ op, Heeds (Option.Rel Whatever) (do return some (op, ← p) : Parser (Option (BinaryOp × Expr)))
      (do return some (op, ← q)) := fun op => bind hp fun _ _ => pure (.some trivial)
  refine choice (fun t => ∃ x op, t = .symbol x ∧ family x = some op) [] (Pure.pure none) (Pure.pure none)
    ?_ (.operation? hp.tidy family) (pure .none) (by simp) (fun s l rest hs hS => ?_)
    (fun s l hs _ hS => ?_) (fun s hs => operation?_miss p hs) (fun s hs => operation?_miss q hs) (List.forall_mem_nil _)
  · refine (Sees.operation? family hp.sees False.elim).mono fun a b hab => ?_
    cases hab with
    | none => exact .none
    | some _ => exact .some trivial
  · obtain ⟨x, op, hl, hop⟩ := hS
    exact .step _ _ ⟨rest, [], l.span⟩ hs rfl (operation?_hit p hs hl hop)
      (fun s' l' rest' hs' hl' => ⟨⟨rest', [], l'.span⟩, rfl, operation?_hit q hs' (hl'.trans hl) hop⟩)
      ((hafter op).heeds _)
  · obtain ⟨x, op, hl, hop⟩ := hS
    rw [operation?_hit q hs hl hop]
    exact (hafter op).tidy.leftOf_eq_nil rfl

theorem leftGrouped (family : Symbol → Option BinaryOp) :
    Heeds Whatever (Parser.leftGrouped family p) (Parser.leftGrouped family q) :=
  bind hp fun _ _ => bind (many (operation? hp family) (Sees.operation?_moves hp.sees) (hp.tidy.operation?_moves family))
    fun _ _ => pure trivial

theorem connected (op : BoolOp) : Heeds Whatever (Parser.connected op p) (Parser.connected op q) := by
  refine bind hp fun _ _ => bind (many_afterQuietly hp) fun es fs => ?_
  cases es <;> cases fs <;> exact pure trivial

theorem suffixed : Heeds Whatever (Parser.suffixed p) (Parser.suffixed q) :=
  bind hp fun _ _ => bind many_suffix? fun _ _ => pure trivial

end

/-! ## Atoms -/

section
variable {G H : Nested} (h : G.Heeds H)
include h

theorem argumentsAfter : Heeds Whatever (Parser.argumentsAfter G) (Parser.argumentsAfter H) := by
  refine andThen (accept rfl) fun b => ?_
  split
  · exact andThen (expect rfl) fun _ => pure trivial
  · refine andThen (accept rfl) fun b => ?_
    split
    · exact pure trivial
    · exact bind (commaList h.expr) fun _ _ => andThen (expect rfl) fun _ => pure trivial

theorem callAfter (n : String) : Heeds Whatever (Parser.callAfter G n) (Parser.callAfter H n) :=
  bind (argumentsAfter h) fun _ _ => pure trivial

/-- A name is read, or a call whose arguments begin after a sample. -/
theorem nameOrCall {l : Lexeme} {rest : List Lexeme} {n : String} (hs : s.rest = l :: rest)
    (hn : l.token.name? = some n) : HeedsAt Whatever s (Parser.nameOrCall G) (Parser.nameOrCall H) := by
  cases hcall : (nextOf rest).is (.symbol .leftParen) with
  | true =>
    rcases rest with _ | ⟨m, rest⟩
    · cases hcall
    refine .steps [l, m] ⟨rest, [], m.span⟩ hs rfl (nameOrCall_call G hs hn hcall)
      (fun s' v rest' hs' hv => ?_) ((callAfter h n).heeds _)
    obtain ⟨l', v, rfl, hl, hv⟩ := List.map_eq_cons_iff.mp hv
    obtain ⟨m', rfl, hm⟩ := List.map_eq_singleton_iff.mp hv
    exact ⟨_, rfl, nameOrCall_call H hs' (hl ▸ hn) (hm ▸ hcall)⟩
  | false =>
    have hp := nameOrCall_column G hs hn hcall
    refine ⟨[l], by rw [hp]; exact hs, fun s' v m hs' hv _ hhalts => ?_⟩
    obtain ⟨l', rfl, hl⟩ := List.map_eq_singleton_iff.mp hv
    cases hm : m.token.is (.symbol .leftParen) with
    | true =>
      rw [nameOrCall_call H hs' (hl ▸ hn) hm] at hhalts
      exact absurd ((callAfter h n).tidy.leftOf_eq_nil rfl) hhalts.left
    | false =>
      rw [hp]
      refine ⟨fun e (he : e ∈ []) _ => (nomatch he), ?_⟩
      rintro _ _ ⟨⟩
      exact ⟨_, _, nameOrCall_column H hs' (hl ▸ hn) hm, rfl, trivial⟩

theorem nameOrCall_moves {l : Lexeme} {rest : List Lexeme} {n : String} (hs : s.rest = l :: rest)
    (hn : l.token.name? = some n) : leftOf (Parser.nameOrCall G s) ≠ s.rest := by
  refine ne_of_apply_ne List.length (Nat.ne_of_lt ?_)
  rw [hs, List.length_cons]
  cases hcall : (nextOf rest).is (.symbol .leftParen) with
  | true =>
    rcases rest with _ | ⟨m, rest⟩
    · cases hcall
    rw [nameOrCall_call G hs hn hcall]
    have hle := (Tidy.bind (Tidy.argumentsAfter h.tidy) fun as => .pure (Expr.function n as)).length_le ⟨rest, [], m.span⟩
    exact Nat.lt_succ_of_le (hle.trans (Nat.le_succ _))
  | false =>
    rw [nameOrCall_column G hs hn hcall]
    exact Nat.lt_succ_self _

theorem atom : Heeds Whatever (Parser.atom G) (Parser.atom H) := by
  refine choice (fun t => t.is (.keyword .select) = true ∨ t.isName = true ∨ (∃ pl, t = .placeholder pl) ∨
      t = .symbol .leftParen) [] Parser.literalAtom Parser.literalAtom
    ((Sees.atom h.sees).mono fun _ _ _ => trivial) (.atom h.deeper) (literalAtom.mono fun _ _ _ => trivial) ?_
    (fun s l rest hs hS => ?_) (fun s l hs _ hS => ?_) (fun s hS => ?_) (fun s hS => ?_) (List.forall_mem_nil _)
  · simp [is, terminal?, isName, name?]
  · have hnext : nextOf s.rest = l.token := by rw [hs]; rfl
    have same : ∀ {s' : Input} {l' : Lexeme} {rest'}, s'.rest = l' :: rest' → l'.token = l.token → nextOf s'.rest = l.token :=
      fun hs' hl' => by rw [hs']; exact hl'
    rcases hS with hselect | hname | ⟨pl, hpl⟩ | hparen
    · rw [← hnext] at hselect
      rcases h.starts s hselect with hmoved | ⟨stop, hstop, hrest, hitems⟩
      · refine .of_moved ((bind h.select fun _ _ => pure trivial).heeds s) (atom_select G hselect) ?_
          fun s' hs' => atom_select H (hs' ▸ hselect)
        rwa [leftOf_map]
      · exact .of_error _ (by rw [atom_select G hselect, bind_of_error hstop]) ⟨[], hrest.symm⟩ hitems
    · obtain ⟨n, hn⟩ := Option.isSome_iff_exists.mp hname
      rw [← hnext] at hname
      exact .of_moved (nameOrCall h hs hn) (atom_name G hname) (nameOrCall_moves h hs hn)
        fun s' hs' => atom_name H (hs' ▸ hname)
    · exact .step (Pure.pure (.placeholder pl)) (Pure.pure (.placeholder pl)) ⟨rest, [], l.span⟩ hs rfl
        (atom_placeholder G hs hpl)
        (fun s' l' rest' hs' hl' => ⟨⟨rest', [], l'.span⟩, rfl, atom_placeholder H hs' (hl'.trans hpl)⟩) (.pure trivial)
    · have hl : l.token.is (.symbol .leftParen) = true := is_symbol_iff.mpr hparen
      refine .step _ _ ⟨rest, [], l.span⟩ hs rfl ((atom_leftParen G (hnext.trans hparen)).trans (literalList_hit hs hl))
        (fun s' l' rest' hs' hl' => ⟨⟨rest', [], l'.span⟩, rfl, ?_⟩) (literalListAfter.heeds _)
      exact (atom_leftParen H ((same hs' hl').trans hparen)).trans (literalList_hit hs' (hl' ▸ hl))
  · have hnext : nextOf s.rest = l.token := by rw [hs]; rfl
    rcases hS with hselect | hname | ⟨pl, hpl⟩ | hparen
    · rw [atom_select H (hnext ▸ hselect), leftOf_map, h.opens s l hs hselect]
    · obtain ⟨n, hn⟩ := Option.isSome_iff_exists.mp hname
      rw [atom_name H (hnext ▸ hname), nameOrCall_column H hs hn rfl]
      rfl
    · rw [atom_placeholder H hs hpl]
      rfl
    · rw [atom_leftParen H (hnext.trans hparen), literalList_hit hs (is_symbol_iff.mpr hparen)]
      exact literalListAfter.tidy.leftOf_eq_nil rfl
  · simp only [not_or, not_exists] at hS
    exact atom_other G (by simpa using hS.1) (by simpa using hS.2.1) hS.2.2.1 hS.2.2.2
  · simp only [not_or, not_exists] at hS
    exact atom_other H (by simpa using hS.1) (by simpa using hS.2.1) hS.2.2.1 hS.2.2.2

theorem primary : Heeds Whatever (Parser.primary G) (Parser.primary H) := suffixed (atom h)

/-! ## Factors -/

theorem group : Heeds Whatever (Parser.group G) (Parser.group H) :=
  bind h.expr fun _ _ => andThen (expect rfl) fun _ => pure trivial

omit h in
/-- A list of literals is read as such before any text, once its comma was read. -/
theorem factor_list (hs : listNext s = true) : HeedsAt Whatever s (Parser.factor G) (Parser.factor H) := by
  obtain ⟨l, m, n, rest, hr, hl, hm, hn⟩ := exists_of_listNext hs
  have hp := Parser.factor_list G hs
  obtain ⟨r, hliteral⟩ := Option.isSome_iff_exists.mp ((isLiteral_eq m.token).symm.trans hm)
  cases r with
  | error f =>
    rw [primary_refused G hr hl hliteral] at hp
    exact .of_error _ hp ⟨[l], hr⟩ (literal?_items hliteral)
  | ok a =>
    rw [primary_list G hr hl hliteral hn] at hp
    refine .steps [l, m, n] ⟨rest, [], n.span⟩ hr rfl hp (fun s' v rest' hs' hv => ?_)
      ((suffixed (literalListTail a)).heeds _)
    obtain ⟨l', v, rfl, hl', hv⟩ := List.map_eq_cons_iff.mp hv
    obtain ⟨m', v, rfl, hm', hv⟩ := List.map_eq_cons_iff.mp hv
    obtain ⟨n', rfl, hn'⟩ := List.map_eq_singleton_iff.mp hv
    have hs'' : listNext s' = true := by
      rw [listNext_of_cons hs', hl', hm', hn', hl, hm, hn]
      rfl
    exact ⟨_, rfl, (Parser.factor_list H hs'').trans
      (primary_list H hs' (hl' ▸ hl) (hm' ▸ hliteral) (hn' ▸ hn))⟩

/-- A parenthesis that begins no list goes on with an expression.  A comma after a literal would make it a list, and
then the comma is read. -/
theorem factor_group {l : Lexeme} {rest : List Lexeme} (hs : s.rest = l :: rest) (hl : l.token = .symbol .leftParen)
    (hlist : listNext s = false) : HeedsAt Whatever s (Parser.factor G) (Parser.factor H) := by
  obtain ⟨u, hu, hrun⟩ := (group h).heeds ⟨rest, [], l.span⟩
  replace hu : rest = u ++ leftOf (Parser.group G ⟨rest, [], l.span⟩) := hu
  rw [HeedsAt, Parser.factor_group G hlist hs hl]
  refine ⟨l :: u, by rw [hs]; exact congrArg (l :: ·) hu, fun s' x k hs' hx hk hhalts => ?_⟩
  obtain ⟨l', v, rfl, hl', hv⟩ := List.map_eq_cons_iff.mp hx
  cases hlist' : listNext s' with
  | false =>
    rw [Parser.factor_group H hlist' hs' (hl'.trans hl)] at hhalts ⊢
    obtain ⟨hmissed, hok⟩ := hrun _ v k rfl hv hk hhalts
    exact ⟨fun e he hle => absurd (hmissed e he hle).2 List.not_mem_nil, hok⟩
  | true =>
    rcases v with _ | ⟨m', _ | ⟨n', v⟩⟩
    · obtain ⟨_, _, _, _, hr, -⟩ := exists_of_listNext hlist'
      rw [hs'] at hr
      cases hr
    · obtain ⟨m, rfl, hm⟩ := List.map_eq_singleton_iff.mp hv.symm
      have hnext := listNext_of_cons (s := s') hs'
      rw [hlist', eq_comm, Bool.and_eq_true, Bool.and_eq_true] at hnext
      obtain ⟨⟨hparen, hliteral⟩, hcomma⟩ := hnext
      obtain ⟨r, hr⟩ := Option.isSome_iff_exists.mp ((isLiteral_eq m'.token).symm.trans hliteral)
      cases r with
      | error f =>
        -- a literal that is out of range is not read
        have hnext : nextOf rest = m'.token := by
          rw [hu]
          exact hm
        obtain ⟨stop, hstop, hrest, -⟩ := h.refuses ⟨rest, [], l.span⟩ f (hnext.symm ▸ hr)
        have hgroup : Parser.group G ⟨rest, [], l.span⟩ = .error stop := bind_of_error hstop
        rw [hgroup, leftOf, hrest] at hu
        exact absurd (congrArg List.length hu) (by simp)
      | ok a =>
        rw [Parser.factor_list H hlist', primary_list H hs' hparen hr hcomma] at hhalts
        exact absurd ((suffixed (literalListTail a)).tidy.leftOf_eq_nil rfl) hhalts.left
    · obtain ⟨m, u, rfl, hm, hu'⟩ := List.map_eq_cons_iff.mp hv.symm
      obtain ⟨n, u, rfl, hn, -⟩ := List.map_eq_cons_iff.mp hu'
      rw [hu] at hs
      rw [listNext_of_cons hs, hm, hn, ← hl', ← listNext_of_cons hs', hlist'] at hlist
      cases hlist

theorem factor : Heeds Whatever (Parser.factor G) (Parser.factor H) := by
  refine choice (· ∈ [Token.symbol .leftParen, .symbol .minus, .symbol .plus]) [] (Parser.primary G)
    (Parser.primary H) ((Sees.factor h.sees).mono fun _ _ _ => trivial) (.factor h.deeper) (primary h) (by decide)
    (fun s l rest hs hS => ?_) (fun s l hs _ hS => ?_) (fun s hS => Parser.factor_other G hS)
    (fun s hS => Parser.factor_other H hS) (List.forall_mem_nil _)
  · simp only [List.mem_cons, List.not_mem_nil, or_false] at hS
    rcases hS with hl | hl | hl
    · cases hlist : listNext s with
      | true => exact factor_list hlist
      | false => exact factor_group h hs hl hlist
    · exact .step _ _ ⟨rest, [], l.span⟩ hs rfl (factor_minus G hs hl)
        (fun s' l' rest' hs' hl' => ⟨⟨rest', [], l'.span⟩, rfl, factor_minus H hs' (hl'.trans hl)⟩)
        ((bind h.factor fun _ _ => pure trivial).heeds _)
    · exact .step _ _ ⟨rest, [], l.span⟩ hs rfl (factor_plus G hs hl)
        (fun s' l' rest' hs' hl' => ⟨⟨rest', [], l'.span⟩, rfl, factor_plus H hs' (hl'.trans hl)⟩) (h.factor.heeds _)
  · simp only [List.mem_cons, List.not_mem_nil, or_false] at hS
    rcases hS with hl | hl | hl
    · have hlist : listNext s = false := by
        rw [← Bool.not_eq_true]
        intro hlist
        obtain ⟨_, _, _, _, hr, -⟩ := exists_of_listNext hlist
        rw [hs] at hr
        cases hr
      rw [Parser.factor_group H hlist hs hl]
      exact (group h).tidy.leftOf_eq_nil rfl
    · rw [factor_minus H hs hl]
      exact (Tidy.map h.deeper.factor).leftOf_eq_nil rfl
    · rw [factor_plus H hs hl]
      exact h.deeper.factor.leftOf_eq_nil rfl

theorem sum : Heeds Whatever (Parser.sum G) (Parser.sum H) := leftGrouped (leftGrouped (factor h) _) _

/-! ## Comparisons -/

omit h in
theorem nullTest : Heeds Eq Parser.nullTest Parser.nullTest :=
  andThen (accept rfl) fun _ => andThen (expect rfl) fun _ => pure rfl

omit h in
theorem comparison? : Heeds Eq Parser.comparison? Parser.comparison? where
  sees := .comparison?
  tidy := .comparison?
  heeds s := by
    cases hc : compares s.rest with
    | true =>
      obtain ⟨u, rest, p, hs, -, hbegins⟩ := exists_comparisonBegins hc
      obtain ⟨span, hp⟩ := comparison?_hit hbegins hs rfl
      have hafter : ∀ {ts}, ComparisonBegins ts p → Heeds Eq p p := fun hbegins => by
        cases hbegins with
        | is => exact andThen nullTest fun _ => pure rfl
        | _ => exact pure rfl
      refine .steps _ ⟨rest, [], span⟩ hs rfl hp (fun s' v rest' hs' hv => ?_) ((hafter hbegins).heeds _)
      obtain ⟨span', hq⟩ := comparison?_hit hbegins hs' hv
      exact ⟨_, rfl, hq⟩
    | false =>
      exact .of_found (comparison?_miss hc) rfl fun s' l hs' hl =>
        comparison?_miss (hs' ▸ hl.compares_eq_false)

omit h in
/-- What was found, unless a comparison follows. -/
theorem unlessComparison {E : α → β → Prop} {a : α} {b : β} {f : Fault} (hf : f.items = []) (hab : E a b) :
    Heeds E (do if ← atComparison then Parser.fail f else return a)
      (do if ← atComparison then Parser.fail f else return b) where
  sees := .unlessComparison hab
  tidy := by
    refine .bind .atComparison fun c => ?_
    split
    · exact .fail hf
    · exact .pure _
  heeds s := by
    cases hc : compares s.rest with
    | true => exact .of_error _ (by rw [unlessComparison_eq, if_pos hc]) ⟨[], rfl⟩ hf
    | false =>
      refine .of_found (by rw [unlessComparison_eq, if_neg (by simp [hc])]) hab fun s' l hs' hl => ?_
      rw [unlessComparison_eq, if_neg (by simp [hs', hl.compares_eq_false])]

theorem compared (left left' : Expr) (c : Comparison) :
    Heeds Whatever (Parser.compared G left c) (Parser.compared H left' c) := by
  cases c with
  | binary op => exact bind (sum h) fun _ _ => pure trivial
  | null op => exact pure trivial
  | between =>
    exact bind (sum h) fun _ _ => andThen (expect rfl) fun _ => bind (sum h) fun _ _ => pure trivial

theorem comparison : Heeds Whatever (Parser.comparison G) (Parser.comparison H) := by
  refine bind (sum h) fun left left' => andThen comparison? fun o => ?_
  cases o with
  | none => exact pure trivial
  | some c => exact bind (compared h left left' c) fun _ _ => unlessComparison rfl trivial

theorem inversion : Heeds Whatever (Parser.inversion G) (Parser.inversion H) := by
  refine andThen acceptQuietly fun b => ?_
  split
  · exact bind h.inversion fun _ _ => pure trivial
  · exact comparison h

theorem disjunction : Heeds Whatever (Parser.disjunction G) (Parser.disjunction H) :=
  connected (connected (inversion h) _) _

end

end Heeds

end LedgerQuery
