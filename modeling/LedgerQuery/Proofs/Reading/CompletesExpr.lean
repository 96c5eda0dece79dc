import LedgerQuery.Proofs.Reading.Completes

/-!
# Completing expressions

Every reader of expressions can be completed, if the readers one nesting level deeper can (`Nested.Completes`).
What completes an expression of which nothing was read is the integer 1.

Where a reader looks further than at the next token, what completes it must not change what it did.

* After a parenthesis and a literal no comma follows, so that they do not become a list.
* After a name no parenthesis follows (`Stops 1`).
* The number of tokens between the operator of a comparison and its end depends on the operator
  (`Comparison.rest`).
-/

namespace LedgerQuery

open Token LedgerQuery.Parser

/-- What completes a query without a limit. -/
abbrev limitOne : List Token := [.ofTerminal (.keyword .limit), .integer "1"]

/-- What completes a query of which nothing was read. -/
abbrev selectOne : List Token := .ofTerminal (.keyword .select) :: .integer "1" :: limitOne

/-- Whether what the readers one nesting level deeper read can be completed for deeper ones. -/
structure Nested.Completes (G H : Nested) : Prop where
  /-- They find the like before any text that resumes alike. -/
  sees : G.Sees False H
  /-- The deeper ones leave an end of what they were given. -/
  deeper : H.Tidy
  /-- Expressions. -/
  expr : LedgerQuery.Completes Whatever [.integer "1"] (Stops 7) G.expr fun _ : Unit => H.expr
  /-- Operands of `NOT`. -/
  inversion : LedgerQuery.Completes Whatever [.integer "1"] (Stops 5) G.inversion fun _ : Unit => H.inversion
  /-- Operands of signs. -/
  factor : LedgerQuery.Completes Whatever [.integer "1"] (Stops 2) G.factor fun _ : Unit => H.factor
  /-- Queries, after which any token may follow. -/
  select : LedgerQuery.Completes Whatever selectOne (fun _ => True) G.select fun _ : Unit => H.select
  /-- Where a literal is out of range, an expression stops. -/
  refuses : ∀ (s : Input) f, (nextOf s.rest).literal? = some (.error f) →
    ∃ stop, G.expr s = .error stop ∧ stop.rest = s.rest
  /-- A literal is an expression. -/
  literal : ∀ {t : Token} {a}, t.literal? = some (.ok a) → Takes (Stops 7) [t] H.expr

/-- What is written after the operator of a comparison. -/
def Parser.Comparison.rest : Comparison → List Token
  | .binary _ => [.integer "1"]
  | .null _ => []
  | .between => [.integer "1", .ofTerminal (.keyword .and), .integer "1"]

variable {ι α β γ δ : Type} {s t : Input}

theorem CompletesAt.map {E : α → β → Prop} {F : Token → Prop} {p : Parser α} {q : ι → Parser β} {f : α → γ}
    {g : ι → β → δ} (hsees : ∀ i, SeesAt False E s p (q i)) (hp : CompletesAt F s p q) :
    CompletesAt F s (p >>= fun a => Pure.pure (f a)) fun i => q i >>= fun b => Pure.pure (g i b) :=
  .bind [] hsees hp (fun _ _ _ => .of_stays rfl) (List.forall_mem_nil _) (fun _ _ => .pure _) fun _ => id

namespace Completes

variable {E : α → β → Prop} {F F' : Token → Prop} {w : List Token}

/-- A reader that is the same as one that finds something without reading. -/
theorem stays {p : Parser α} {q : ι → Parser β} {a : α} (hp : p = Pure.pure a)
    (hq : ∀ i, ∃ b, q i = Pure.pure b ∧ E a b) : Completes E [] F p q where
  sees i := by
    obtain ⟨b, hb, hab⟩ := hq i
    rw [hp, hb]
    exact .pure hab
  completes s := .of_stays (by rw [hp]; rfl)
  plain := List.forall_mem_nil _
  takes i := by
    obtain ⟨b, hb, -⟩ := hq i
    rw [hb]
    exact .pure b

/-! ## Values -/

/-- A reader that takes the value of the next token, or else goes on without it. -/
theorem token {value : Token → Option (Except Fault γ)} {found : γ → α} {es : List Expected} {p k : Parser α}
    {t₀ : Token} {c₀ : γ} (hp : TakesOr value found es p k) (hk : Sees False Eq k k)
    (hk' : ∀ s, CompletesAt F s k fun _ : Unit => k) (heof : value .eof = none) (ht₀ : value t₀ = some (.ok c₀))
    (hplain : t₀.Plain) : Completes Eq [t₀] F p fun _ : Unit => p where
  sees _ := hp.sees hk heof False.elim
  completes s := by
    cases hv : value (nextOf s.rest) with
    | none =>
      exact .skip _ _ (s.trying es) rfl (hp.miss hv)
        (fun _ s' hs' => ⟨s'.trying es, rfl, hp.miss (hs'.symm ▸ hv)⟩) (hk' _)
    | some r =>
      cases r with
      | error f => exact .of_stays (by rw [hp.refused hv]; rfl)
      | ok c =>
        cases hs : s.rest with
        | nil => rw [hs] at hv; exact absurd (heof.symm.trans hv) (by simp)
        | cons l rest =>
          rw [hs] at hv
          replace hv : value l.token = some (.ok c) := hv
          exact .token hs (hp.hit hs hv) fun _ _ _ _ hs' hl' => ⟨_, rfl, hp.hit hs' (hl' ▸ hv)⟩
  plain t ht := by
    obtain rfl := List.mem_singleton.mp ht
    exact hplain
  takes _ := .step (Pure.pure (found c₀))
    (fun s l rest hs hl => ⟨⟨rest, [], l.span⟩, rfl, hp.hit hs (hl ▸ ht₀)⟩) (.pure _)

theorem name : Completes Eq [.ident "a"] F Parser.name fun _ : Unit => Parser.name :=
  token name_takesOr .unexpected (fun _ => .of_stays rfl) rfl rfl (IsSample.plain ⟨.identifier, rfl, rfl⟩)

theorem date : Completes Eq [.date "2000-01-01"] F Parser.date fun _ : Unit => Parser.date :=
  token date_takesOr .unexpected (fun _ => .of_stays rfl) rfl rfl (IsSample.plain ⟨.date, rfl, rfl⟩)

theorem plain_empty : (Token.string ⟨"", .single⟩).Plain := IsSample.plain ⟨.string, rfl, rfl⟩

theorem stringValue : Completes Eq [.string ⟨"", .single⟩] F Parser.stringValue fun _ : Unit => Parser.stringValue :=
  token stringValue_takesOr .unexpected (fun _ => .of_stays rfl) rfl rfl plain_empty

theorem accountPattern :
    Completes Eq [.string ⟨"", .single⟩] F Parser.accountPattern fun _ : Unit => Parser.accountPattern :=
  token accountPattern_takesOr (.pure rfl) (fun _ => .of_stays rfl) rfl rfl plain_empty

theorem count : Completes Eq [.integer "1"] F Parser.count fun _ : Unit => Parser.count :=
  token count_takesOr .unexpected (fun _ => .of_stays rfl) rfl rfl plain_one

theorem pivotKey : Completes Eq [.integer "1"] F Parser.pivotKey fun _ : Unit => Parser.pivotKey :=
  token pivotKey_takesOr (.andThen .name fun _ => .pure rfl)
    (fun s => .map (fun i => (name (F := F)).sees i s) ((name (F := F)).completes s)) rfl rfl plain_one

/-! ## Literals -/

theorem listItem : Completes Eq [.integer "1"] F Parser.listItem fun _ : Unit => Parser.listItem :=
  token listItem_takesOr (.pure rfl) (fun _ => .of_stays rfl) rfl rfl plain_one

theorem literalAtom : Completes Eq [.integer "1"] F Parser.literalAtom fun _ : Unit => Parser.literalAtom :=
  token literalAtom_takesOr .unexpected (fun _ => .of_stays rfl) rfl rfl plain_one

/-- The items of a list of literals after the first one, and its parenthesis. -/
theorem literalItems {f : List (Option Literal) → Expr} {g : ι → List (Option Literal) → Expr} :
    Completes Whatever [.ofTerminal (.symbol .rightParen)] F
      (do
        let others ← Parser.many (Parser.after (.symbol .comma) Parser.listItem)
        Parser.expect (.symbol .rightParen)
        return f others)
      fun i => do
        let others ← Parser.many (Parser.after (.symbol .comma) Parser.listItem)
        Parser.expect (.symbol .rightParen)
        return g i others :=
  .optionally (·.is (.symbol .comma) = false) (many_after listItem .listItem fun _ ht => ⟨ht, trivial⟩)
    (fun _ => expecting rfl (pure fun _ => trivial)) fun _ _ => rfl

theorem literalListAfter : Completes Whatever [.integer "1", .symbol .rightParen] F Parser.literalListAfter
    fun _ : Unit => Parser.literalListAfter := by
  rw [literalListAfter_eq]
  exact .bind [.integer "1"] (fun _ => True)
    (token firstLiteral_takesOr .unexpected (fun _ => .of_stays rfl) rfl rfl plain_one) (fun _ => literalItems)
    fun _ _ => trivial

theorem literalListTail (a : Literal) : Completes Whatever [.integer "1", .symbol .rightParen] F
    (Parser.literalListTail a) fun _ : Unit => Parser.literalListTail a :=
  .bind [.integer "1"] (fun _ => True) listItem (fun _ => literalItems) fun _ _ => trivial

/-! ## Operators -/

theorem suffix? : Completes (Option.Rel Whatever) [] (Stops 2) Parser.suffix? fun _ : Unit => Parser.suffix? := by
  refine acceptQuietlyElse (map name fun _ _ _ => .some trivial) ?_ fun t ht => ht.not_is (by decide)
  exact acceptQuietlyElse (.bind _ (fun _ => True) stringValue
    (fun _ => expecting rfl (pure fun _ => .some trivial)) fun _ _ => trivial) (pure fun _ => .none)
    fun t ht => ht.not_is (by decide)

theorem many_suffix? :
    Completes Whatever [] (Stops 2) (Parser.many Parser.suffix?) fun _ : Unit => Parser.many Parser.suffix? := by
  refine many suffix? Sees.suffix?_moves Sees.suffix?_moves (fun _ => id) fun s hs => ⟨s, ?_, rfl⟩
  exact (bind_of_ok (acceptQuietly_miss (hs.not_is (by decide)))).trans
    (bind_of_ok (acceptQuietly_miss (hs.not_is (by decide))))

section
variable {p q : Parser Expr}

theorem suffixed (hp : Completes Whatever w (Stops 1) p fun _ : Unit => q) :
    Completes Whatever w (Stops 2) (Parser.suffixed p) fun _ : Unit => Parser.suffixed q :=
  andMore hp (fun _ => map many_suffix? fun _ _ _ => trivial) fun t ht => ht.mono (by decide)

variable (hp : Completes Whatever w F p fun _ : Unit => q)
include hp

theorem operation? (family : Symbol → Option BinaryOp) :
    Completes (Option.Rel Whatever) [] (fun t => (∀ y, t = .symbol y → family y = none) ∧ F t)
      (Parser.operation? family p) fun _ : Unit => Parser.operation? family q where
  sees _ := (Sees.operation? family (hp.sees ()) False.elim).mono fun a b hab => by
    cases hab with
    | none => exact .none
    | some _ => exact .some trivial
  completes s := by
    have hoperand : ∀ op : BinaryOp, Completes (Option.Rel Whatever) w F (do return some (op, ← p))
        fun _ : Unit => do return some (op, ← q) := fun op => map hp fun _ _ _ => .some trivial
    by_cases hn : ∃ y op, nextOf s.rest = .symbol y ∧ family y = some op
    · obtain ⟨y, op, hn, hop⟩ := hn
      obtain ⟨l, rest, hs, hn⟩ := exists_cons_of_next hn (by simp)
      exact .step _ _ ⟨rest, [], l.span⟩ hs (operation?_hit p hs hn hop)
        (fun _ s' l' rest' hs' hl' => ⟨⟨rest', [], l'.span⟩, rfl, operation?_hit q hs' (hl'.trans hn) hop⟩)
        (((hoperand op).completes _).mono fun _ ht => ht.2) (hoperand op).plain
        fun i => ((hoperand op).takes i).mono fun _ ht => ht.2
    · exact .of_stays (by rw [operation?_miss p hn]; rfl)
  plain := List.forall_mem_nil _
  takes _ := .of_stays fun s hs => ⟨_, _, operation?_miss q (by
    rintro ⟨y, op, hn, hop⟩
    rw [hs.1 y hn] at hop
    cases hop), rfl⟩

theorem leftGrouped (family : Symbol → Option BinaryOp) (hq : Tidy q) {F' : Token → Prop}
    (hF : ∀ t, F' t → (∀ y, t = .symbol y → family y = none) ∧ F t) :
    Completes Whatever w F' (Parser.leftGrouped family p) fun _ : Unit => Parser.leftGrouped family q := by
  have hmany : Completes Whatever [] F' (Parser.many (Parser.operation? family p))
      fun _ : Unit => Parser.many (Parser.operation? family q) :=
    many (operation? hp family) (Sees.operation?_moves (hp.sees ())) (hq.operation?_moves family) hF fun s hs =>
      ⟨s, operation?_miss q (by
        rintro ⟨y, op, hn, hop⟩
        rw [(hF _ hs).1 y hn] at hop
        cases hop), rfl⟩
  exact andMore hp (fun _ => map hmany fun _ _ _ => trivial) fun t ht => (hF t ht).2

theorem connected (op : BoolOp) (hq : Tidy q) (F' : Token → Prop)
    (hF : ∀ t, F' t → t.is (.keyword op.key) = false ∧ F t) :
    Completes Whatever w F' (Parser.connected op p) fun _ : Unit => Parser.connected op q := by
  refine andMore hp (fun _ => andMore (many_afterQuietly hp hq hF) (fun as => ?_) fun _ => id) fun t ht => (hF t ht).2
  cases as with
  | nil => exact stays rfl fun ⟨_, bs⟩ => by cases bs <;> exact ⟨_, rfl, trivial⟩
  | cons a as => exact stays rfl fun ⟨_, bs⟩ => by cases bs <;> exact ⟨_, rfl, trivial⟩

end

/-! ## Atoms -/

section
variable {G H : Nested} (h : G.Completes H)
include h

theorem argumentsAfter : Completes Whatever [.integer "1", .symbol .rightParen] F (Parser.argumentsAfter G)
    fun _ : Unit => Parser.argumentsAfter H := by
  refine acceptElse (expecting rfl (pure fun _ => trivial)) ?_ fun _ _ => rfl
  refine acceptElse (pure fun _ => trivial) ?_ fun _ _ => rfl
  exact bind [.integer "1"] (Stops 9)
    (commaList h.expr h.deeper.expr fun t ht => ⟨ht.not_is (by decide), ht.mono (by decide)⟩)
    (fun _ => expecting (x := .symbol .rightParen) rfl (pure fun _ => trivial))
    fun _ _ => (by decide : Stops 9 (.symbol .rightParen))

theorem callAfter (n : String) : Completes Whatever [.integer "1", .symbol .rightParen] F (Parser.callAfter G n)
    fun _ : Unit => Parser.callAfter H n := map (argumentsAfter h) fun _ _ _ => trivial

/-- A name is complete if no parenthesis follows, and a call is completed after its parenthesis. -/
theorem nameOrCall {l : Lexeme} {rest : List Lexeme} {n : String} (hs : s.rest = l :: rest)
    (hn : l.token.name? = some n) :
    CompletesAt (Stops 1) s (Parser.nameOrCall G) fun _ : Unit => Parser.nameOrCall H := by
  cases hcall : (nextOf rest).is (.symbol .leftParen) with
  | true =>
    rcases rest with _ | ⟨m, rest⟩
    · cases hcall
    have hafter : Completes Whatever _ (Stops 1) _ _ := callAfter h n
    refine .steps [l, m] ⟨rest, [], m.span⟩ hs (nameOrCall_call G hs hn hcall)
      (fun _ s' v rest' hs' hv => ?_) (hafter.completes _) hafter.plain hafter.takes
    obtain ⟨l', v, rfl, hl, hv⟩ := List.map_eq_cons_iff.mp hv
    obtain ⟨m', rfl, hm⟩ := List.map_eq_singleton_iff.mp hv
    exact ⟨_, rfl, nameOrCall_call H hs' (hl ▸ hn) (hm ▸ hcall)⟩
  | false =>
    refine ⟨[l], by rw [nameOrCall_column G hs hn hcall]; exact hs, fun _ => ⟨[], List.forall_mem_nil _, ?_⟩⟩
    intro _ s' v rest' hs' hv hr _
    obtain ⟨l', rfl, hl⟩ := List.map_eq_singleton_iff.mp hv
    exact ⟨_, _, nameOrCall_column H hs' (hl ▸ hn) (hr.not_is (by decide)), rfl⟩

theorem atom : Completes Whatever [.integer "1"] (Stops 1) (Parser.atom G) fun _ : Unit => Parser.atom H where
  sees _ := (Sees.atom h.sees).mono fun _ _ _ => trivial
  completes s := by
    by_cases hselect : (nextOf s.rest).is (.keyword .select) = true
    · refine .skip _ _ s rfl (atom_select G hselect) (fun _ s' hs' => ⟨s', rfl, atom_select H (hs' ▸ hselect)⟩) ?_
      exact (CompletesAt.map (fun _ => h.sees.select s) (h.select.completes s)).mono fun _ _ => trivial
    by_cases hname : (nextOf s.rest).isName = true
    · refine .skip _ _ s rfl (atom_name G hname) (fun _ s' hs' => ⟨s', rfl, atom_name H (hs' ▸ hname)⟩) ?_
      obtain ⟨n, hn⟩ := Option.isSome_iff_exists.mp hname
      obtain ⟨l, rest, hs, hl⟩ := exists_cons_of_next rfl (fun heof => by rw [heof] at hn; cases hn)
      exact nameOrCall h hs (hl ▸ hn)
    by_cases hplaceholder : ∃ pl, nextOf s.rest = .placeholder pl
    · obtain ⟨pl, hpl⟩ := hplaceholder
      obtain ⟨l, rest, hs, hpl⟩ := exists_cons_of_next hpl (by simp)
      exact .token hs (atom_placeholder G hs hpl) fun _ _ _ _ hs' hl' =>
        ⟨_, rfl, atom_placeholder H hs' (hl'.trans hpl)⟩
    by_cases hparen : nextOf s.rest = .symbol .leftParen
    · obtain ⟨l, rest, hs, hl⟩ := exists_cons_of_next hparen (by simp)
      have hafter : Completes Whatever _ (Stops 1) _ _ := literalListAfter
      refine .step _ _ ⟨rest, [], l.span⟩ hs
        ((atom_leftParen G hparen).trans (literalList_hit hs (is_symbol_iff.mpr hl)))
        (fun _ s' l' rest' hs' hl' => ⟨⟨rest', [], l'.span⟩, rfl, ?_⟩) (hafter.completes _) hafter.plain hafter.takes
      rw [hl] at hl'
      exact (atom_leftParen H (by rw [hs']; exact hl')).trans (literalList_hit hs' (is_symbol_iff.mpr hl'))
    have hother : ∀ K {s' : Input}, nextOf s'.rest = nextOf s.rest → Parser.atom K s' = Parser.literalAtom s' :=
      fun K s' hs' => atom_other K (hs' ▸ Bool.eq_false_iff.mpr hselect) (hs' ▸ Bool.eq_false_iff.mpr hname)
        (fun pl hpl => hplaceholder ⟨pl, hs' ▸ hpl⟩) (hs' ▸ hparen)
    exact .skip _ _ s rfl (hother G rfl) (fun _ s' hs' => ⟨s', rfl, hother H hs'⟩) (literalAtom.completes s)
  plain := List.forall_mem_singleton.mpr plain_one
  takes _ := .skip _ (fun s ⟨_, _, hs⟩ => ⟨s, rfl, atom_other H (by rw [hs]; rfl) (by rw [hs]; rfl)
    (by simp [hs]) (by simp [hs])⟩) (literalAtom.takes ())

theorem primary : Completes Whatever [.integer "1"] (Stops 2) (Parser.primary G) fun _ : Unit => Parser.primary H :=
  suffixed (atom h)

/-! ## Factors -/

theorem group : Completes Whatever [.integer "1", .symbol .rightParen] F (Parser.group G)
    fun _ : Unit => Parser.group H :=
  bind [.integer "1"] (Stops 7) h.expr
    (fun _ => expecting (x := .symbol .rightParen) rfl (pure fun _ => trivial))
    fun _ _ => (by decide : Stops 7 (.symbol .rightParen))

omit h in
/-- A parenthesis and what follows it, if no list begins with these tokens. -/
theorem takes_group {ts : List Token} (hts : Takes F ts (Parser.group H)) (hlist : ∀ (s : Input) l v rest,
      s.rest = l :: (v ++ rest) → v.map Lexeme.token = ts → listNext s = false) :
    Takes F (.symbol .leftParen :: ts) (Parser.factor H) := by
  intro s x rest hs hx hr hin
  obtain ⟨l, v, rfl, hl, hv⟩ := List.map_eq_cons_iff.mp hx
  rw [Parser.factor_group H (hlist s l v rest hs hv) hs hl]
  exact hts _ _ rest rfl hv hr hin

omit h in
/-- An expression and a right parenthesis. -/
theorem takes_closed {ts : List Token} (hts : Takes (Stops 7) ts H.expr) :
    Takes F (ts ++ [.symbol .rightParen]) (Parser.group H) := by
  have hclose : ∀ e : Expr, Completes Whatever [.ofTerminal (.symbol .rightParen)] F
      (do Parser.expect (.symbol .rightParen); return e)
      fun _ : Unit => do Parser.expect (.symbol .rightParen); return e :=
    fun e => expecting rfl (pure fun _ => trivial)
  exact hts.bind _ (fun e => (hclose e).takes ()) (hclose default).plain
    fun _ _ => (by decide : Stops 7 (.symbol .rightParen))

/-- A parenthesis is completed by an integer and the other parenthesis. -/
theorem takes_leftParen :
    Takes F [.symbol .leftParen, .integer "1", .symbol .rightParen] (Parser.factor H) := by
  refine takes_group ((group h).takes ()) fun s l v rest hs hv => ?_
  obtain ⟨m, v, rfl, hm, hv⟩ := List.map_eq_cons_iff.mp hv
  obtain ⟨n, rfl, hn⟩ := List.map_eq_singleton_iff.mp hv
  rw [listNext_of_cons hs, hm, hn]
  exact Bool.and_false _

/-- A list of literals is completed after its first comma.  If its first literal is out of range, only the parenthesis
was read. -/
theorem factor_list (hs : listNext s = true) :
    CompletesAt (Stops 2) s (Parser.factor G) fun _ : Unit => Parser.factor H := by
  obtain ⟨l, m, n, rest, hr, hl, hm, hn⟩ := exists_of_listNext hs
  have hp := Parser.factor_list G hs
  obtain ⟨r, hliteral⟩ := Option.isSome_iff_exists.mp ((isLiteral_eq m.token).symm.trans hm)
  cases r with
  | error f =>
    rw [primary_refused G hr hl hliteral] at hp
    refine ⟨[l], by rw [hp]; exact hr, fun _ => ⟨_, (group h (F := Stops 2)).plain, fun _ => ?_⟩⟩
    rw [List.map_singleton, is_symbol_iff.mp hl]
    exact takes_leftParen h
  | ok a =>
    rw [primary_list G hr hl hliteral hn] at hp
    have hafter := suffixed (literalListTail (F := Stops 1) a)
    refine .steps [l, m, n] ⟨rest, [], n.span⟩ hr hp (fun _ s' v rest' hs' hv => ?_)
      (hafter.completes _) hafter.plain hafter.takes
    obtain ⟨l', v, rfl, hl', hv⟩ := List.map_eq_cons_iff.mp hv
    obtain ⟨m', v, rfl, hm', hv⟩ := List.map_eq_cons_iff.mp hv
    obtain ⟨n', rfl, hn'⟩ := List.map_eq_singleton_iff.mp hv
    have hs'' : listNext s' = true := by
      rw [listNext_of_cons hs', hl', hm', hn', hl, hm, hn]
      rfl
    exact ⟨_, rfl, (Parser.factor_list H hs'').trans
      (primary_list H hs' (hl' ▸ hl) (hm' ▸ hliteral) (hn' ▸ hn))⟩

/-- An expression in parentheses.  After a single literal the parenthesis is closed, so that no list begins. -/
theorem factor_group {l : Lexeme} {rest : List Lexeme} (hs : s.rest = l :: rest) (hl : l.token = .symbol .leftParen)
    (hlist : listNext s = false) :
    CompletesAt (Stops 2) s (Parser.factor G) fun _ : Unit => Parser.factor H := by
  obtain ⟨u, hu, hrun⟩ := (group h (F := Stops 2)).completes ⟨rest, [], l.span⟩
  replace hu : rest = u ++ leftOf (Parser.group G ⟨rest, [], l.span⟩) := hu
  rw [CompletesAt, Parser.factor_group G hlist hs hl]
  refine ⟨l :: u, by rw [hs]; exact congrArg (l :: ·) hu, fun _ => ?_⟩
  rw [List.map_cons, hl]
  rcases u with _ | ⟨m, _ | ⟨n, u⟩⟩
  · exact ⟨_, (group h (F := Stops 2)).plain, fun _ => takes_leftParen h⟩
  · cases hm : m.token.isLiteral with
    | false =>
      obtain ⟨w, hplain, hw⟩ := hrun (List.cons_ne_nil _ _)
      refine ⟨w, hplain, fun i => takes_group (hw i) fun s' l' v rest' hs' hv => ?_⟩
      obtain ⟨m', v, rfl, hm', -⟩ := List.map_eq_cons_iff.mp hv
      exact listNext_of_not_literal hs' (hm' ▸ hm)
    | true =>
      obtain ⟨r, hr⟩ := Option.isSome_iff_exists.mp ((isLiteral_eq m.token).symm.trans hm)
      have hnext : nextOf rest = m.token := by rw [hu]; rfl
      cases r with
      | error f =>
        obtain ⟨stop, hstop, hrest⟩ := h.refuses ⟨rest, [], l.span⟩ f (hnext.symm ▸ hr)
        have hgroup : Parser.group G ⟨rest, [], l.span⟩ = .error stop := bind_of_error hstop
        rw [hgroup, leftOf, hrest] at hu
        exact absurd (congrArg List.length hu) (by simp)
      | ok a =>
        -- the expression is that literal
        refine ⟨[.symbol .rightParen], List.forall_mem_singleton.mpr (plain_of_isOrdinary (x := .symbol .rightParen) rfl),
          fun _ => takes_group (takes_closed (h.literal hr)) fun s' l' v rest' hs' hv => ?_⟩
        obtain ⟨m', v, rfl, hm', hv⟩ := List.map_eq_cons_iff.mp hv
        obtain ⟨n', rfl, hn'⟩ := List.map_eq_singleton_iff.mp hv
        rw [listNext_of_cons hs', hn']
        exact Bool.and_false _
  · obtain ⟨w, hplain, hw⟩ := hrun (List.cons_ne_nil _ _)
    refine ⟨w, hplain, fun i => takes_group (hw i) fun s' l' v rest' hs' hv => ?_⟩
    obtain ⟨m', v, rfl, hm', hv⟩ := List.map_eq_cons_iff.mp hv
    obtain ⟨n', v, rfl, hn', -⟩ := List.map_eq_cons_iff.mp hv
    rw [hu] at hs
    rw [listNext_of_cons hs, hl] at hlist
    replace hlist : (m.token.isLiteral && n.token.is (.symbol .comma)) = false := hlist
    rw [listNext_of_cons hs', hm', hn', Bool.and_assoc, hlist]
    exact Bool.and_false _

theorem factor : Completes Whatever [.integer "1"] (Stops 2) (Parser.factor G) fun _ : Unit => Parser.factor H where
  sees _ := (Sees.factor h.sees).mono fun _ _ _ => trivial
  completes s := by
    by_cases hs : nextOf s.rest ∈ [Token.symbol .leftParen, .symbol .minus, .symbol .plus]
    · obtain ⟨l, rest, hr, hl⟩ := exists_cons_of_next rfl (fun heof => by rw [heof] at hs; exact absurd hs (by decide))
      rw [← hl] at hs
      simp only [List.mem_cons, List.not_mem_nil, or_false] at hs
      rcases hs with hl | hl | hl
      · cases hlist : listNext s with
        | true => exact factor_list h hlist
        | false => exact factor_group h hr hl hlist
      · have hafter : Completes Whatever _ (Stops 2) (do return Expr.unary .neg (← G.factor)) fun _ : Unit =>
            do return Expr.unary .neg (← H.factor) := map h.factor fun _ _ _ => trivial
        exact .step _ _ ⟨rest, [], l.span⟩ hr (factor_minus G hr hl) (fun _ s' l' rest' hs' hl' =>
          ⟨⟨rest', [], l'.span⟩, rfl, factor_minus H hs' (hl'.trans hl)⟩) (hafter.completes _) hafter.plain hafter.takes
      · exact .step _ _ ⟨rest, [], l.span⟩ hr (factor_plus G hr hl) (fun _ s' l' rest' hs' hl' =>
          ⟨⟨rest', [], l'.span⟩, rfl, factor_plus H hs' (hl'.trans hl)⟩) (h.factor.completes _) h.factor.plain
          h.factor.takes
    · exact .skip _ _ s rfl (Parser.factor_other G hs) (fun _ s' hs' => ⟨s', rfl, Parser.factor_other H (hs' ▸ hs)⟩)
        ((primary h).completes s)
  plain := (primary h).plain
  takes _ := by
    refine .skip _ (fun s ⟨_, _, hs⟩ => ⟨s, rfl, Parser.factor_other H ?_⟩) ((primary h).takes ())
    rw [hs]
    show Token.integer "1" ∉ _
    decide

omit h in
/-- No operator of a family follows where a reader of its rank stops. -/
theorem family_eq_none {family : Symbol → Option BinaryOp} {n : Nat} {t : Token} (ht : Stops n t)
    (hfamily : ∀ y, n < y.rank → family y = none) (y : Symbol) (hy : t = .symbol y) : family y = none := by
  subst hy
  exact hfamily y ht

theorem term : Completes Whatever [.integer "1"] (Stops 3) (Parser.term G) fun _ : Unit => Parser.term H :=
  leftGrouped (factor h) _ (.factor h.deeper) fun t ht =>
    ⟨family_eq_none ht fun y => by cases y <;> decide, ht.mono (by decide)⟩

theorem sum : Completes Whatever [.integer "1"] (Stops 4) (Parser.sum G) fun _ : Unit => Parser.sum H :=
  leftGrouped (term h) _ (.term h.deeper) fun t ht =>
    ⟨family_eq_none ht fun y => by cases y <;> decide, ht.mono (by decide)⟩

/-! ## Comparisons -/

omit h in
/-- No comparison begins where a reader of its rank stops. -/
theorem compares_of_stops {rest : List Lexeme} (hs : Stops 5 (nextOf rest)) : compares rest = false := by
  unfold compares
  cases hn : nextOf rest with
  | symbol y =>
    rw [hn] at hs
    have hy : 5 < y.rank := hs
    cases y <;> first | rfl | exact absurd hy (by decide)
  | keyword k w =>
    rw [hn] at hs
    have hk : 5 < k.rank := hs
    cases k <;> first | rfl | exact absurd hk (by decide)
  | _ => rfl

omit h in
/-- What was found, unless a comparison follows. -/
theorem unlessComparison {a : α} {b : ι → β} {f : Fault} (hab : ∀ i, E a (b i)) :
    Completes E [] (Stops 5) (do if ← atComparison then Parser.fail f else return a)
      fun i => do if ← atComparison then Parser.fail f else return (b i) where
  sees i := .unlessComparison (hab i)
  completes s := .of_stays (by rw [unlessComparison_eq]; split <;> rfl)
  plain := List.forall_mem_nil _
  takes i := .of_stays fun s hs => ⟨b i, s, by rw [unlessComparison_eq, if_neg (by simp [compares_of_stops hs])], rfl⟩

theorem compared (left : Expr) (left' : ι → Expr) (c : Comparison) :
    Completes Whatever c.rest (Stops 4) (Parser.compared G left c) fun i => Parser.compared H (left' i) c := by
  cases c with
  | binary op => exact map (sum h) fun _ _ _ => trivial
  | null op => exact pure fun _ => trivial
  | between =>
    refine bind [.integer "1"] (Stops 4) (sum h) (fun _ => ?_)
      fun _ _ => (by decide : Stops 4 (.ofTerminal (.keyword .and)))
    exact expecting rfl (map (sum h) fun _ _ _ => trivial)

theorem comparedWith (left : Expr) (left' : ι → Expr) (c : Comparison) :
    Completes Whatever c.rest (Stops 5) (Parser.comparedWith G left c) fun i => Parser.comparedWith H (left' i) c :=
  andMoreEach (compared h left left' c) (fun _ => unlessComparison fun _ => trivial) fun t ht => ht.mono (by decide)

/-- What follows the operator of a comparison is completed by what belongs to it. -/
theorem comparisonEnd (left : Expr) (left' : ι → Expr) {ts : List Token} {p : Parser (Option Comparison)}
    (hbegins : ComparisonBegins ts p) : ∃ w, Completes Whatever w (Stops 5) (p >>= Parser.comparisonEnd G left)
      fun i => p >>= Parser.comparisonEnd H (left' i) := by
  have hgiven : ∀ c, ∃ w, Completes Whatever w (Stops 5)
      ((Pure.pure (some c) : Parser (Option Comparison)) >>= Parser.comparisonEnd G left)
      fun i => (Pure.pure (some c) : Parser (Option Comparison)) >>= Parser.comparisonEnd H (left' i) := fun c => by
    simp only [pure_bind]
    exact ⟨_, comparedWith h left left' c⟩
  cases hbegins with
  | is =>
    have hnull : ∀ K left, (some <$> Parser.nullTest >>= Parser.comparisonEnd K left) = (do
        let negated ← Parser.accept (.keyword .not)
        Parser.expect (.keyword .null)
        if ← atComparison then Parser.fail .chainedComparison
        else return Expr.unary (if negated then .isNotNull else .isNull) left) := fun K left => by
      simp only [Parser.nullTest, map_eq_pure_bind, bind_assoc, pure_bind, Parser.comparisonEnd, Parser.comparedWith,
        Parser.compared]
    simp only [hnull]
    exact ⟨_, optionally _ accept (fun _ => expecting rfl (unlessComparison fun _ => trivial)) fun _ _ => rfl⟩
  | _ => exact hgiven _

/-- A comparison after its left operand is completed by nothing. -/
theorem comparisonRest (left : Expr) (left' : ι → Expr) :
    Completes Whatever [] (Stops 5) (Parser.comparisonRest G left) fun i => Parser.comparisonRest H (left' i) where
  sees i := .andThen .comparison? fun o => by
    cases o with
    | none => exact .pure trivial
    | some c => exact (comparedWith h left left' c).sees i
  completes s := by
    cases hc : compares s.rest with
    | false =>
      refine .of_stays ?_
      unfold Parser.comparisonRest
      rw [bind_of_ok (comparison?_miss hc)]
      rfl
    | true =>
      obtain ⟨u, rest, p, hs, -, hbegins⟩ := exists_comparisonBegins hc
      obtain ⟨span, hp⟩ := comparison?_hit hbegins hs rfl
      obtain ⟨w, hafter⟩ := comparisonEnd h left left' hbegins
      refine .steps _ ⟨rest, [], span⟩ hs (bind_congr hp) (fun i s' v rest' hs' hv => ?_) (hafter.completes _)
        hafter.plain hafter.takes
      obtain ⟨span', hq⟩ := comparison?_hit hbegins hs' hv
      exact ⟨_, rfl, bind_congr hq⟩
  plain := List.forall_mem_nil _
  takes i := .of_stays fun s hs => ⟨left' i, s, bind_of_ok (comparison?_miss (compares_of_stops hs)), rfl⟩

theorem comparison :
    Completes Whatever [.integer "1"] (Stops 5) (Parser.comparison G) fun _ : Unit => Parser.comparison H :=
  andMore (sum h) (fun left => comparisonRest h left fun x : Unit × Expr => x.2) fun t ht => ht.mono (by decide)

/-! ## Truth values -/

theorem inversion :
    Completes Whatever [.integer "1"] (Stops 5) (Parser.inversion G) fun _ : Unit => Parser.inversion H :=
  acceptQuietlyElse (map h.inversion fun _ _ _ => trivial) (comparison h) fun _ _ => rfl

theorem disjunction :
    Completes Whatever [.integer "1"] (Stops 7) (Parser.disjunction G) fun _ : Unit => Parser.disjunction H :=
  connected (connected (inversion h) .and (.inversion h.deeper) (Stops 6) fun t ht =>
    ⟨ht.not_is (by decide), ht.mono (by decide)⟩) .or (.conjunction h.deeper) (Stops 7) fun t ht =>
    ⟨ht.not_is (by decide), ht.mono (by decide)⟩

end

end Completes

end LedgerQuery
