import LedgerQuery.Proofs.Reading.SoundSelect
import LedgerQuery.Proofs.Tree.Like

/-!
# Readers do not see where tokens stand

Two texts of the same tokens are read alike, wherever the tokens stand in them (`parseLexemes_alike`).
The trees that are found differ at most in the spans of targets, and a reader that stops has the same
fault at the same token.

`Uniform E p q` says this of two readers: from inputs that are alike they find values that are related by
`E`, or else stop alike.  Each way that readers are built keeps it, and so it holds of every reader of the
grammar and itself.
-/

namespace LedgerQuery

open Token LedgerQuery.Parser

/-- Whether the same tokens remain of two inputs, and the same was tried in vain. -/
structure Input.Alike (s s' : Input) : Prop where
  /-- The tokens are the same. -/
  tokens : s.rest.map Lexeme.token = s'.rest.map Lexeme.token
  /-- What was tried is the same. -/
  tried : s.tried = s'.tried

/-- Whether two outcomes are values that are related, or stops with the same fault at the same token. -/
inductive Outcome.Alike {α β : Type} (E : α → β → Prop) :
    Except Stop (α × Input) → Except Stop (β × Input) → Prop where
  /-- Both found something. -/
  | ok {a b s s'} (h : E a b) (hs : s.Alike s') : Outcome.Alike E (.ok (a, s)) (.ok (b, s'))
  /-- Both stopped. -/
  | error {fault rest rest'} (h : rest.map Lexeme.token = rest'.map Lexeme.token) :
    Outcome.Alike E (.error ⟨fault, rest⟩) (.error ⟨fault, rest'⟩)

/-- Whether two readers do alike from inputs that are alike. -/
def Uniform {α β : Type} (E : α → β → Prop) (p : Parser α) (q : Parser β) : Prop :=
  ∀ s s', s.Alike s' → Outcome.Alike E (p s) (q s')

theorem Input.Alike.nth {s s' : Input} (h : s.Alike s') (n : Nat) : s.nth n = s'.nth n := by
  simp only [Input.nth, ← List.getElem?_map, h.tokens]

namespace Uniform

variable {α β γ δ : Type} {E : α → β → Prop} {E' : γ → δ → Prop} {p p' : Parser α} {q : Parser β}

theorem mono {F : α → β → Prop} (h : Uniform E p q) (hF : ∀ a b, E a b → F a b) : Uniform F p q := by
  intro s s' hs
  have hs := h s s' hs
  generalize p s = x at hs ⊢
  generalize q s' = y at hs ⊢
  cases hs with
  | ok hab hs => exact .ok (hF _ _ hab) hs
  | error h => exact .error h

/-! ## Sequences -/

theorem bind {f : α → Parser γ} {g : β → Parser δ} (hp : Uniform E p q)
    (hf : ∀ a b, E a b → Uniform E' (f a) (g b)) : Uniform E' (p >>= f) (q >>= g) := by
  intro s s' hs
  show Outcome.Alike E' (p s >>= fun x => f x.1 x.2) (q s' >>= fun x => g x.1 x.2)
  have hs := hp s s' hs
  generalize p s = x at hs ⊢
  generalize q s' = y at hs ⊢
  cases hs with
  | ok hab hs => exact hf _ _ hab _ _ hs
  | error h => exact .error h

/-- A reader that finds the same, and another after it. -/
theorem andThen {f g : α → Parser γ} {F : γ → γ → Prop} (hp : Uniform Eq p p')
    (hf : ∀ a, Uniform F (f a) (g a)) : Uniform F (p >>= f) (p' >>= g) :=
  bind hp fun a _ h => h ▸ hf a

theorem pure {a : α} {b : β} (h : E a b) : Uniform E (Pure.pure a) (Pure.pure b) :=
  fun _ _ hs => .ok h hs

theorem map {f : α → γ} {g : β → δ} (hp : Uniform E p q) (hf : ∀ a b, E a b → E' (f a) (g b)) :
    Uniform E' (f <$> p) (g <$> q) := bind hp fun a b h => pure (hf a b h)

/-- What is found with the last lexeme looked at. -/
theorem peek : Uniform Eq Parser.peek Parser.peek := fun _ _ hs => .ok (hs.nth 0) hs

theorem peekNth (n : Nat) : Uniform Eq (Parser.peekNth n) (Parser.peekNth n) :=
  fun _ _ hs => .ok (hs.nth n) hs

theorem nextSpan : Uniform (fun _ _ => True) Parser.nextSpan Parser.nextSpan := fun _ _ hs => .ok trivial hs

theorem lastSpan : Uniform (fun _ _ => True) Parser.lastSpan Parser.lastSpan := fun _ _ hs => .ok trivial hs

theorem record (e : Expected) : Uniform Eq (Parser.record e) (Parser.record e) :=
  fun _ _ hs => .ok rfl ⟨hs.tokens, congrArg (e :: ·) hs.tried⟩

theorem fail (f : Fault) : Uniform E (Parser.fail f) (Parser.fail f) := fun _ _ hs => .error hs.tokens

theorem unexpected : Uniform E Parser.unexpected Parser.unexpected := by
  intro s s' hs
  have hnext : s.next = s'.next := hs.nth 0
  unfold Parser.unexpected
  rw [hs.tried, hnext]
  exact .error hs.tokens

theorem missing (e : Expected) : Uniform E (Parser.missing e) (Parser.missing e) :=
  bind (record e) fun _ _ _ => unexpected

theorem advance : Uniform Eq Parser.advance Parser.advance := by
  rintro ⟨rest, tried, last⟩ ⟨rest', tried', last'⟩ ⟨htokens, htried⟩
  cases rest <;> cases rest' <;> simp only [List.map_nil, List.map_cons, reduceCtorEq] at htokens
  · exact .ok rfl ⟨rfl, htried⟩
  · exact .ok rfl ⟨(List.cons.inj htokens).2, rfl⟩

theorem take (r : Except Fault α) : Uniform Eq (Parser.take r) (Parser.take r) := by
  cases r with
  | ok a => exact andThen advance fun _ => pure rfl
  | error f => exact fail f

/-! ## Terminals -/

theorem acceptQuietly (x : Terminal) : Uniform Eq (Parser.acceptQuietly x) (Parser.acceptQuietly x) := by
  refine andThen peek fun t => ?_
  split
  · exact andThen advance fun _ => pure rfl
  · exact pure rfl

theorem accept (x : Terminal) : Uniform Eq (Parser.accept x) (Parser.accept x) := by
  refine andThen (acceptQuietly x) fun b => ?_
  split
  · exact pure rfl
  · exact andThen (record _) fun _ => pure rfl

theorem expect (x : Terminal) : Uniform Eq (Parser.expect x) (Parser.expect x) := by
  refine andThen (accept x) fun b => ?_
  split
  · exact pure rfl
  · exact unexpected

theorem after (x : Terminal) (h : Uniform E p q) :
    Uniform (Option.Rel E) (Parser.after x p) (Parser.after x q) := by
  refine bind (accept x) fun b _ hb => ?_
  subst hb
  split
  · exact map h fun _ _ => .some
  · exact pure .none

theorem afterQuietly (x : Terminal) (h : Uniform E p q) :
    Uniform (Option.Rel E) (Parser.afterQuietly x p) (Parser.afterQuietly x q) := by
  refine bind (acceptQuietly x) fun b _ hb => ?_
  subst hb
  split
  · exact map h fun _ _ => .some
  · exact pure .none

/-- What is the same after a terminal. -/
theorem after_eq (x : Terminal) (h : Uniform Eq p p) : Uniform Eq (Parser.after x p) (Parser.after x p) :=
  mono (after x h) fun a b hab => by cases hab <;> simp_all

/-! ## Repetition -/

theorem repeatUpTo {p : Parser (Option α)} {q : Parser (Option β)} (h : Uniform (Option.Rel E) p q)
    (rounds : Nat) :
    Uniform (List.Forall₂ E) (Parser.repeatUpTo p rounds) (Parser.repeatUpTo q rounds) := by
  induction rounds with
  | zero => exact pure .nil
  | succ rounds ih =>
    refine bind h fun a b hab => ?_
    cases hab with
    | none => exact pure .nil
    | some hab => exact bind ih fun as bs hs => pure (.cons hab hs)

theorem many {p : Parser (Option α)} {q : Parser (Option β)} (h : Uniform (Option.Rel E) p q) :
    Uniform (List.Forall₂ E) (Parser.many p) (Parser.many q) := by
  intro s s' hs
  have hlen : s.rest.length = s'.rest.length := by simpa using congrArg List.length hs.tokens
  unfold Parser.many
  rw [hlen]
  exact repeatUpTo h _ s s' hs

/-- What is found the same again and again. -/
theorem many_eq {p : Parser (Option α)} (h : Uniform Eq p p) :
    Uniform Eq (Parser.many p) (Parser.many p) := by
  have hrel : Uniform (Option.Rel Eq) p p := h.mono fun a _ hab => by
    subst hab
    cases a with
    | none => exact .none
    | some a => exact .some rfl
  exact (many hrel).mono fun _ _ hs => List.forall₂_eq_eq_eq ▸ hs

theorem commaList (h : Uniform E p q) :
    Uniform (List.Forall₂ E) (Parser.commaList p) (Parser.commaList q) :=
  bind h fun _ _ hab => bind (many (after _ h)) fun _ _ hs => pure (.cons hab hs)

/-! ## Values -/

theorem literal? : Uniform Eq Parser.literal? Parser.literal? := by
  refine andThen peek fun t => ?_
  split
  · exact map (take _) fun _ _ h => h ▸ rfl
  · exact pure rfl

theorem name : Uniform Eq Parser.name Parser.name := by
  refine andThen peek fun t => ?_
  split
  · exact take _
  · exact missing _

theorem date : Uniform Eq Parser.date Parser.date := by
  refine andThen peek fun t => ?_
  split
  · exact take _
  · exact missing _

theorem stringValue : Uniform Eq Parser.stringValue Parser.stringValue := by
  refine andThen peek fun t => ?_
  split
  · exact take _
  · exact missing _

theorem count : Uniform Eq Parser.count Parser.count := by
  refine andThen peek fun t => ?_
  split
  · exact take _
  · exact missing _

theorem listItem : Uniform Eq Parser.listItem Parser.listItem := by
  refine andThen literal? fun o => ?_
  split
  · exact pure rfl
  · exact andThen (record _) fun _ => pure rfl

theorem literalList : Uniform Eq Parser.literalList Parser.literalList := by
  refine andThen (expect _) fun _ => andThen literal? fun o => ?_
  split
  · exact andThen (many_eq (after_eq _ listItem)) fun _ => andThen (expect _) fun _ => pure rfl
  · exact missing _

theorem suffix? : Uniform Eq Parser.suffix? Parser.suffix? := by
  refine andThen (acceptQuietly _) fun b => ?_
  split
  · exact andThen name fun _ => pure rfl
  · refine andThen (acceptQuietly _) fun b => ?_
    split
    · exact andThen stringValue fun _ => andThen (expect _) fun _ => pure rfl
    · exact pure rfl

theorem atList : Uniform Eq Parser.atList Parser.atList :=
  andThen peek fun _ => andThen (peekNth 1) fun _ => andThen (peekNth 2) fun _ => pure rfl

theorem nullTest : Uniform Eq Parser.nullTest Parser.nullTest :=
  andThen (accept _) fun _ => andThen (expect _) fun _ => pure rfl

theorem comparison? : Uniform Eq Parser.comparison? Parser.comparison? := by
  refine andThen peek fun t => ?_
  split
  · split
    · exact andThen advance fun _ => pure rfl
    · exact pure rfl
  · exact andThen advance fun _ => pure rfl
  · refine andThen (peekNth 1) fun _ => ?_
    split
    · exact andThen advance fun _ => andThen advance fun _ => pure rfl
    · exact pure rfl
  · exact andThen advance fun _ => andThen nullTest fun _ => pure rfl
  · exact andThen advance fun _ => pure rfl
  · exact pure rfl

theorem atComparison : Uniform Eq Parser.atComparison Parser.atComparison := by
  refine andThen peek fun t => ?_
  split <;> first | exact pure rfl | exact andThen (peekNth 1) fun _ => pure rfl

theorem openDate : Uniform Eq Parser.openDate Parser.openDate := andThen (expect _) fun _ => date

theorem closing : Uniform Eq Parser.closing Parser.closing := by
  refine andThen (accept _) fun b => ?_
  split
  · exact andThen date fun _ => pure rfl
  · exact pure rfl

theorem atQuery : Uniform Eq Parser.atQuery Parser.atQuery :=
  andThen peek fun _ => andThen (peekNth 1) fun _ => pure rfl

theorem sortDirection : Uniform Eq Parser.sortDirection Parser.sortDirection := by
  refine andThen (accept _) fun b => ?_
  split
  · exact pure rfl
  · exact andThen (accept _) fun _ => pure rfl

theorem pivotKey : Uniform Eq Parser.pivotKey Parser.pivotKey := by
  refine andThen peek fun t => ?_
  split
  · exact andThen (take _) fun _ => pure rfl
  · exact andThen (record _) fun _ => andThen name fun _ => pure rfl

theorem pivotBy : Uniform Eq Parser.pivotBy Parser.pivotBy := by
  refine andThen (expect _) fun _ => andThen pivotKey fun _ => andThen peek fun _ => ?_
  split
  · refine andThen advance fun _ => andThen pivotKey fun _ => andThen peek fun _ => ?_
    split
    · exact fail _
    · exact pure rfl
  · exact fail _

theorem accountPattern : Uniform Eq Parser.accountPattern Parser.accountPattern := by
  refine andThen peek fun t => ?_
  split
  · exact take _
  · exact andThen (record _) fun _ => pure rfl

theorem endOfInput : Uniform Eq Parser.endOfInput Parser.endOfInput := by
  refine andThen peek fun t => ?_
  split
  · exact pure rfl
  · exact missing _

end Uniform

/-! ## The grammar -/

/-- Whether the trees that two readers find look alike. -/
abbrev UniformTree {α β : Type} (v : α → β) (p q : Parser α) : Prop := Uniform (Like True v) p q

/-- Whether readers one nesting level deeper do alike. -/
structure Nested.Uniform (G H : Nested) : Prop where
  /-- Expressions. -/
  expr : UniformTree Expr.plain G.expr H.expr
  /-- Operands of `NOT`. -/
  inversion : UniformTree Expr.plain G.inversion H.inversion
  /-- Operands of signs. -/
  factor : UniformTree Expr.plain G.factor H.factor
  /-- Queries. -/
  select : UniformTree Select.plain G.select H.select

namespace Uniform

section
variable {p q : Parser Expr} (hp : UniformTree Expr.plain p q)
include hp

theorem operation? (family : Symbol → Option BinaryOp) :
    Uniform (Option.Rel (Like.Operation True)) (Parser.operation? family p) (Parser.operation? family q) := by
  refine bind peek fun t _ ht => ?_
  subst ht
  split
  · split
    · exact bind advance fun _ _ _ => bind hp fun _ _ h => pure (.some ⟨rfl, h⟩)
    · exact pure .none
  · exact pure .none

theorem leftGrouped (family : Symbol → Option BinaryOp) :
    UniformTree Expr.plain (Parser.leftGrouped family p) (Parser.leftGrouped family q) :=
  bind hp fun _ _ h => bind (many (operation? hp family)) fun _ _ hs => pure (h.operations hs)

theorem connected (op : BoolOp) :
    UniformTree Expr.plain (Parser.connected op p) (Parser.connected op q) := by
  refine bind hp fun _ _ h => bind (many (afterQuietly _ hp)) fun _ _ hs => ?_
  cases hs with
  | nil => exact pure h
  | cons h' hs => exact pure (.bool op (.cons h (.cons h' hs)))

end

section
variable {G H : Nested} (h : G.Uniform H)
include h

theorem arguments :
    Uniform (List.Forall₂ (Like True Expr.plain)) (Parser.arguments G) (Parser.arguments H) := by
  refine bind (expect _) fun _ _ _ => bind (accept _) fun b _ hb => ?_
  subst hb
  split
  · exact bind (expect _) fun _ _ _ => pure (.cons (.refl _) .nil)
  · refine bind (accept _) fun b _ hb => ?_
    subst hb
    split
    · exact pure .nil
    · exact bind (commaList h.expr) fun _ _ hs => bind (expect _) fun _ _ _ => pure hs

theorem nameOrCall : UniformTree Expr.plain (Parser.nameOrCall G) (Parser.nameOrCall H) := by
  refine andThen (peekNth 1) fun _ => andThen name fun n => ?_
  split
  · exact bind (arguments h) fun _ _ hs => pure (.function n hs)
  · exact pure (.refl _)

theorem atom : UniformTree Expr.plain (Parser.atom G) (Parser.atom H) := by
  refine andThen peek fun t => ?_
  split
  · exact bind h.select fun _ _ hq => pure (.subselect hq)
  · split
    · exact nameOrCall h
    · split
      · exact (take _).mono fun _ _ he => he ▸ .refl _
      · exact literalList.mono fun _ _ he => he ▸ .refl _
      · refine andThen literal? fun o => ?_
        split
        · exact pure (.refl _)
        · exact missing _

theorem primary : UniformTree Expr.plain (Parser.primary G) (Parser.primary H) :=
  bind (atom h) fun _ _ he => andThen (many_eq suffix?) fun ss => pure (he.suffixes ss)

theorem factor : UniformTree Expr.plain (Parser.factor G) (Parser.factor H) := by
  refine andThen peek fun t => ?_
  split
  · refine andThen atList fun b => ?_
    split
    · exact primary h
    · exact andThen advance fun _ => bind h.expr fun _ _ he => andThen (expect _) fun _ => pure he
  · exact andThen advance fun _ => bind h.factor fun _ _ he => pure (.unary .neg he)
  · exact andThen advance fun _ => h.factor
  · exact primary h

theorem sum : UniformTree Expr.plain (Parser.sum G) (Parser.sum H) :=
  leftGrouped (leftGrouped (factor h) _) _

theorem compared {left left' : Expr} (hl : Like True Expr.plain left left') (c : Comparison) :
    UniformTree Expr.plain (Parser.compared G left c) (Parser.compared H left' c) := by
  cases c with
  | binary op => exact bind (sum h) fun _ _ hr => pure (hl.binary op hr)
  | null op => exact pure (hl.unary op)
  | between =>
    exact bind (sum h) fun _ _ ha => andThen (expect _) fun _ => bind (sum h) fun _ _ hb =>
      pure (hl.between ha hb)

theorem comparison : UniformTree Expr.plain (Parser.comparison G) (Parser.comparison H) := by
  refine bind (sum h) fun _ _ hl => andThen comparison? fun o => ?_
  split
  · exact pure hl
  · refine bind (compared h hl _) fun _ _ he => andThen atComparison fun b => ?_
    split
    · exact fail _
    · exact pure he

theorem inversion : UniformTree Expr.plain (Parser.inversion G) (Parser.inversion H) := by
  refine andThen (acceptQuietly _) fun b => ?_
  split
  · exact bind h.inversion fun _ _ he => pure (.unary .not he)
  · exact comparison h

theorem disjunction : UniformTree Expr.plain (Parser.disjunction G) (Parser.disjunction H) :=
  connected (connected (inversion h) _) _

/-! ## Clauses -/

theorem columnKey : UniformTree ColumnKey.plain (Parser.columnKey G) (Parser.columnKey H) := by
  refine andThen peek fun t => ?_
  split
  · refine andThen (peekNth 1) fun t => ?_
    split
    · exact bind h.expr fun _ _ he => pure (.columnKey he)
    · exact andThen (take _) fun _ => pure (.refl _)
  · exact bind h.expr fun _ _ he => pure (.columnKey he)

theorem target : UniformTree Target.plain (Parser.target G) (Parser.target H) :=
  bind nextSpan fun _ _ _ => bind h.expr fun _ _ he => andThen (after_eq _ name) fun n =>
    bind lastSpan fun _ _ _ => pure (.target he n _ _)

theorem targets : UniformTree Targets.plain (Parser.targets G) (Parser.targets H) := by
  refine andThen (accept _) fun b => ?_
  split
  · exact pure (.refl _)
  · exact bind (commaList (target h)) fun _ _ hs => pure (.targets hs)

theorem entryFilter : UniformTree EntryFilter.plain (Parser.entryFilter G) (Parser.entryFilter H) := by
  refine andThen (accept _) fun b => ?_
  split
  · exact andThen openDate fun _ => andThen (after_eq _ closing) fun _ => andThen (accept _) fun _ =>
      pure (.refl _)
  · refine andThen (accept _) fun b => ?_
    split
    · exact andThen closing fun _ => andThen (accept _) fun _ => pure (.refl _)
    · refine andThen (accept _) fun b => ?_
      split
      · exact pure (.refl _)
      · exact bind h.expr fun _ _ he => andThen (after_eq _ openDate) fun o =>
          andThen (after_eq _ closing) fun c => andThen (accept _) fun b => pure (.filter (.some he) o c b)

theorem source : UniformTree Source.plain (Parser.source G) (Parser.source H) := by
  refine andThen peek fun t => ?_
  split
  · exact (take _).mono fun _ _ ha => ha ▸ .refl _
  · refine andThen atQuery fun b => ?_
    split
    · exact andThen advance fun _ => bind h.select fun _ _ hq => andThen (expect _) fun _ =>
        pure (.query hq)
    · exact andThen (record _) fun _ => bind (entryFilter h) fun _ _ hf => pure (.entries hf)

theorem groupBy : UniformTree GroupBy.plain (Parser.groupBy G) (Parser.groupBy H) :=
  andThen (expect _) fun _ => bind (commaList (columnKey h)) fun _ _ hks =>
    bind (after _ h.expr) fun _ _ he => pure (.groupBy hks he)

theorem sortKey : UniformTree SortKey.plain (Parser.sortKey G) (Parser.sortKey H) :=
  bind (columnKey h) fun _ _ hk => andThen sortDirection fun d => pure (.sortKey hk d)

theorem orderBy : Uniform (List.Forall₂ (Like True SortKey.plain)) (Parser.orderBy G) (Parser.orderBy H) :=
  andThen (expect _) fun _ => commaList (sortKey h)

theorem selectQuery : UniformTree Select.plain (Parser.selectQuery G) (Parser.selectQuery H) :=
  andThen (expect _) fun _ => andThen (accept _) fun d => bind (targets h) fun _ _ ht =>
    bind (after _ (source h)) fun _ _ ha => bind (after _ h.expr) fun _ _ hc =>
    bind (after _ (groupBy h)) fun _ _ hg => bind (after _ (orderBy h)) fun _ _ ho =>
    andThen (after_eq _ pivotBy) fun p => andThen (after_eq _ count) fun l =>
    pure (.select d p l ht ha hc hg ho)

/-! ## Statements -/

theorem shorthandSource : Uniform (Option.Rel (Like True EntryFilter.plain)) (Parser.shorthandSource G)
    (Parser.shorthandSource H) := after _ (entryFilter h)

theorem statement : UniformTree Statement.plain (Parser.statement G) (Parser.statement H) := by
  refine andThen peek fun t => ?_
  split
  · exact bind h.select fun _ _ hq => pure fun hw => congrArg Statement.select (hq hw)
  · refine bind (E := fun a b => UniformTree Statement.plain (Pure.pure (.balances a)) (Pure.pure (.balances b)))
      ?_ fun _ _ hab => hab
    exact andThen (expect _) fun _ => andThen (after_eq _ name) fun n => bind (shorthandSource h) fun _ _ hf =>
      bind (after _ h.expr) fun _ _ hc => pure (pure (.balances n hf hc))
  · refine bind (E := fun a b => UniformTree Statement.plain (Pure.pure (.journal a)) (Pure.pure (.journal b)))
      ?_ fun _ _ hab => hab
    exact andThen (expect _) fun _ => andThen accountPattern fun a => andThen (after_eq _ name) fun n =>
      bind (shorthandSource h) fun _ _ hf => pure (pure (.journal a n hf))
  · refine bind (E := fun a b => UniformTree Statement.plain (Pure.pure (.print a)) (Pure.pure (.print b)))
      ?_ fun _ _ hab => hab
    exact andThen (expect _) fun _ => bind (shorthandSource h) fun _ _ hf => pure (pure (.print hf))
  · refine andThen ?_ fun _ => unexpected
    exact andThen (record _) fun _ => andThen (record _) fun _ => andThen (record _) fun _ =>
      andThen (record _) fun _ => pure rfl

theorem wholeText : Uniform (fun a b => Like True Statement.plain a.1 b.1) (Parser.wholeText G)
    (Parser.wholeText H) :=
  bind nextSpan fun _ _ _ => bind (statement h) fun _ _ ha => bind lastSpan fun _ _ _ =>
    andThen endOfInput fun _ => pure ha

end

end Uniform

/-- Readers under a limit do alike. -/
theorem nested_uniform (limit : Nat) : ∀ levels, (nested limit levels).Uniform (nested limit levels)
  | 0 => ⟨.fail _, .fail _, .fail _, .fail _⟩
  | levels + 1 =>
    have h := nested_uniform limit levels
    ⟨Uniform.disjunction h, Uniform.inversion h, Uniform.factor h, Uniform.selectQuery h⟩

/-! ## Whole texts -/

/-- Whether two outcomes of parsing are the same statement, or stops with the same fault at the same
token. -/
inductive Parsed.Alike : Except Stop (Statement × Span) → Except Stop (Statement × Span) → Prop where
  /-- Both are the same statement. -/
  | ok {a b span span'} (h : a.Same b) : Parsed.Alike (.ok (a, span)) (.ok (b, span'))
  /-- Both stopped. -/
  | error {fault rest rest'} (h : rest.map Lexeme.token = rest'.map Lexeme.token) :
    Parsed.Alike (.error ⟨fault, rest⟩) (.error ⟨fault, rest'⟩)

/-- Lexemes of the same tokens are parsed alike. -/
theorem parseLexemes_alike {lexemes lexemes' : List Lexeme} (limit : Nat)
    (h : lexemes.map Lexeme.token = lexemes'.map Lexeme.token) :
    Parsed.Alike (parseLexemes lexemes limit) (parseLexemes lexemes' limit) := by
  unfold parseLexemes
  have h := Uniform.wholeText (nested_uniform limit limit) (Input.start lexemes) (Input.start lexemes') ⟨h, rfl⟩
  generalize wholeText (nested limit limit) (Input.start lexemes) = x at h ⊢
  generalize wholeText (nested limit limit) (Input.start lexemes') = y at h ⊢
  cases h with
  | @ok a b s s' hab _ =>
    obtain ⟨a, span⟩ := a
    obtain ⟨b, span'⟩ := b
    exact .ok (hab trivial)
  | error h => exact .error h

end LedgerQuery
