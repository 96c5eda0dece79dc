import LedgerQuery.Proofs.Reading.Derived
import LedgerQuery.Proofs.Tree.Occurrences

/-!
# The parameters of a query

The parameters of a statement, in the order of its expressions, are the parameters among its tokens, in
the order of the text.

A phrase *gives* expressions if the parameters in each of its runs are those of the expressions of its
value.  A phrase after another gives the expressions of both, so what a phrase of the grammar gives is
found by going through it step by step.  The steps carry along the expressions of the values that are
read already.
-/

namespace LedgerQuery

/-- The parameter a token is, if it is one. -/
def Token.placeholder? : Token → Option Placeholder
  | .placeholder p => some p
  | _ => none

/-- The parameters in a run, in order. -/
def placeholdersIn (u : List Lexeme) : List Placeholder := u.filterMap fun l => l.token.placeholder?

@[simp] theorem placeholdersIn_nil : placeholdersIn [] = [] := rfl

@[simp] theorem placeholdersIn_append {u v : List Lexeme} :
    placeholdersIn (u ++ v) = placeholdersIn u ++ placeholdersIn v := List.filterMap_append

/-- The parameters among some expressions, in order. -/
def placeholdersAmong (es : List Expr) : List Placeholder := es.filterMap Expr.placeholder?

@[simp] theorem placeholdersAmong_nil : placeholdersAmong [] = [] := rfl

@[simp] theorem placeholdersAmong_append {es es' : List Expr} :
    placeholdersAmong (es ++ es') = placeholdersAmong es ++ placeholdersAmong es' := List.filterMap_append

theorem placeholdersAmong_flatMap {α : Type} {f : α → List Expr} {as : List α} :
    placeholdersAmong (as.flatMap f) = as.flatMap fun a => placeholdersAmong (f a) := by
  induction as with
  | nil => rfl
  | cons a as ih => simp [ih]

theorem placeholdersAmong_singleton {e : Expr} (h : e.placeholder? = none) : placeholdersAmong [e] = [] := by
  simp [placeholdersAmong, h]

namespace Phrase

/-- Whether the parameters among some expressions, followed by those in a run of a phrase, are those among
the expressions of its value. -/
def Gives {α : Type} (es : List Expr) (L : Phrase α) (F : α → List Expr) : Prop :=
  ∀ u a, L u a → placeholdersAmong es ++ placeholdersIn u = placeholdersAmong (F a)

/-- Whether no run of a phrase has a parameter. -/
abbrev Silent {α : Type} (L : Phrase α) : Prop := L.Gives [] fun _ => []

namespace Gives

variable {α β : Type} {es : List Expr} {L : Phrase α} {F : α → List Expr} {H : β → List Expr}

theorem pure {a : α} (h : placeholdersAmong es = placeholdersAmong (F a)) : Gives es (pure a) F := by
  rintro _ _ ⟨rfl, rfl⟩
  simpa using h

theorem bind {f : α → Phrase β} (hL : L.Gives [] F) (hf : ∀ a, (f a).Gives (es ++ F a) H) :
    (L >>= f).Gives es H := by
  rintro _ b ⟨v, w, a, rfl, hv, hw⟩
  have ha : placeholdersIn v = placeholdersAmong (F a) := hL v a hv
  rw [← hf a w b hw, placeholdersIn_append, ha, placeholdersAmong_append, List.append_assoc]

theorem skip {f : α → Phrase β} (hL : L.Silent) (hf : ∀ a, (f a).Gives es H) : (L >>= f).Gives es H :=
  hL.bind fun a => by simpa using hf a

theorem none : Gives es (.none : Phrase α) F := fun _ _ h => absurd h id

theorem oneOf_nil : (oneOf []).Gives es F := fun u a h => by simp at h

theorem oneOf_cons {Ls : List (Phrase α)} (h : L.Gives es F) (hs : (oneOf Ls).Gives es F) :
    (oneOf (L :: Ls)).Gives es F := by
  intro u a ha
  rcases Phrase.oneOf_cons.mp ha with ha | ha
  · exact h u a ha
  · exact hs u a ha

theorem optional (h : L.Gives [] F) : (optional L).Gives [] fun o => (o.map F).getD []
  | _, some a, ha => h _ a ha
  | _, .none, ha => by obtain rfl := show _ = [] from ha; rfl

theorem many (h : L.Gives [] F) : (many L).Gives [] fun as => as.flatMap F := by
  intro u as has
  induction has with
  | nil => rfl
  | @cons v w a as hv _ ih =>
    have ha : placeholdersIn v = placeholdersAmong (F a) := h v a hv
    have has : placeholdersIn w = placeholdersAmong (as.flatMap F) := ih
    simp [ha, has]

theorem such {p : List Lexeme → Prop} (h : L.Gives es F) : (L.such p).Gives es F := fun u a ha => h u a ha.1

theorem spanned (h : L.Gives es F) : (spanned L).Gives es fun a => F a.1 := fun u a ha => h u a.1 ha.1

theorem terminal (x : Terminal) : (terminal x).Silent := by
  rintro _ _ ⟨⟨t, span⟩, rfl, h⟩
  cases t <;> first | rfl | simp [Token.is, Token.terminal?] at h

theorem flag (x : Terminal) : (flag x).Silent
  | _, true, h => terminal x _ () h
  | _, false, h => by obtain rfl := show _ = [] from h; rfl

theorem token {value : Token → Option α} (h : ∀ p, value (.placeholder p) = Option.none) :
    (token value).Silent := by
  rintro _ a ⟨⟨t, span⟩, rfl, ha⟩
  cases t with
  | placeholder p => rw [h p] at ha; cases ha
  | _ => rfl

theorem optional_silent (h : L.Silent) : (Phrase.optional L).Silent
  | _, some a, ha => h _ a ha
  | _, .none, ha => by obtain rfl := show _ = [] from ha; rfl

theorem many_silent (h : L.Silent) : (Phrase.many L).Silent := by
  intro u as has
  rw [many h u as has, placeholdersAmong_flatMap]
  simp

theorem commaList (h : L.Gives [] F) : (commaList L).Gives [] fun as => as.flatMap F :=
  h.bind fun _ => (many (skip (terminal _) fun _ => h)).bind fun _ => .pure (by simp)

/-! ## Tokens with a value -/

theorem name : name.Silent := token fun _ => rfl

theorem literal : literal.Silent := token fun _ => rfl

theorem date : date.Silent := token fun _ => rfl

theorem count : count.Silent := token fun _ => rfl

theorem stringValue : stringValue.Silent := token fun _ => rfl

theorem table : table.Silent := token fun _ => rfl

theorem operator (family : Symbol → Option BinaryOp) : (operator family).Silent := token fun _ => rfl

theorem placeholder : placeholder.Gives [] fun p => [.placeholder p] := by
  intro u p h
  obtain ⟨l, rfl, hl⟩ := placeholder_iff.mp h
  simp [placeholdersIn, placeholdersAmong, hl, Token.placeholder?, Expr.placeholder?]

end Gives

end Phrase

/-! ## Expressions -/

/-- Whether everything that goes one nesting level deeper gives its expressions. -/
structure Phrases.Give (G : Phrases) : Prop where
  /-- Expressions. -/
  expr : G.expr.Gives [] Expr.postorder
  /-- Operands of `NOT`. -/
  inversion : G.inversion.Gives [] Expr.postorder
  /-- Operands of signs. -/
  factor : G.factor.Gives [] Expr.postorder
  /-- Queries. -/
  select : G.select.Gives [] Select.exprs
  /-- Queries as atoms. -/
  bare : G.bare.Gives [] Select.exprs
  /-- Queries as expressions in parentheses. -/
  grouped : G.grouped.Gives [] Select.exprs
  /-- Keys. -/
  key : G.key.Gives [] Expr.postorder

/-- The parameters of an expression, in order. -/
abbrev Expr.placeholders (e : Expr) : List Placeholder := placeholdersAmong e.postorder

/-- The parameters of an expression are those of its parts, unless it is a parameter or a subselect. -/
theorem Expr.placeholders_of_parts {e : Expr} (hp : e.placeholder? = none) (hs : ∀ s, e ≠ .subselect s) :
    e.placeholders = e.parts.flatMap Expr.placeholders := by
  have hself : placeholdersAmong [e] = [] := placeholdersAmong_singleton hp
  cases e with
  | placeholder p => cases hp
  | subselect s => exact absurd rfl (hs s)
  | function n args | bool op args =>
    rw [Expr.placeholders, Expr.postorder, Expr.postorderOfList_eq, placeholdersAmong_append,
      placeholdersAmong_flatMap, hself, List.append_nil, Expr.parts]
  | _ => simp [Expr.placeholders, Expr.postorder, Expr.parts, hself]

section
variable {l x r : Expr} {args : List Expr}

@[simp] theorem Expr.placeholders_function {n : String} :
    (Expr.function n args).placeholders = args.flatMap Expr.placeholders :=
  placeholders_of_parts rfl (by simp)

@[simp] theorem Expr.placeholders_attribute {n : String} : (Expr.attribute x n).placeholders = x.placeholders := by
  simpa [Expr.parts] using placeholders_of_parts (e := .attribute x n) rfl (by simp)

@[simp] theorem Expr.placeholders_subscript {key : String} :
    (Expr.subscript x key).placeholders = x.placeholders := by
  simpa [Expr.parts] using placeholders_of_parts (e := .subscript x key) rfl (by simp)

@[simp] theorem Expr.placeholders_unary {op : UnaryOp} : (Expr.unary op x).placeholders = x.placeholders := by
  simpa [Expr.parts] using placeholders_of_parts (e := .unary op x) rfl (by simp)

@[simp] theorem Expr.placeholders_binary {op : BinaryOp} :
    (Expr.binary l op r).placeholders = l.placeholders ++ r.placeholders := by
  simpa [Expr.parts] using placeholders_of_parts (e := .binary l op r) rfl (by simp)

@[simp] theorem Expr.placeholders_bool {op : BoolOp} :
    (Expr.bool op args).placeholders = args.flatMap Expr.placeholders :=
  placeholders_of_parts rfl (by simp)

@[simp] theorem Expr.placeholders_between :
    (Expr.between x l r).placeholders = x.placeholders ++ l.placeholders ++ r.placeholders := by
  simpa [Expr.parts] using placeholders_of_parts (e := .between x l r) rfl (by simp)

@[simp] theorem Expr.placeholders_subselect {s : Select} :
    (Expr.subselect s).placeholders = placeholdersAmong s.exprs := by
  rw [Expr.placeholders, Expr.postorder, placeholdersAmong_append, placeholdersAmong_singleton rfl,
    List.append_nil]

end

namespace Phrase.Gives

/-- Additions without parameters leave the parameters of an expression as they are. -/
theorem placeholders_foldl {α : Type} {f : Expr → α → Expr} {F : α → List Expr}
    (h : ∀ e a, (f e a).placeholders = e.placeholders ++ placeholdersAmong (F a)) (as : List α) (e : Expr) :
    (as.foldl f e).placeholders = e.placeholders ++ placeholdersAmong (as.flatMap F) := by
  induction as generalizing e with
  | nil => simp
  | cons a as ih => rw [List.foldl_cons, ih, h]; simp

variable {G : Phrases}

theorem literalList : literalList.Gives [] Expr.postorder :=
  skip (terminal _) fun _ => skip literal fun _ => skip (terminal _) fun _ =>
    skip (optional_silent literal) fun _ =>
      skip (many_silent (skip (terminal _) fun _ => optional_silent literal)) fun _ =>
        skip (terminal _) fun _ => .pure rfl

theorem suffix : suffix.Silent :=
  oneOf_cons (skip (terminal _) fun _ => skip name fun _ => .pure rfl)
    (oneOf_cons (skip (terminal _) fun _ => skip stringValue fun _ => skip (terminal _) fun _ => .pure rfl)
      oneOf_nil)

/-- Operands with operators between give the expressions of the operands. -/
theorem leftGrouped {family : Symbol → Option BinaryOp} {operand : Phrase Expr}
    (h : operand.Gives [] Expr.postorder) : (leftGrouped family operand).Gives [] Expr.postorder := by
  refine h.bind fun first => (many (skip (operator family) fun op => h.bind fun right =>
    pure (F := fun a : BinaryOp × Expr => a.2.postorder) (a := (op, right)) rfl)).bind fun others => .pure ?_
  have hothers := placeholders_foldl (F := fun a : BinaryOp × Expr => a.2.postorder)
    (f := fun left a => .binary left a.1 a.2) (by simp) others first
  simpa using hothers.symm

/-- Operands with a connective between give the expressions of the operands. -/
theorem connected {op : BoolOp} {operand : Phrase Expr} (h : operand.Gives [] Expr.postorder) :
    (connected op operand).Gives [] Expr.postorder := by
  refine h.bind fun first => (many (skip (terminal _) fun _ => h)).bind fun others => .pure ?_
  cases others with
  | nil => simp [joined]
  | cons second others => simp [joined, placeholdersAmong_flatMap]

section
variable (h : G.Give)
include h

theorem arguments : (arguments G).Gives [] fun args => args.flatMap Expr.postorder :=
  oneOf_cons (skip (terminal _) fun _ => skip (terminal _) fun _ => skip (terminal _) fun _ => .pure rfl)
    (oneOf_cons (skip (terminal _) fun _ => skip (terminal _) fun _ => .pure rfl)
      (oneOf_cons (skip (terminal _) fun _ => (commaList h.expr).bind fun _ => skip (terminal _) fun _ =>
        .pure rfl) oneOf_nil))

theorem atom : (atom G).Gives [] Expr.postorder :=
  oneOf_cons (skip name fun n => (arguments h).bind fun args => .pure (by simp [placeholdersAmong_flatMap]))
    (oneOf_cons (skip name fun n => .pure rfl)
      (oneOf_cons (placeholder.bind fun p => .pure rfl)
        (oneOf_cons (skip literal fun value => .pure rfl)
          (oneOf_cons literalList
            (oneOf_cons (h.bare.bind fun query => .pure (by simp)) oneOf_nil)))))

theorem primary : (primary G).Gives [] Expr.postorder := by
  refine (atom h).bind fun operand => skip (many_silent suffix) fun suffixes => .pure ?_
  have hsuffixes := placeholders_foldl (f := Parser.Suffix.apply) (F := fun _ => [])
    (fun e a => by cases a <;> simp [Parser.Suffix.apply]) suffixes operand
  have hnone : suffixes.flatMap (fun _ => ([] : List Expr)) = [] := by simp
  simpa [hnone] using hsuffixes.symm

theorem factor : (factor G).Gives [] Expr.postorder :=
  oneOf_cons (skip (terminal _) fun _ => h.expr.bind fun e => skip (terminal _) fun _ => .pure rfl)
    (oneOf_cons (skip (terminal _) fun _ => h.grouped.bind fun query => skip (terminal _) fun _ =>
        .pure (by simp))
      (oneOf_cons (skip (terminal _) fun _ => h.factor.bind fun operand => .pure (by simp))
        (oneOf_cons (skip (terminal _) fun _ => h.factor)
          (oneOf_cons (primary h) oneOf_nil))))

theorem sum : (sum G).Gives [] Expr.postorder := leftGrouped (leftGrouped (factor h))

omit h in
theorem comparisonOperator : comparisonOperator.Silent :=
  oneOf_cons (operator _)
    (oneOf_cons (skip (terminal _) fun _ => .pure rfl)
      (oneOf_cons (skip (terminal _) fun _ => skip (terminal _) fun _ => .pure rfl) oneOf_nil))

theorem comparison : (comparison G).Gives [] Expr.postorder :=
  oneOf_cons (sum h)
    (oneOf_cons ((sum h).bind fun left => skip comparisonOperator fun op => (sum h).bind fun right =>
        .pure (by simp))
      (oneOf_cons ((sum h).bind fun operand => skip (terminal _) fun _ => skip (flag _) fun negated =>
          skip (terminal _) fun _ => .pure (by simp))
        (oneOf_cons ((sum h).bind fun operand => skip (terminal _) fun _ => (sum h).bind fun lower =>
            skip (terminal _) fun _ => (sum h).bind fun upper => .pure (by simp))
          oneOf_nil)))

theorem inversion : (inversion G).Gives [] Expr.postorder :=
  oneOf_cons (skip (terminal _) fun _ => h.inversion.bind fun operand => .pure (by simp))
    (oneOf_cons (comparison h) oneOf_nil)

theorem disjunction : (disjunction G).Gives [] Expr.postorder := connected (connected (inversion h))

/-! ## Clauses -/

theorem columnKey : (columnKey G).Gives [] ColumnKey.exprs :=
  oneOf_cons (skip count fun _ => .pure rfl) (oneOf_cons (h.key.bind fun _ => .pure rfl) oneOf_nil)

theorem target : (target G).Gives [] fun t => t.expr.postorder :=
  (spanned (F := fun a : Expr × Option String => a.1.postorder) (h.expr.bind fun _ =>
    skip (optional_silent (skip (terminal _) fun _ => name)) fun _ => .pure rfl)).bind
      fun ((_, _), _) => .pure rfl

theorem targets : (targets G).Gives [] Targets.exprs :=
  oneOf_cons (skip (terminal _) fun _ => .pure rfl)
    (oneOf_cons ((commaList (target h)).bind fun items => .pure (by
      rw [Targets.exprs, Target.exprsOfList_eq, List.nil_append])) oneOf_nil)

omit h in
theorem opening : opening.Silent := skip (terminal _) fun _ => skip (terminal _) fun _ => date

omit h in
theorem closing : closing.Silent :=
  oneOf_cons (skip (terminal _) fun _ => .pure rfl)
    (oneOf_cons (skip (terminal _) fun _ => skip (terminal _) fun _ => skip date fun _ => .pure rfl) oneOf_nil)

theorem entryFilter : (entryFilter G).Gives [] EntryFilter.exprs :=
  oneOf_cons (skip opening fun _ => skip (optional_silent closing) fun _ => skip (flag _) fun _ =>
      .pure rfl)
    (oneOf_cons (skip closing fun _ => skip (flag _) fun _ => .pure rfl)
      (oneOf_cons (skip (terminal _) fun _ => .pure rfl)
        (oneOf_cons (h.expr.such.bind fun _ => skip (optional_silent opening) fun _ =>
            skip (optional_silent closing) fun _ => skip (flag _) fun _ => .pure rfl)
          oneOf_nil)))

theorem source : (source G).Gives [] Source.exprs :=
  oneOf_cons (skip table fun _ => .pure rfl)
    (oneOf_cons (skip (terminal _) fun _ => h.select.bind fun _ => skip (terminal _) fun _ => .pure rfl)
      (oneOf_cons ((entryFilter h).such.bind fun _ => .pure rfl) oneOf_nil))

theorem condition : (condition G).Gives [] Expr.postorder := skip (terminal _) fun _ => h.expr

theorem groupBy : (groupBy G).Gives [] GroupBy.exprs :=
  skip (terminal _) fun _ => skip (terminal _) fun _ => (commaList (columnKey h)).bind fun keys =>
    (optional (skip (terminal _) fun _ => h.expr)).bind fun having => .pure (by
      rw [GroupBy.exprs_eq, List.nil_append])

omit h in
theorem sortDirection : sortDirection.Silent :=
  oneOf_cons (skip (terminal _) fun _ => .pure rfl)
    (oneOf_cons (skip (terminal _) fun _ => .pure rfl) (oneOf_cons (.pure rfl) oneOf_nil))

theorem orderBy : (orderBy G).Gives [] SortKey.exprsOfList := by
  refine skip (terminal _) fun _ => skip (terminal _) fun _ => fun u keys hk => ?_
  rw [SortKey.exprsOfList_eq]
  exact commaList (F := fun k : SortKey => k.column.exprs) ((columnKey h).bind fun column =>
    skip sortDirection fun direction => .pure rfl) u keys hk

omit h in
theorem pivotBy : pivotBy.Silent := by
  have key : pivotKey.Silent :=
    oneOf_cons (skip count fun n => .pure rfl) (oneOf_cons (skip name fun n => .pure rfl) oneOf_nil)
  exact skip (terminal _) fun _ => skip (terminal _) fun _ => skip key fun _ => skip (terminal _) fun _ =>
    skip key fun _ => .pure rfl

/-- A query gives the expressions of its clauses. -/
theorem select : (select G).Gives [] Select.exprs :=
  skip (terminal _) fun _ => skip (flag _) fun distinct => (targets h).bind fun targets =>
    (optional (skip (terminal _) fun _ => source h)).bind fun source =>
      (optional (condition h)).bind fun condition => (optional (groupBy h)).bind fun groupBy =>
        (optional (orderBy h)).bind fun orderBy => skip (optional_silent pivotBy) fun pivotBy =>
          skip (optional_silent (skip (terminal _) fun _ => count)) fun limit => .pure (by
            rw [Select.exprs_eq, List.nil_append])

end

end Phrase.Gives

/-! ## Statements -/

/-- Everything that is derived on some level gives its expressions. -/
theorem phrases_give {m : Subselects} : ∀ levels, (phrases m levels).Give
  | 0 => ⟨.none, .none, .none, .none, .none, .none, .none⟩
  | levels + 1 => by
    have h := phrases_give (m := m) levels
    refine ⟨.disjunction h, .inversion h, .factor h, .select h, ?_, ?_, ?_⟩
    · simp only [phrases]
      split
      · exact .select h
      · exact .none
    · simp only [phrases]
      split
      · exact h.select
      · exact .none
    · simp only [phrases]
      split
      · exact .disjunction h
      · exact .such (.disjunction h)

namespace Phrase.Gives

variable {G : Phrases} (h : G.Give)
include h

theorem shorthandSource : (Phrase.optional (shorthandSource G)).Gives [] shorthandSourceExprs :=
  optional (skip (terminal _) fun _ => entryFilter h)

omit h in
theorem summary : (Phrase.optional summary).Silent := optional_silent (skip (terminal _) fun _ => name)

/-- A statement gives its expressions. -/
theorem statement : (statement G).Gives [] Statement.exprs :=
  oneOf_cons (h.select.bind fun _ => .pure rfl)
    (oneOf_cons
      (bind (F := fun b => Statement.exprs (.balances b)) (skip (terminal _) fun _ => skip summary fun _ =>
        (shorthandSource h).bind fun _ => (optional (condition h)).bind fun _ => .pure rfl)
          fun _ => .pure rfl)
      (oneOf_cons
        (bind (F := fun j => Statement.exprs (.journal j)) (skip (terminal _) fun _ =>
          skip (optional_silent stringValue) fun _ => skip summary fun _ =>
            (shorthandSource h).bind fun _ => .pure rfl) fun _ => .pure rfl)
        (oneOf_cons
          (bind (F := fun p => Statement.exprs (.print p)) (skip (terminal _) fun _ =>
            (shorthandSource h).bind fun _ => .pure rfl) fun _ => .pure rfl)
          oneOf_nil)))

end Phrase.Gives

/-- The parameters of a parsed statement are those among the tokens, in order. -/
theorem placeholders_of_parse {source : String} {limit : Nat} {t : Statement}
    (h : parse source limit = .ok t) :
    ∃ lexemes, scan source = .ok lexemes ∧ t.placeholders = placeholdersIn lexemes := by
  obtain ⟨lexemes, hs, -, ht⟩ := derived_of_parse h
  exact ⟨lexemes, hs, (Phrase.Gives.statement (phrases_give limit) lexemes t ht).symm⟩

theorem placeholders_of_parse_query : ∃ t lexemes,
    parse "SELECT a WHERE x IN %s AND y = %(k)s ORDER BY %s" 4 = .ok t ∧
      scan "SELECT a WHERE x IN %s AND y = %(k)s ORDER BY %s" = .ok lexemes ∧
        t.placeholders = placeholdersIn lexemes := by
  have hread : (parse "SELECT a WHERE x IN %s AND y = %(k)s ORDER BY %s" 4).toOption.isSome = true := by
    cbv
  obtain ⟨t, ht⟩ := Option.isSome_iff_exists.mp hread
  have hok := Phrase.toOption_eq_some_iff.mp ht
  obtain ⟨lexemes, hs, hp⟩ := placeholders_of_parse hok
  exact ⟨t, lexemes, hok, hs, hp⟩

end LedgerQuery
