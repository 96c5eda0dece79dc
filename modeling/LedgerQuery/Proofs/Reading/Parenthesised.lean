import LedgerQuery.Proofs.Lexing.Parentheses
import LedgerQuery.Proofs.Reading.CarriesSelect

/-!
# The texts of targets in parentheses

A pair of parentheses can be put around the text of a target without a name, and the text is parsed as the same
statement, under a limit that is one higher (`parse_enclose`).

There is one exception (`not_parse_enclose`).  A subselect may stand without parentheses, and then an arithmetic
operator may follow its last target.  If this target ends with a test for null, the operator does not go on with the
target but with the whole subselect.  A target in parentheses is an operand, so the operator goes on with it.
-/

namespace LedgerQuery

open Token LedgerQuery.Parser

variable {source : String} {limit : Nat} {t : Statement} {span : Span} {before u after lexemes : List Lexeme} {x : Target}

/-! ## All queries of a statement -/

section
variable {ι : Type} {p : Expr → Prop} {Q : ι → Select → Prop}

theorem all_forall [Nonempty ι] : (∀ e : Expr, (∀ i, e.All p (Q i)) → e.All p fun s => ∀ i, Q i s) ∧
    ∀ s : Select, (∀ i, s.All p (Q i)) → s.All p fun s => ∀ i, Q i s := by
  obtain ⟨i⟩ := ‹Nonempty ι›
  refine Inductive.all ⟨fun e hparts hsub h => ?_, fun s hparts hsource h => ?_⟩
  · have h := fun j => Expr.all_iff.mp (h j)
    exact .mk (h i).1 (fun y hy => hparts y hy fun j => (h j).2.1 y hy) fun s hs => hsub s hs fun j => (h j).2.2 s hs
  · have h := fun j => Select.all_iff.mp (h j)
    exact .mk (fun j => (h j).1) (fun y hy => hparts y hy fun j => (h j).2.1 y hy) fun s' hs =>
      hsource s' hs fun j => (h j).2.2 s' hs

/-- Some properties that all queries of a statement have, they have together. -/
theorem Statement.all_forall [Nonempty ι] (h : ∀ i, t.All p (Q i)) : t.All p fun s => ∀ i, Q i s := by
  obtain ⟨he, hs⟩ := @LedgerQuery.all_forall ι p Q _
  cases t with
  | select s => exact hs s h
  | balances b => exact ⟨fun f hf y hy => he y fun i => (h i).1 f hf y hy, fun y hy => he y fun i => (h i).2 y hy⟩
  | journal j => exact fun f hf y hy => he y fun i => h i f hf y hy
  | print pr => exact fun f hf y hy => he y fun i => h i f hf y hy

end

/-! ## Statements around a pair of parentheses -/

/-- A statement is parsed around the parentheses, or no target without a name in it has the span of the run. -/
theorem Enclosure.parse (g : Enclosure) (h : parseLexemes g.lexemes limit = .ok (t, span)) :
    t.All (fun _ => True) (Select.Lacks g.span) ∨
      ∃ t' span', parseLexemes (g.before ++ g.enclosed) (limit + 1) = .ok (t', span') ∧ t.Same t' := by
  obtain ⟨s, hs, hend⟩ := parseLexemes_eq_ok h
  refine (Carries.statement (nested_carries g limit (limit + 1) limit) (Input.start g.lexemes) t s
    (List.suffix_refl _) hs).imp_right fun ⟨pre, _, hpre, hrun⟩ => ?_
  obtain rfl : g.before = pre := List.append_cancel_right hpre
  obtain ⟨t', s', hs', hrest, hlike⟩ := hrun (Input.start (g.before ++ g.enclosed)) rfl
  obtain ⟨span', hparse⟩ := parseLexemes_of_statement_ok hs' (by rw [hrest, hend])
  exact ⟨t', span', hparse, hlike trivial⟩

/-! ## Targets and their texts -/

/-- Each of some targets stands somewhere. -/
theorem TargetsAt.exists_standsAt {ts : List Target} {rest : List Lexeme} (h : TargetsAt limit before ts rest) :
    ∀ x ∈ ts, ∃ before' u after, before ++ rest = before' ++ u ++ after ∧ x.StandsAt limit before' u after := by
  induction h with
  | last h =>
    intro x hx
    obtain rfl := List.mem_singleton.mp hx
    exact ⟨_, _, _, (List.append_assoc ..).symm, h⟩
  | cons h hc _ ih =>
    intro x hx
    rcases List.mem_cons.mp hx with rfl | hx
    · exact ⟨_, _, _, (List.append_assoc ..).symm, h⟩
    · obtain ⟨before', u, after, heq, hx⟩ := ih x hx
      exact ⟨before', u, after, by rw [← heq]; simp, hx⟩

/-- No percent sign is directly before a target. -/
theorem BeforeTarget.ne_percent (h : BeforeTarget before) : ∀ l ∈ before.getLast?, l.token ≠ .symbol .percent := by
  intro l hl hpercent
  obtain ⟨m, hm, y, hy, hstart⟩ := h
  obtain rfl := Option.mem_unique hl hm
  rw [hpercent] at hstart
  simp only [targetStarts, List.mem_cons, List.not_mem_nil, or_false] at hy
  rcases hy with rfl | rfl | rfl <;> cases hstart

/-- A token that is no arithmetic operator and no placeholder is read in one way. -/
theorem Token.steady_of_not_arithmetic {s : Token} (h : s.isArithmetic = false) (hp : ∀ p, s ≠ .placeholder p) :
    s.Steady := by
  refine ⟨?_, ?_⟩
  · rintro rfl
    cases h
  · cases s with
    | placeholder p => exact absurd rfl (hp p)
    | _ => rfl

namespace Target.StandsAt

variable (h : x.StandsAt limit before u after) (hscan : scan source = .ok (before ++ u ++ after))
  (harithmetic : (nextOf after).isArithmetic = false)

/-- The run of a target in a text, and a pair of parentheses. -/
def enclosure : Enclosure where
  before := before
  run := u
  after := after
  left := ⟨.symbol .leftParen, default⟩
  right := ⟨.symbol .rightParen, default⟩
  left_token := rfl
  right_token := rfl
  opens := h.opens
  expression := h.span_eq.1
  ends := fun hd => h.ends (.inl hd)
  arithmetic := harithmetic
  ordered := by simpa using (scan_ordered hscan).1
  nonempty := by simpa using (scan_ordered hscan).2

theorem span_enclosure : x.span = some (h.enclosure hscan harithmetic).span := by
  obtain ⟨hne, first, hfirst, last, hlast, hspan, -⟩ := h.span_of_scan hscan
  obtain rfl := Option.mem_unique hfirst (List.head?_eq_some_head hne)
  obtain rfl := Option.mem_unique hlast (List.getLast?_eq_some_getLast hne)
  exact hspan

/-- The parentheses in the text are the same tokens. -/
theorem scan_enclosure : ∃ lexemes, scan ((h.enclosure hscan harithmetic).span.enclose source) = .ok lexemes ∧
    ((h.enclosure hscan harithmetic).before ++ (h.enclosure hscan harithmetic).enclosed).map Lexeme.token =
      lexemes.map Lexeme.token := by
  obtain ⟨hne, first, hfirst, last, hlast, hspan, -⟩ := h.span_of_scan hscan
  obtain ⟨first', hfirst', last', hlast', lexemes, hscan', htokens⟩ := scan_enclose hscan hne
    h.opens.endsOperand_eq h.opens.ne_percent fun s hs => by
      have hnext : nextOf after = s := by
        cases after with
        | nil => cases hs
        | cons l rest => simpa using hs
      exact Token.steady_of_not_arithmetic (hnext ▸ harithmetic) fun p hp => h.ends (.inr ⟨p, hnext.trans hp⟩)
  obtain rfl := Option.mem_unique hfirst hfirst'
  obtain rfl := Option.mem_unique hlast hlast'
  rw [← Option.some.inj (hspan.symm.trans (h.span_enclosure hscan harithmetic))]
  exact ⟨lexemes, hscan', by simp [htokens, Enclosure.enclosed, enclosure]⟩

/-- A statement is parsed from the text with parentheses around that of a target, if some target without a name in it has
the span of this target. -/
theorem parse_enclosure (hparse : parseLexemes (before ++ u ++ after) limit = .ok (t, span))
    (hlacks : ∀ s, x.span = some s → ¬ t.All (fun _ => True) (Select.Lacks s)) :
    ∃ t', LedgerQuery.parse ((h.enclosure hscan harithmetic).span.enclose source) (limit + 1) = .ok t' ∧ t.Same t' := by
  have hlexemes : (h.enclosure hscan harithmetic).lexemes = before ++ u ++ after := (List.append_assoc ..).symm
  obtain ⟨t', span', hparse', hsame⟩ := ((h.enclosure hscan harithmetic).parse (hlexemes ▸ hparse)).resolve_left
    (hlacks _ (h.span_enclosure hscan harithmetic))
  obtain ⟨lexemes, hscan', htokens⟩ := h.scan_enclosure hscan harithmetic
  have halike := parseLexemes_alike (limit + 1) htokens
  rw [hparse'] at halike
  generalize hr : parseLexemes lexemes (limit + 1) = r at halike
  cases halike with
  | ok hsame' => exact ⟨_, (parse_eq_ok_iff hscan').mpr ⟨_, hr⟩, hsame.trans hsame'⟩

end Target.StandsAt

/-! ## Operators after a target -/

/-- Whether the first token after a span is an arithmetic operator. -/
def Span.BeforeArithmetic (tokens : List Lexeme) (span : Span) : Prop :=
  ∃ l ∈ tokens.find? fun l => span.stop ≤ l.span.start, l.token.isArithmetic = true

/-- The first lexeme after another one is the next one. -/
theorem find?_after {rest : List Lexeme} {last : Lexeme} (hordered : (before ++ last :: rest).Pairwise Lexeme.Before)
    (hnonempty : ∀ l ∈ before ++ last :: rest, l.span.start < l.span.stop) :
    (before ++ last :: rest).find? (fun l => last.span.stop ≤ l.span.start) = rest.head? := by
  obtain ⟨-, hlast, hbefore⟩ := List.pairwise_append.mp hordered
  have hnone : before.find? (fun l => last.span.stop ≤ l.span.start) = none := by
    refine List.find?_eq_none.mpr fun l hl => ?_
    have hle : l.span.stop ≤ last.span.start := hbefore l hl last (by simp)
    have := hnonempty l (by simp [hl])
    have := hnonempty last (by simp)
    simp only [decide_eq_true_eq]
    omega
  have hself := hnonempty last (by simp)
  rw [List.find?_append, hnone, Option.none_or, List.find?_cons_of_neg (by simpa using hself)]
  cases rest with
  | nil => rfl
  | cons l rest =>
    have hle : last.span.stop ≤ l.span.start := (List.pairwise_cons.mp hlast).1 l (by simp)
    exact List.find?_cons_of_pos (by simpa using hle)

/-- The first token after the span of a target is the one that follows the run of the target. -/
theorem Target.StandsAt.beforeArithmetic (h : x.StandsAt limit before u after)
    (hscan : scan source = .ok (before ++ u ++ after)) (hnext : (nextOf after).isArithmetic = true)
    (tokens : List Lexeme) (hspan : x.span = some span) : span.BeforeArithmetic (before ++ u ++ after ++ tokens) := by
  obtain ⟨-, _, -, last, hlast, hspan', -⟩ := h.span_of_scan hscan
  obtain rfl := Option.some.inj (hspan.symm.trans hspan')
  obtain ⟨v, rfl⟩ := List.getLast?_eq_some_iff.mp hlast
  obtain ⟨hordered, hnonempty⟩ := scan_ordered hscan
  have hlexemes : before ++ (v ++ [last]) ++ after = before ++ v ++ last :: after := by simp
  rw [hlexemes] at hordered hnonempty ⊢
  cases after with
  | nil => cases hnext
  | cons l rest =>
    refine ⟨l, ?_, hnext⟩
    rw [List.find?_append, find?_after hordered hnonempty]
    rfl

/-! ## Whole texts -/

/-- Whether the texts of all targets without a name of a query can stand in parentheses, unless an arithmetic operator
follows.  What is parsed then under a limit that is one higher is the same statement. -/
def Select.Encloses (source : String) (tokens : List Lexeme) (limit : Nat) (t : Statement) (q : Select) : Prop :=
  ∀ ts, q.targets = .list ts → ∀ x ∈ ts, x.name = none → ∃ span, x.span = some span ∧
    (¬ span.BeforeArithmetic tokens → ∃ t', parse (span.enclose source) (limit + 1) = .ok t' ∧ t.Same t')

/-- The text of every target without a name can stand in parentheses, unless an arithmetic operator follows it.  What is
parsed then is the same statement. -/
theorem parse_enclose (h : parse source limit = .ok t) : ∃ tokens, tokenize source = .ok tokens ∧
    t.All (fun _ => True) (Select.Encloses source tokens limit t) := by
  obtain ⟨lexemes, hscan, -⟩ := derived_of_parse h
  obtain ⟨span, hparse⟩ := (parse_eq_ok_iff hscan).mp h
  refine ⟨lexemes ++ [⟨.eof, endOfText source⟩], by rw [tokenize, hscan]; rfl, ?_⟩
  have hlocated := located_of_parseLexemes hparse
  -- what is known of all queries is known of each
  have hknown : t.All (fun _ => True) fun q => ∀ Q : {Q // t.All (fun _ => True) Q}, Q.1 q :=
    haveI : Nonempty {Q // t.All (fun _ => True) Q} := ⟨⟨_, hlocated⟩⟩
    Statement.all_forall fun Q => Q.2
  refine hknown.imp (fun _ => id) fun q hq ts hts x hx hname => ?_
  obtain ⟨before, rest, rfl, hat⟩ := hq ⟨_, hlocated⟩ ts hts
  obtain ⟨before', u, after, heq, hstands⟩ := hat.exists_standsAt x hx
  rw [heq] at hscan hparse ⊢
  obtain ⟨-, _, -, _, -, hspan, -⟩ := hstands.span_of_scan hscan
  refine ⟨_, hspan, fun hnot => ?_⟩
  have harithmetic : (nextOf after).isArithmetic = false := by
    rw [← Bool.not_eq_true]
    exact fun hnext => hnot (hstands.beforeArithmetic hscan hnext _ hspan)
  rw [Option.some.inj (hspan.symm.trans (hstands.span_enclosure hscan harithmetic))]
  exact hstands.parse_enclosure hscan harithmetic hparse fun s hs hall => hq ⟨_, hall⟩ ts hts x hx hname hs

/-- A subselect without parentheses that ends with a key that is an integer, and a chain of connectives. -/
theorem parse_enclose_subselect :
    let source := "SELECT a OR b, SELECT %s, 'x' GROUP BY 2"
    ∃ t, parse source 6 = .ok t ∧ ∃ tokens, tokenize source = .ok tokens ∧
      t.All (fun _ => True) (Select.Encloses source tokens 6 t) := by
  intro source
  have hread : (parse source 6).toOption.isSome = true := by cbv
  obtain ⟨t, ht⟩ := Option.isSome_iff_exists.mp hread
  have hparse := Phrase.toOption_eq_some_iff.mp ht
  exact ⟨t, hparse, parse_enclose hparse⟩

/-- An operator after a test for null at the end of a subselect goes on with the subselect, but in parentheses with the
test. -/
theorem not_parse_enclose : ¬ ∀ (source : String) (limit : Nat) (t : Statement), parse source limit = .ok t →
    t.All (fun _ => True) fun q => ∀ ts, q.targets = .list ts → ∀ x ∈ ts, x.name = none →
      ∃ span, x.span = some span ∧ ∃ t', parse (span.enclose source) (limit + 1) = .ok t' ∧ t.Same t' := by
  intro hall
  let null : Target := ⟨.unary .isNull (.column "a"), none, some ⟨14, 23⟩⟩
  let sum : Expr := .binary (.subselect (.ofTargets (.list [null]))) .add (.literal (.integer 1))
  let t : Statement := .select (.ofTargets (.list [⟨sum, none, some ⟨7, 27⟩⟩]))
  have hparse : parse "SELECT SELECT a IS NULL + 1" 4 = .ok t := by cbv
  obtain ⟨-, hquery, -⟩ := Select.all_iff.mp (hall _ 4 t hparse)
  obtain ⟨-, hsum, -⟩ := Expr.all_iff.mp (hquery sum (by simp [Select.parts, Targets.parts, Select.ofTargets]))
  obtain ⟨-, -, hsubselect⟩ := Expr.all_iff.mp (hsum (.subselect (.ofTargets (.list [null]))) (by simp [sum, Expr.parts]))
  obtain ⟨htargets, -, -⟩ := Select.all_iff.mp (hsubselect _ rfl)
  obtain ⟨_, hspan, t', ht', hsame⟩ := htargets [null] rfl null (by simp) rfl
  rw [← Option.some.inj hspan] at ht'
  have henclosed : parse (Span.enclose ⟨14, 23⟩ "SELECT SELECT a IS NULL + 1") (4 + 1) = .ok (.select (.ofTargets
      (.list [⟨.subselect (.ofTargets (.list [⟨.binary (.unary .isNull (.column "a")) .add (.literal (.integer 1)), none,
        some ⟨14, 29⟩⟩])), none, some ⟨7, 29⟩⟩]))) := by cbv
  obtain rfl := Except.ok.inj (henclosed.symm.trans ht')
  exact absurd hsame (by decide)

end LedgerQuery
