import LedgerQuery.Proofs.Written.Reread

/-!
# The limit and the height of trees

A path goes down a tree from an expression or a query to one that it holds directly, and so on.  Readers
go one level deeper at parentheses, calls, signs, `NOT`, subselects and clauses.  Sums, products,
attributes and subscripts are read in a loop instead, and each turn of the loop puts one more node above
the tree that is there.  So the steps of a path are of two kinds.

* A step from a sum or a product to its left operand, or from an attribute or a subscript to its operand,
  goes back one turn of a loop.
* Every other step is a descent.

The limit bounds the descents of every path in a tree that is parsed (`descents_le_of_parse`).  It does
not bound the turns of the loops: attributes of attributes are parsed at the same level however many they
are (`attributes_path`).
-/

namespace LedgerQuery

/-- An expression or a query. -/
inductive Node where
  /-- An expression. -/
  | expr (e : Expr)
  /-- A query. -/
  | query (s : Select)

/-- What an expression holds directly, each with the number of descents there: one, or none when the
expression is put on top of it by a loop. -/
def Expr.steps : Expr → List (Nat × Node)
  | .attribute x _ | .subscript x _ => [(0, .expr x)]
  | .binary left op right => [(if op.isComparison then 1 else 0, .expr left), (1, .expr right)]
  | .subselect s => [(1, .query s)]
  | e => e.parts.map fun x => (1, .expr x)

/-- What a query holds directly, each one descent below it. -/
def Select.steps (s : Select) : List (Nat × Node) :=
  s.parts.map (fun x => (1, .expr x)) ++
    match s.source with
    | some (.query s') => [(1, .query s')]
    | _ => []

/-- What an expression or a query holds directly, each with the number of descents there. -/
def Node.steps : Node → List (Nat × Node)
  | .expr e => e.steps
  | .query s => s.steps

/-- Whether a path of so many nodes and so many descents goes down from an expression or a query. -/
inductive Node.Path : Node → (nodes descents : Nat) → Prop where
  /-- A path that ends. -/
  | stop (n : Node) : n.Path 1 0
  /-- A path that goes on. -/
  | step {n m : Node} {cost nodes descents : Nat} : (cost, m) ∈ n.steps → m.Path nodes descents →
    n.Path (nodes + 1) (cost + descents)

/-- The expressions and queries that a statement holds directly. -/
def Statement.roots : Statement → List Node
  | .select s => [.query s]
  | .balances b => ((b.source.map EntryFilter.parts).getD [] ++ b.condition.toList).map .expr
  | .journal j => ((j.source.map EntryFilter.parts).getD []).map .expr
  | .print p => ((p.source.map EntryFilter.parts).getD []).map .expr

/-! ## Descents -/

/-- Whether every path from an expression or a query has at most a bound of descents, with some of them to
spare. -/
def Node.Spares (n : Node) (spare bound : Nat) : Prop :=
  ∀ nodes descents, n.Path nodes descents → descents + spare ≤ bound

namespace Node.Spares

variable {n : Node} {spare bound : Nat}

theorem mono {spare' bound' : Nat} (h : n.Spares spare bound) (hle : spare' + bound ≤ bound' + spare) :
    n.Spares spare' bound' := fun nodes descents hp => by
  have := h nodes descents hp
  omega

theorem of_steps (hle : spare ≤ bound)
    (h : ∀ cost m, (cost, m) ∈ n.steps → m.Spares (spare + cost) bound) : n.Spares spare bound := by
  intro nodes descents hp
  cases hp with
  | stop => omega
  | step hm hp =>
    have := h _ _ hm _ _ hp
    omega

/-- An expression that is not put on top of its parts by a loop. -/
theorem of_parts {e : Expr} (hle : spare ≤ bound) (hs : e.steps = e.parts.map fun x => (1, .expr x))
    (h : ∀ x ∈ e.parts, (Node.expr x).Spares (spare + 1) bound) : (Node.expr e).Spares spare bound := by
  refine of_steps hle fun cost m hm => ?_
  rw [Node.steps, hs, List.mem_map] at hm
  obtain ⟨x, hx, he⟩ := hm
  obtain ⟨rfl, rfl⟩ := Prod.mk.inj he
  exact h x hx

theorem of_select {s : Select} (hle : spare ≤ bound) (hp : ∀ x ∈ s.parts, (Node.expr x).Spares (spare + 1) bound)
    (hq : ∀ s', s.source = some (.query s') → (Node.query s').Spares (spare + 1) bound) :
    (Node.query s).Spares spare bound := by
  refine of_steps hle fun cost m hm => ?_
  rcases List.mem_append.mp hm with hm | hm
  · obtain ⟨x, hx, he⟩ := List.mem_map.mp hm
    obtain ⟨rfl, rfl⟩ := Prod.mk.inj he
    exact hp x hx
  · split at hm
    · next s' hs =>
      obtain ⟨rfl, rfl⟩ := Prod.mk.inj (List.mem_singleton.mp hm)
      exact hq s' hs
    · cases hm

end Node.Spares

/-! ## Descents and levels -/

/-- Whether everything that goes one nesting level deeper descends a bounded number of times.  The
stronger a place asks an expression to bind, the more descents it has to spare. -/
structure Phrases.Bounded (G : Phrases) (bound : Nat) : Prop where
  /-- One descent is left over, to the star of a call. -/
  pos : 1 ≤ bound
  /-- Expressions. -/
  expr : ∀ {u x}, G.expr u x → (Node.expr x).Spares 1 bound
  /-- Operands of `NOT`. -/
  inversion : ∀ {u x}, G.inversion u x → (Node.expr x).Spares 3 bound
  /-- Operands of signs. -/
  factor : ∀ {u x}, G.factor u x → (Node.expr x).Spares 7 bound
  /-- Queries. -/
  select : ∀ {u s}, G.select u s → (Node.query s).Spares 8 bound
  /-- Queries as atoms. -/
  bare : ∀ {u s}, G.bare u s → (Node.query s).Spares 8 bound
  /-- There are no queries as expressions in parentheses. -/
  grouped : ∀ {u s}, ¬ G.grouped u s
  /-- A key is an expression. -/
  key : ∀ u x, G.key u x → G.expr u x

section
variable {G : Phrases} {bound : Nat} (hG : G.Bounded bound)
include hG

/-- What stands at a place is bounded if it is when it is put together there. -/
theorem place_spares {e : Expr}
    (hnode : ∀ u, Phrase.node G u e → (Node.expr e).Spares e.strength (bound + 8)) {m : Nat} (hm : m ≤ 8)
    {u : List Lexeme} (h : Phrase.place G m u e) : (Node.expr e).Spares m (bound + 8) := by
  rcases Phrase.of_place hm h with hb | ⟨hle, h⟩
  · simp only [Phrase.bracketed, Phrase.oneOf_cons, Phrase.oneOf_nil, or_false] at hb
    rcases hb with ⟨_, _, _, rfl, -, v, _, x, rfl, hv, _, _, _, rfl, -, rfl, rfl⟩ |
      ⟨_, _, _, rfl, -, v, _, s, rfl, hv, -⟩ | ⟨_, v, _, rfl, -, hv⟩
    · exact (hG.expr hv).mono (by omega)
    · exact absurd hv hG.grouped
    · exact (hG.factor hv).mono (by omega)
  · exact (hnode u h).mono (by omega)

theorem arguments_spare {u : List Lexeme} {args : List Expr} (h : Phrase.arguments G u args) :
    ∀ x ∈ args, (Node.expr x).Spares 9 (bound + 8) := by
  simp only [Phrase.arguments, Phrase.oneOf_cons, Phrase.oneOf_nil, or_false] at h
  rcases h with ⟨_, _, _, rfl, -, _, _, _, rfl, -, _, _, _, rfl, -, rfl, rfl⟩ |
    ⟨_, _, _, rfl, -, _, _, _, rfl, -, rfl, rfl⟩ |
    ⟨_, _, _, rfl, -, v, _, args, rfl, hv, _, _, _, rfl, -, rfl, rfl⟩
  · have := hG.pos
    exact List.forall_mem_singleton.mpr (.of_parts (by omega) rfl (by simp [Expr.parts]))
  · simp
  · intro x hx
    obtain ⟨w, -, hx⟩ := (Phrase.commaList_within hv).2 x hx
    exact (hG.expr hx).mono (by omega)

theorem node_spares_inductive :
    Inductive (fun e => ∀ u, Phrase.node G u e → (Node.expr e).Spares e.strength (bound + 8)) fun _ => True where
  select _ _ _ := trivial
  expr e ih _ u h := by
    have hplace : ∀ x ∈ e.parts, ∀ {m : Nat} {v : List Lexeme}, m ≤ 8 → Phrase.place G m v x →
        (Node.expr x).Spares m (bound + 8) := fun x hx _ _ hm h => place_spares hG (ih x hx) hm h
    have hle := e.strength_le
    cases e with
    | wildcard => exact absurd h id
    | column n => exact .of_parts (by omega) rfl (by simp [Expr.parts])
    | constant value => exact .of_parts (by omega) rfl (by simp [Expr.parts])
    | placeholder p => exact .of_parts (by omega) rfl (by simp [Expr.parts])
    | function n args =>
      obtain ⟨v, w, rfl, -, hw⟩ := h
      exact .of_parts (by omega) rfl (arguments_spare hG hw)
    | «attribute» x n =>
      obtain ⟨v, w, rfl, hv, -⟩ := h
      have hx := hplace x (by simp [Expr.parts]) (Nat.le_refl 8) hv
      exact .of_steps (by omega) (by simpa [Node.steps, Expr.steps, Expr.strength] using hx)
    | subscript x key =>
      obtain ⟨v, w, rfl, hv, -⟩ := h
      have hx := hplace x (by simp [Expr.parts]) (Nat.le_refl 8) hv
      exact .of_steps (by omega) (by simpa [Node.steps, Expr.steps, Expr.strength] using hx)
    | unary op x =>
      refine .of_parts (by omega) rfl (List.forall_mem_singleton.mpr ?_)
      cases op with
      | not =>
        obtain ⟨_, w, _, rfl, -, hw⟩ := h
        exact (hG.inversion hw).mono (by simp only [Expr.strength]; omega)
      | neg =>
        obtain ⟨_, w, _, rfl, -, hw⟩ := h
        exact (hG.factor hw).mono (by simp only [Expr.strength]; omega)
      | _ =>
        obtain ⟨v, w, rfl, hv, -⟩ := h
        exact hplace x (by simp [Expr.parts]) (by simp [Expr.strength]) hv
    | binary left op right =>
      obtain ⟨v, w, x, rfl, hv, -, hx⟩ := h
      have hs : (Expr.binary left op right).strength ≤ 6 := by cases op <;> simp [Expr.strength]
      have hleft := hplace left (by simp [Expr.parts]) (by split <;> omega) hv
      have hright := hplace right (by simp [Expr.parts]) (by omega) hx
      refine .of_steps (by omega) ?_
      simp only [Node.steps, Expr.steps, List.mem_cons, List.not_mem_nil, or_false, Prod.mk.injEq]
      rintro cost m (⟨rfl, rfl⟩ | ⟨rfl, rfl⟩)
      · cases op <;> exact hleft
      · exact hright
    | bool op args =>
      have hs : (Expr.bool op args).strength ≤ 2 := by cases op <;> simp [Expr.strength]
      obtain ⟨first, others, v, w, rfl, hne, rfl, hv, hw⟩ := h
      refine .of_parts (by omega) rfl (List.forall_mem_cons.mpr ⟨?_, fun x hx => ?_⟩)
      · exact hplace first (by simp [Expr.parts]) (by omega) hv
      · obtain ⟨y, -, _, z, _, rfl, -, hz⟩ := hw.within x hx
        exact hplace x (by simp [Expr.parts, hx]) (by omega) hz
    | between x lower upper =>
      obtain ⟨v, a, w, b, y, rfl, hv, -, hw, -, hy⟩ := h
      have hx := hplace x (by simp [Expr.parts]) (by decide) hv
      have hlower := hplace lower (by simp [Expr.parts]) (by decide) hw
      have hupper := hplace upper (by simp [Expr.parts]) (by decide) hy
      exact .of_parts (by omega) rfl (by simpa [Expr.parts, Expr.strength] using ⟨hx, hlower, hupper⟩)
    | subselect s =>
      refine .of_steps (by omega) ?_
      simpa [Node.steps, Expr.steps, Expr.strength] using (hG.bare h).mono (by omega)

/-- What stands at a place descends a bounded number of times. -/
theorem spares_of_place {e : Expr} {m : Nat} (hm : m ≤ 8) {u : List Lexeme} (h : Phrase.place G m u e) :
    (Node.expr e).Spares m (bound + 8) :=
  place_spares hG ((node_spares_inductive hG).all.1 e) hm h

/-- A query descends a bounded number of times. -/
theorem select_spares {u : List Lexeme} {s : Select} (h : Phrase.select G u s) :
    (Node.query s).Spares 8 (bound + 8) := by
  obtain ⟨hparts, hquery⟩ := Phrase.select_parts hG.key h
  refine .of_select (by omega) (fun x hx => ?_) fun s' hs => ?_
  · obtain ⟨v, -, hv⟩ := hparts x hx
    exact (hG.expr hv).mono (by omega)
  · obtain ⟨v, -, hv⟩ := hquery s' hs
    exact (hG.select hv).mono (by omega)

end

/-- Everything that is derived on some level descends at most eight times for each level. -/
theorem phrases_bounded : ∀ levels, (phrases .anywhere levels).Bounded (8 * levels + 1)
  | 0 => ⟨Nat.le_refl 1, fun h => absurd h id, fun h => absurd h id, fun h => absurd h id, fun h => absurd h id,
      fun h => absurd h id, id, fun _ _ h => absurd h id⟩
  | levels + 1 => by
    have hG := phrases_bounded levels
    exact
      { pos := by omega
        expr := fun h => spares_of_place hG (m := 1) (by decide) h
        inversion := fun h => spares_of_place hG (m := 3) (by decide) h
        factor := fun h => spares_of_place hG (m := 7) (by decide) h
        select := fun h => select_spares hG h
        bare := fun h => select_spares hG (by simpa [phrases] using h)
        grouped := fun h => by simp [phrases, Phrase.none] at h
        key := fun u x h => by simpa [phrases] using h }

theorem shorthandSource_spares {u : List Lexeme} {levels : Nat} {o : Option EntryFilter}
    (h : Phrase.optional (Phrase.shorthandSource (phrases .anywhere levels)) u o) :
    ∀ x ∈ (o.map EntryFilter.parts).getD [], (Node.expr x).Spares 0 (8 * levels) := by
  intro x hx
  cases o with
  | none => simp at hx
  | some f =>
    obtain ⟨_, v, _, rfl, -, hv⟩ := h
    obtain ⟨w, -, hw⟩ := Phrase.entryFilter_parts hv x hx
    exact ((phrases_bounded levels).expr hw).mono (by omega)

/-- A statement of the grammar descends at most eight times for each level. -/
theorem statement_spares {u : List Lexeme} {levels : Nat} {t : Statement}
    (h : Phrase.statement (phrases .anywhere levels) u t) : ∀ n ∈ t.roots, n.Spares 0 (8 * levels) := by
  simp only [Phrase.statement, Phrase.oneOf_cons, Phrase.oneOf_nil, or_false] at h
  rcases h with ⟨v, _, s, rfl, hv, rfl, rfl⟩ |
    ⟨_, _, b, rfl, ⟨_, _, _, rfl, -, x, _, n, rfl, hx, y, _, f, rfl, hy, z, _, c, rfl, hz, rfl, rfl⟩, rfl, rfl⟩ |
    ⟨_, _, j, rfl, ⟨_, _, _, rfl, -, w, _, a, rfl, hw, x, _, n, rfl, hx, y, _, f, rfl, hy, rfl, rfl⟩, rfl, rfl⟩ |
    ⟨_, _, p, rfl, ⟨_, _, _, rfl, -, y, _, f, rfl, hy, rfl, rfl⟩, rfl, rfl⟩
  · exact List.forall_mem_singleton.mpr (((phrases_bounded levels).select hv).mono (by omega))
  · refine List.forall_mem_map.mpr fun e he => ?_
    rcases List.mem_append.mp he with he | he
    · exact shorthandSource_spares hy e he
    · obtain ⟨_, v, _, rfl, -, hv⟩ := Phrase.of_optional hz e (by simpa using he)
      exact ((phrases_bounded levels).expr hv).mono (by omega)
  · exact List.forall_mem_map.mpr (shorthandSource_spares hy)
  · exact List.forall_mem_map.mpr (shorthandSource_spares hy)

/-- Every path in a parsed tree descends at most eight times for each level of the limit. -/
theorem descents_le_of_parse {source : String} {limit : Nat} {t : Statement}
    (h : parse source limit = .ok t) {n : Node} (hn : n ∈ t.roots) {nodes descents : Nat}
    (hp : n.Path nodes descents) : descents ≤ 8 * limit := by
  obtain ⟨lexemes, -, -, ht⟩ := derived_of_parse h
  exact statement_spares ht n hn nodes descents hp

/-- The query of an attribute with a sign, as it is parsed. -/
def signedAttribute : Select :=
  .ofTargets (.list [⟨.unary .neg (.attribute (.column "a") "b"), none, some ⟨7, 11⟩⟩])

theorem descents_le_of_parse_signed : parse "SELECT -a.b" 3 = .ok (.select signedAttribute) ∧
    (Node.query signedAttribute).Path 4 2 ∧ 2 ≤ 8 * 3 := by
  have hread : parse "SELECT -a.b" 3 = .ok (.select signedAttribute) := by cbv
  have hpath : (Node.query signedAttribute).Path 4 2 :=
    .step (m := .expr (.unary .neg (.attribute (.column "a") "b"))) (List.mem_singleton.mpr rfl)
      (.step (m := .expr (.attribute (.column "a") "b")) (List.mem_singleton.mpr rfl)
        (.step (m := .expr (.column "a")) (List.mem_singleton.mpr rfl) (.stop _)))
  exact ⟨hread, hpath, descents_le_of_parse hread (List.mem_singleton.mpr rfl) hpath⟩

/-! ## Turns of a loop -/

/-- A column with a number of attributes, one on top of the other. -/
def attributes : Nat → Expr
  | 0 => .column "a"
  | k + 1 => .attribute (attributes k) "a"

theorem isName_a : IsName "a" := .of_lookup (k := none) (by decide) (by decide) (by simp)

theorem attributes_suffixable (k : Nat) : (attributes k).Suffixable ∧ attributes k ≠ .wildcard ∧
    ∀ n, attributes k ≠ .literal (.integer n) := by
  cases k <;> simp [attributes, Expr.Suffixable, Expr.strength, Expr.literal]

theorem attributes_wellFormed (k : Nat) : (attributes k).WellFormed := by
  induction k with
  | zero => exact .mk isName_a (by simp [attributes, Expr.parts]) (by simp [attributes])
  | succ k ih =>
    exact .mk ⟨isName_a, (attributes_suffixable k).2.1⟩ (List.forall_mem_singleton.mpr ih) (by simp [attributes])

theorem attributes_rereads (k : Nat) : (attributes k).Rereads := by
  induction k with
  | zero => exact .mk trivial (by simp [attributes, Expr.parts]) (by simp [attributes])
  | succ k ih =>
    obtain ⟨hs, -, hn⟩ := attributes_suffixable k
    exact .mk ⟨hs, hn⟩ (List.forall_mem_singleton.mpr ih) (by simp [attributes])

theorem attributes_levels (k : Nat) : (attributes k).levels = 0 := by
  induction k with
  | zero => rfl
  | succ k ih => rw [attributes, Expr.levels, ih]

/-- A path goes down all the attributes without a descent. -/
theorem attributes_path {k : Nat} {e : Expr} (h : e.plain = (attributes k).plain) :
    (Node.expr e).Path (k + 1) 0 := by
  induction k generalizing e with
  | zero => exact .stop _
  | succ k ih =>
    cases e <;> simp only [attributes, Expr.plain, reduceCtorEq, Expr.attribute.injEq] at h
    next x n => exact .step (m := .expr x) (List.mem_singleton.mpr rfl) (ih h.1)

/-- The query of any number of attributes is parsed under a limit of two. -/
theorem parse_attributes (k : Nat) : ∃ t, parse (Statement.select (.ofExpr (attributes k))).text 2 = .ok t ∧
    t.Same (.select (.ofExpr (attributes k))) := by
  have hparts : (Select.ofExpr (attributes k)).parts = [attributes k] := rfl
  have hw : (Statement.select (.ofExpr (attributes k))).WellFormed := by
    refine .mk ⟨?_, by simp [Select.ofExpr, Select.ofTargets], by simp [Select.ofExpr, Select.ofTargets],
      by simp [Select.ofExpr, Select.ofTargets], by simp [Select.ofExpr, Select.ofTargets], ?_⟩
      (by rw [hparts, List.forall_mem_singleton]; exact attributes_wellFormed k) (by simp [Select.ofExpr, Select.ofTargets])
    · simp [Select.ofExpr, Select.ofTargets, Targets.Writable]
    · simpa [hparts, eq_comm] using (attributes_suffixable k).2.1
  have hr : (Statement.select (.ofExpr (attributes k))).Rereads :=
    .mk (by simp [Select.Separates, Select.ofExpr, Select.ofTargets])
      (by rw [hparts, List.forall_mem_singleton]; exact attributes_rereads k) (by simp [Select.ofExpr, Select.ofTargets])
  refine hw.parse_text_iff.mpr ⟨hr, ?_⟩
  simp [Statement.levels, Select.ofExpr, Select.ofTargets, Select.levels, Targets.levels, Target.levelsOfList,
    attributes_levels, Source.levelsOfOption, Expr.levelsOfOption, GroupBy.levelsOfOption, SortKey.levelsOfOption]

/-- The limit does not bound the number of nodes on a path. -/
theorem not_exists_height_bound : ¬ ∃ bound, ∀ source limit t, parse source limit = .ok t → ∀ n ∈ t.roots,
    ∀ nodes descents, n.Path nodes descents → nodes ≤ bound * (limit + 1) := by
  rintro ⟨bound, h⟩
  obtain ⟨t, ht, hs⟩ := parse_attributes (3 * bound)
  cases t <;> simp only [Statement.Same, Statement.plain, reduceCtorEq, Statement.select.injEq] at hs
  next s =>
    rw [Select.plain_eq, Select.plain_eq (.ofExpr _), Select.mk.injEq] at hs
    have htargets := hs.1
    cases hts : s.targets with
    | all => simp [hts, Select.ofExpr, Select.ofTargets, Targets.plain] at htargets
    | list items =>
      rw [hts] at htargets
      simp only [Select.ofExpr, Select.ofTargets, Targets.plain, Target.plainList_eq_map, Targets.list.injEq,
        List.map_cons, List.map_nil] at htargets
      obtain ⟨target, rfl, htarget⟩ := List.map_eq_singleton_iff.mp htargets
      have hexpr : target.expr.plain = (attributes (3 * bound)).plain := congrArg Target.expr htarget
      have hmem : (1, Node.expr target.expr) ∈ (Node.query s).steps := by
        simp [Node.steps, Select.steps, Select.parts, hts, Targets.parts]
      have := h _ 2 _ ht (.query s) (List.mem_singleton.mpr rfl) _ _ (.step hmem (attributes_path hexpr))
      omega

end LedgerQuery
