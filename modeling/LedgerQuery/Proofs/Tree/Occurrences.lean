import LedgerQuery.Proofs.Tree.Parts
import LedgerQuery.Query.Postorder

/-!
# Occurrences of expressions

An expression can stand at many places of a statement.  A place is named by the
path that leads to it: the slots of the tree that are entered one after the
other, through the clauses of queries, through the fields of expressions, and
into subselects.  What stands at a path is found by following it, with no regard
to any order.

Paths are ordered as they are written: what is inside comes before what holds
it, and of two slots of one node the one further left comes first.  The
expressions of a statement, as they are listed one after the other, are what
stands at its paths in this order, with no path left out and none taken twice.
-/

namespace LedgerQuery

/-! ## Paths -/

/-- A slot of a node, which an expression or a query can stand in.  Where a node has several slots of
one kind, they are counted. -/
inductive Slot where
  /-- An argument of a function or of a connective. -/
  | argument (i : Nat)
  /-- The only operand, or the one that is tested for a range. -/
  | operand
  /-- The lower end of a range. -/
  | lower
  /-- The upper end of a range. -/
  | upper
  /-- The left operand. -/
  | left
  /-- The right operand. -/
  | right
  /-- A target of a query. -/
  | target (i : Nat)
  /-- The source of a query. -/
  | source
  /-- The condition on rows. -/
  | condition
  /-- A key to group by. -/
  | groupKey (i : Nat)
  /-- The condition on groups. -/
  | having
  /-- A key to sort by. -/
  | sortKey (i : Nat)
deriving DecidableEq, Repr

/-- The kind of a slot, counted from the left over the slots of one node. -/
def Slot.rank : Slot → Nat
  | .argument _ | .operand | .left | .target _ => 0
  | .lower | .right | .source => 1
  | .upper | .condition => 2
  | .groupKey _ => 3
  | .having => 4
  | .sortKey _ => 5

/-- The number of a slot among those of its kind. -/
def Slot.index : Slot → Nat
  | .argument i | .target i | .groupKey i | .sortKey i => i
  | _ => 0

/-- Of two slots of one node, whether the first is further left. -/
def Slot.Before (f g : Slot) : Prop := f.rank < g.rank ∨ f.rank = g.rank ∧ f.index < g.index

instance (f g : Slot) : Decidable (f.Before g) := inferInstanceAs (Decidable (_ ∨ _))

theorem Slot.Before.ne {f g : Slot} (h : f.Before g) : f ≠ g := by
  rintro rfl
  simp [Slot.Before] at h

/-- A path from a node down to one of its places. -/
abbrev Path := List Slot

/-- The order of paths: what is inside comes before what holds it, and otherwise the slots at which two
paths part decide. -/
inductive Path.Before : Path → Path → Prop where
  /-- What is inside comes first. -/
  | inside (f : Slot) (p : Path) : Before (f :: p) []
  /-- The slot further left comes first. -/
  | part {f g : Slot} (p q : Path) : f.Before g → Before (f :: p) (g :: q)
  /-- In the same slot the rest of the path decides. -/
  | slot (f : Slot) {p q : Path} : Before p q → Before (f :: p) (f :: q)

theorem Path.Before.ne {p q : Path} (h : p.Before q) : p ≠ q := by
  induction h with
  | inside => simp
  | part p q h => simp [h.ne]
  | slot f h ih => simp [ih]

/-- The order of paths in one piece: the longer of two paths of which one continues the other comes
first, and of two paths that part the one with the slot further left. -/
theorem Path.before_iff {p q : Path} :
    p.Before q ↔ (q <+: p ∧ q ≠ p) ∨
      ∃ r f p' g q', p = r ++ f :: p' ∧ q = r ++ g :: q' ∧ Slot.Before f g := by
  constructor
  · intro h
    induction h with
    | inside f p => exact .inl ⟨List.nil_prefix, by simp⟩
    | part p q h => exact .inr ⟨[], _, p, _, q, rfl, rfl, h⟩
    | slot f h ih =>
      rcases ih with ⟨hstart, hne⟩ | ⟨r, g, p', g', q', rfl, rfl, hg⟩
      · exact .inl ⟨(List.prefix_cons_inj f).mpr hstart, by simpa using hne⟩
      · exact .inr ⟨f :: r, g, p', g', q', rfl, rfl, hg⟩
  · rintro (⟨⟨r, rfl⟩, hne⟩ | ⟨r, f, p', g, q', rfl, rfl, h⟩)
    · induction q with
      | nil =>
        cases r with
        | nil => simp at hne
        | cons f r => exact .inside f r
      | cons f q ih => exact .slot f (ih (by simpa using hne))
    · induction r with
      | nil => exact .part _ _ h
      | cons f r ih => exact .slot f ih

/-! ## What stands at a path -/

/-- A node of a tree that slots belong to. -/
inductive Branch where
  /-- An expression. -/
  | expr (e : Expr)
  /-- A query that is the source of another. -/
  | query (s : Select)

/-- The expression that a source of entries is filtered by. -/
def EntryFilter.branch? (f : EntryFilter) : Option Branch := f.expression.map .expr

/-- What a source holds, a query or the expression of a filter. -/
def Source.branch? : Source → Option Branch
  | .table _ => none
  | .query select => some (.query select)
  | .entries filter => filter.branch?

/-- The expression of a key that has one. -/
def ColumnKey.expr? : ColumnKey → Option Expr
  | .index _ => none
  | .expr e => some e

/-- The targets that are listed. -/
def Targets.items : Targets → List Target
  | .all => []
  | .list items => items

/-- What stands in a slot of a query. -/
def Select.child? (s : Select) : Slot → Option Branch
  | .target i => s.targets.items[i]?.map fun t => .expr t.expr
  | .source => s.source.bind Source.branch?
  | .condition => s.condition.map .expr
  | .groupKey i => (s.groupBy.bind fun g => g.keys[i]?).bind fun k => k.expr?.map .expr
  | .having => s.groupBy.bind fun g => g.having.map .expr
  | .sortKey i => (s.orderBy.bind fun keys => keys[i]?).bind fun k => k.column.expr?.map .expr
  | _ => none

/-- What stands in a slot of an expression.  The slots of a subselect are those of its query. -/
def Expr.child? : Expr → Slot → Option Branch
  | .function _ args, .argument i | .bool _ args, .argument i => args[i]?.map .expr
  | .attribute x _, .operand | .subscript x _, .operand | .unary _ x, .operand => some (.expr x)
  | .binary left _ _, .left => some (.expr left)
  | .binary _ _ right, .right => some (.expr right)
  | .between x _ _, .operand => some (.expr x)
  | .between _ lower _, .lower => some (.expr lower)
  | .between _ _ upper, .upper => some (.expr upper)
  | .subselect query, f => query.child? f
  | _, _ => none

/-- What stands in a slot of a node. -/
def Branch.child? : Branch → Slot → Option Branch
  | .expr e => e.child?
  | .query s => s.child?

/-- What stands in a slot of a statement. -/
def Statement.child? : Statement → Slot → Option Branch
  | .select query, f => query.child? f
  | .balances query, .source => query.source.bind EntryFilter.branch?
  | .balances query, .condition => query.condition.map .expr
  | .journal query, .source => query.source.bind EntryFilter.branch?
  | .print query, .source => query.source.bind EntryFilter.branch?
  | _, _ => none

/-- The expression at a path from a node, if there is one.  At the empty path it is the node itself. -/
def Branch.exprAt? : Path → Branch → Option Expr
  | [], .expr e => some e
  | [], .query _ => none
  | f :: p, b => (b.child? f).bind (exprAt? p)

/-- The expression below a node with the given slots. -/
def exprBelow? (child? : Slot → Option Branch) : Path → Option Expr
  | [] => none
  | f :: p => (child? f).bind (Branch.exprAt? p)

/-- The expression at a path of a statement, if there is one. -/
def Statement.exprAt? (s : Statement) : Path → Option Expr := exprBelow? s.child?

/-! ## The expressions of queries, clause by clause -/

theorem Expr.postorderOfList_eq (es : List Expr) : Expr.postorderOfList es = es.flatMap Expr.postorder := by
  induction es with
  | nil => rfl
  | cons e es ih => rw [Expr.postorderOfList, ih, List.flatMap_cons]

theorem Target.exprsOfList_eq (ts : List Target) :
    Target.exprsOfList ts = ts.flatMap fun t => t.expr.postorder := by
  induction ts with
  | nil => rfl
  | cons t ts ih => obtain ⟨e, name, span⟩ := t; rw [Target.exprsOfList, ih, List.flatMap_cons]

theorem ColumnKey.exprsOfList_eq (ks : List ColumnKey) :
    ColumnKey.exprsOfList ks = ks.flatMap ColumnKey.exprs := by
  induction ks with
  | nil => rfl
  | cons k ks ih => rw [ColumnKey.exprsOfList, ih, List.flatMap_cons]

theorem SortKey.exprsOfList_eq (ks : List SortKey) :
    SortKey.exprsOfList ks = ks.flatMap fun k => k.column.exprs := by
  induction ks with
  | nil => rfl
  | cons k ks ih => obtain ⟨column, direction⟩ := k; rw [SortKey.exprsOfList, ih, List.flatMap_cons]

theorem GroupBy.exprs_eq (keys : List ColumnKey) (having : Option Expr) :
    GroupBy.exprs ⟨keys, having⟩ = keys.flatMap ColumnKey.exprs ++ (having.map Expr.postorder).getD [] := by
  cases having <;> simp [GroupBy.exprs, ColumnKey.exprsOfList_eq]

theorem Select.exprs_eq (targets : Targets) (distinct : Bool) (source : Option Source)
    (condition : Option Expr) (groupBy : Option GroupBy) (orderBy : Option (List SortKey))
    (pivotBy : Option PivotBy) (limit : Option UInt64) :
    Select.exprs ⟨targets, distinct, source, condition, groupBy, orderBy, pivotBy, limit⟩ =
      targets.exprs ++ (source.map Source.exprs).getD [] ++ (condition.map Expr.postorder).getD [] ++
        (groupBy.map GroupBy.exprs).getD [] ++ (orderBy.map SortKey.exprsOfList).getD [] := by
  cases source <;> cases condition <;> cases groupBy <;> cases orderBy <;> rfl

theorem Targets.exprs_eq (t : Targets) : t.exprs = t.items.flatMap fun t => t.expr.postorder := by
  cases t with
  | all => rfl
  | list items => exact Target.exprsOfList_eq items

theorem ColumnKey.exprs_eq (k : ColumnKey) : k.exprs = (k.expr?.map Expr.postorder).getD [] := by
  cases k <;> rfl

/-! ## The slots of a node, from left to right -/

/-- All that a node holds, the node itself included, in order. -/
def Branch.exprs : Branch → List Expr
  | .expr e => e.postorder
  | .query s => s.exprs

@[simp] theorem Branch.exprs_expr (e : Expr) : (Branch.expr e).exprs = e.postorder := rfl

@[simp] theorem Branch.exprs_query (s : Select) : (Branch.query s).exprs = s.exprs := rfl

/-- One slot, if something stands in it. -/
def single (slot : Slot) (b : Option Branch) : List (Slot × Branch) := b.toList.map (slot, ·)

/-- The slots of one kind that expressions stand in, one for each thing that has one. -/
def counted {α : Type} (slot : Nat → Slot) (expr? : α → Option Expr) (as : List α) : List (Slot × Branch) :=
  as.zipIdx.filterMap fun x => (expr? x.1).map fun e => (slot x.2, .expr e)

section
variable {α : Type} {slot : Nat → Slot} {expr? : α → Option Expr} {as : List α} {f : Slot} {b : Branch}

@[simp] theorem mem_single {b? : Option Branch} {g : Slot} : (f, b) ∈ single g b? ↔ g = f ∧ b? = some b := by
  cases b? <;> simp [single, and_comm, eq_comm]

@[simp] theorem mem_counted :
    (f, b) ∈ counted slot expr? as ↔ ∃ i a e, as[i]? = some a ∧ expr? a = some e ∧ slot i = f ∧ .expr e = b := by
  simp only [counted, List.mem_filterMap, Prod.exists, List.mem_zipIdx_iff_getElem?, Option.map_eq_some_iff,
    Prod.mk.injEq]
  constructor
  · rintro ⟨a, i, ha, e, he, hf, hb⟩
    exact ⟨i, a, e, ha, he, hf, hb⟩
  · rintro ⟨i, a, e, ha, he, hf, hb⟩
    exact ⟨a, i, ha, e, he, hf, hb⟩

theorem flatMap_single (g : Slot) (b? : Option Branch) :
    ((single g b?).flatMap fun c => c.2.exprs) = (b?.map Branch.exprs).getD [] := by
  cases b? <;> simp [single]

theorem flatMap_counted (slot : Nat → Slot) (expr? : α → Option Expr) (as : List α) :
    ((counted slot expr? as).flatMap fun c => c.2.exprs) =
      as.flatMap fun a => ((expr? a).map Expr.postorder).getD [] := by
  unfold counted
  generalize 0 = n
  induction as generalizing n with
  | nil => rfl
  | cons a as ih =>
    rw [List.zipIdx_cons, List.flatMap_cons, ← ih (n + 1), List.filterMap_cons]
    cases expr? a with
    | none => rfl
    | some e => exact List.flatMap_cons

end

/-- Slots from left to right, of kinds from one to before another. -/
def Within (lo hi : Nat) (cs : List (Slot × Branch)) : Prop :=
  cs.Pairwise (fun c d => c.1.Before d.1) ∧ ∀ c ∈ cs, lo ≤ c.1.rank ∧ c.1.rank < hi

namespace Within

variable {lo mid hi : Nat} {cs ds : List (Slot × Branch)}

theorem single (slot : Slot) (b : Option Branch) {r : Nat} (hrank : slot.rank = r) :
    Within r (r + 1) (single slot b) := by
  subst hrank
  cases b <;> simp [LedgerQuery.single, Within]

theorem counted {α : Type} (slot : Nat → Slot) (expr? : α → Option Expr) (as : List α) {r : Nat}
    (hrank : ∀ i, (slot i).rank = r) (hindex : ∀ i, (slot i).index = i) :
    Within r (r + 1) (counted slot expr? as) := by
  constructor
  · have hsorted : as.zipIdx.Pairwise fun x y => x.2 < y.2 := by
      rw [← List.pairwise_map (f := Prod.snd) (R := (· < ·)), List.zipIdx_map_snd]
      exact List.pairwise_lt_range'
    refine List.pairwise_filterMap.mpr (hsorted.imp ?_)
    rintro ⟨a, i⟩ ⟨a', j⟩ hij c hc d hd
    simp only [Option.map_eq_some_iff] at hc hd
    obtain ⟨_, _, rfl⟩ := hc
    obtain ⟨_, _, rfl⟩ := hd
    exact .inr ⟨by rw [hrank, hrank], by rw [hindex, hindex]; exact hij⟩
  · rintro ⟨f, b⟩ hc
    obtain ⟨i, _, _, _, _, rfl, _⟩ := mem_counted.mp hc
    exact ⟨(hrank i).ge, by rw [hrank]; exact Nat.lt_succ_self r⟩

theorem append (hc : Within lo mid cs) (hd : Within mid hi ds) (hlo : lo ≤ mid := by decide)
    (hhi : mid ≤ hi := by decide) :
    Within lo hi (cs ++ ds) := by
  constructor
  · refine List.pairwise_append.mpr ⟨hc.1, hd.1, fun c hcs d hds => .inl ?_⟩
    exact (hc.2 c hcs).2.trans_le (hd.2 d hds).1
  · intro c h
    rcases List.mem_append.mp h with h | h
    · exact ⟨(hc.2 c h).1, (hc.2 c h).2.trans_le hhi⟩
    · exact ⟨hlo.trans (hd.2 c h).1, (hd.2 c h).2⟩

end Within

/-- The slots of a query that something stands in. -/
def Select.children (s : Select) : List (Slot × Branch) :=
  counted .target (fun t => some t.expr) s.targets.items ++
    (single .source (s.source.bind Source.branch?) ++
      (single .condition (s.condition.map .expr) ++
        (counted .groupKey ColumnKey.expr? ((s.groupBy.map GroupBy.keys).getD []) ++
          (single .having (s.groupBy.bind fun g => g.having.map .expr) ++
            counted .sortKey (fun k => k.column.expr?) (s.orderBy.getD [])))))

/-- The slots of an expression that something stands in. -/
def Expr.children : Expr → List (Slot × Branch)
  | .function _ args | .bool _ args => counted .argument some args
  | .attribute x _ | .subscript x _ | .unary _ x => single .operand (some (.expr x))
  | .binary left _ right => single .left (some (.expr left)) ++ single .right (some (.expr right))
  | .between x lower upper =>
    single .operand (some (.expr x)) ++ (single .lower (some (.expr lower)) ++ single .upper (some (.expr upper)))
  | .subselect query => query.children
  | _ => []

/-- The slots of a statement that something stands in. -/
def Statement.children : Statement → List (Slot × Branch)
  | .select query => query.children
  | .balances query =>
    single .source (query.source.bind EntryFilter.branch?) ++ single .condition (query.condition.map .expr)
  | .journal query => single .source (query.source.bind EntryFilter.branch?)
  | .print query => single .source (query.source.bind EntryFilter.branch?)

/-- Whether some pairs are the slots that something stands in, with what stands there, from left to
right. -/
structure Fills (child? : Slot → Option Branch) (cs : List (Slot × Branch)) : Prop where
  /-- The slots go from left to right. -/
  sorted : cs.Pairwise fun c d => c.1.Before d.1
  /-- The pairs are all slots that something stands in. -/
  mem_iff : ∀ f b, (f, b) ∈ cs ↔ child? f = some b

theorem Select.within (s : Select) : Within 0 6 s.children :=
  .append (.counted .target _ _ (fun _ => rfl) fun _ => rfl) <|
    .append (.single .source _ rfl) <|
      .append (.single .condition _ rfl) <|
        .append (.counted .groupKey _ _ (fun _ => rfl) fun _ => rfl) <|
          .append (.single .having _ rfl) (.counted .sortKey _ _ (fun _ => rfl) fun _ => rfl)

theorem Select.fills (s : Select) : Fills s.child? s.children where
  sorted := s.within.1
  mem_iff f b := by
    have hkeys (i : Nat) : ((s.groupBy.map GroupBy.keys).getD [])[i]? = s.groupBy.bind fun g => g.keys[i]? := by
      cases s.groupBy <;> simp
    have hsort (i : Nat) : (s.orderBy.getD [])[i]? = s.orderBy.bind fun keys => keys[i]? := by
      cases s.orderBy <;> simp
    cases f <;> simp [Select.children, Select.child?, hkeys, hsort, Option.bind_eq_some_iff]

theorem Expr.children_sorted : ∀ e : Expr, e.children.Pairwise fun c d => c.1.Before d.1
  | .function _ _ | .bool _ _ => (Within.counted .argument _ _ (fun _ => rfl) fun _ => rfl).1
  | .attribute _ _ | .subscript _ _ | .unary _ _ => (Within.single .operand _ rfl).1
  | .binary _ _ _ => (Within.append (.single .left _ rfl) (.single .right _ rfl)).1
  | .between _ _ _ =>
    (Within.append (.single .operand _ rfl) (.append (.single .lower _ rfl) (.single .upper _ rfl))).1
  | .subselect query => query.within.1
  | .wildcard | .column _ | .constant _ | .placeholder _ => .nil

theorem Expr.fills (e : Expr) : Fills e.child? e.children where
  sorted := e.children_sorted
  mem_iff f b := by
    cases e with
    | subselect query => exact query.fills.mem_iff f b
    | _ => cases f <;> simp [Expr.children, Expr.child?]

theorem Statement.fills (s : Statement) : Fills s.child? s.children where
  sorted := by
    cases s with
    | select query => exact query.within.1
    | balances query => exact (Within.append (.single .source _ rfl) (.single .condition _ rfl)).1
    | journal query => exact (Within.single .source _ rfl).1
    | print query => exact (Within.single .source _ rfl).1
  mem_iff f b := by
    cases s with
    | select query => exact query.fills.mem_iff f b
    | _ => cases f <;> simp [Statement.children, Statement.child?]

/-! ## What the slots hold is all there is -/

theorem EntryFilter.exprs_eq_branch (o : Option EntryFilter) :
    (o.map EntryFilter.exprs).getD [] = ((o.bind EntryFilter.branch?).map Branch.exprs).getD [] := by
  cases o with
  | none => rfl
  | some f =>
    obtain ⟨expression, _, _, _⟩ := f
    cases expression <;> rfl

theorem Source.exprs_eq_branch (o : Option Source) :
    (o.map Source.exprs).getD [] = ((o.bind Source.branch?).map Branch.exprs).getD [] := by
  rcases o with _ | name | select | f
  · rfl
  · rfl
  · rfl
  · exact EntryFilter.exprs_eq_branch (some f)

theorem Select.flatMap_children (s : Select) : (s.children.flatMap fun c => c.2.exprs) = s.exprs := by
  obtain ⟨targets, distinct, source, condition, groupBy, orderBy, pivotBy, limit⟩ := s
  simp only [Select.children, List.flatMap_append, flatMap_single, flatMap_counted]
  rw [Select.exprs_eq, Targets.exprs_eq, Source.exprs_eq_branch]
  have hgroup : (groupBy.map GroupBy.exprs).getD [] =
      ((groupBy.map GroupBy.keys).getD []).flatMap (fun k => (k.expr?.map Expr.postorder).getD []) ++
        ((groupBy.bind fun g => g.having.map Branch.expr).map Branch.exprs).getD [] := by
    rcases groupBy with _ | ⟨keys, having⟩
    · rfl
    · rw [Option.map_some, Option.getD_some, GroupBy.exprs_eq, funext ColumnKey.exprs_eq]
      cases having <;> rfl
  have hsort : (orderBy.map SortKey.exprsOfList).getD [] =
      (orderBy.getD []).flatMap fun k => (k.column.expr?.map Expr.postorder).getD [] := by
    cases orderBy with
    | none => rfl
    | some keys =>
      simp only [Option.map_some, Option.getD_some, SortKey.exprsOfList_eq, ColumnKey.exprs_eq]
  rw [hgroup, hsort]
  cases condition <;> simp

/-- An expression comes after all that its slots hold, except that a subselect's slots are those of its
query. -/
theorem Expr.flatMap_children (e : Expr) : (e.children.flatMap fun c => c.2.exprs) ++ [e] = e.postorder := by
  cases e <;>
    simp [Expr.children, Expr.postorder, flatMap_single, flatMap_counted, Expr.postorderOfList_eq,
      Select.flatMap_children]

theorem Statement.flatMap_children (s : Statement) : (s.children.flatMap fun c => c.2.exprs) = s.exprs := by
  have hsource (o : Option EntryFilter) :
      shorthandSourceExprs o = ((o.bind EntryFilter.branch?).map Branch.exprs).getD [] :=
    EntryFilter.exprs_eq_branch o
  cases s with
  | select query => exact query.flatMap_children
  | balances query =>
    obtain ⟨summary, source, condition⟩ := query
    simp only [Statement.children, Statement.exprs, List.flatMap_append, flatMap_single, hsource]
    cases condition <;> rfl
  | journal query => simp only [Statement.children, Statement.exprs, flatMap_single, hsource]
  | print query => simp only [Statement.children, Statement.exprs, flatMap_single, hsource]


/-! ## Listing what stands at paths -/

/-- Whether some expressions are what stands at the paths that lead to one, each path once and in
order. -/
def Visits (at? : Path → Option Expr) (es : List Expr) : Prop :=
  ∃ ps : List Path, ps.Pairwise Path.Before ∧ (∀ p, p ∈ ps ↔ (at? p).isSome) ∧ ps.map at? = es.map some

namespace Visits

variable {at? at?' : Path → Option Expr} {es : List Expr} {child? : Slot → Option Branch}
  {cs : List (Slot × Branch)}

/-- The paths through some slots from left to right, by induction on the slots. -/
theorem exists_paths (hchild : ∀ c ∈ cs, child? c.1 = some c.2) (hsorted : cs.Pairwise fun c d => c.1.Before d.1)
    (h : ∀ c ∈ cs, Visits (fun p => c.2.exprAt? p) c.2.exprs) :
    ∃ ps : List Path, ps.Pairwise Path.Before ∧
      (∀ p, p ∈ ps ↔ ∃ c ∈ cs, ∃ q, p = c.1 :: q ∧ (c.2.exprAt? q).isSome) ∧
      ps.map (exprBelow? child?) = (cs.flatMap fun c => c.2.exprs).map some := by
  induction cs with
  | nil => exact ⟨[], .nil, by simp, rfl⟩
  | cons c cs ih =>
    obtain ⟨hc, hcs⟩ := List.forall_mem_cons.mp hchild
    obtain ⟨hbefore, hsorted⟩ := List.pairwise_cons.mp hsorted
    obtain ⟨hv, hvs⟩ := List.forall_mem_cons.mp h
    obtain ⟨qs, hqs, hmem, hat⟩ := hv
    obtain ⟨ps, hps, hmem', hat'⟩ := ih hcs hsorted hvs
    refine ⟨qs.map (c.1 :: ·) ++ ps, List.pairwise_append.mpr ⟨?_, hps, ?_⟩, ?_, ?_⟩
    · exact List.pairwise_map.mpr (hqs.imp (.slot c.1))
    · intro p hp q hq
      obtain ⟨p, -, rfl⟩ := List.mem_map.mp hp
      obtain ⟨d, hd, q, rfl, -⟩ := (hmem' _).mp hq
      exact .part p q (hbefore d hd)
    · intro p
      rw [List.mem_append, hmem', List.exists_mem_cons_iff]
      refine or_congr ?_ Iff.rfl
      rw [List.mem_map]
      constructor
      · rintro ⟨q, hq, rfl⟩
        exact ⟨q, rfl, (hmem q).mp hq⟩
      · rintro ⟨q, rfl, hq⟩
        exact ⟨q, (hmem q).mpr hq, rfl⟩
    · rw [List.map_append, hat', List.map_map, List.flatMap_cons, List.map_append, ← hat]
      congr 1
      refine List.map_congr_left fun q _ => ?_
      simp only [Function.comp_apply, exprBelow?, hc, Option.bind_some]

/-- What stands below a node is listed slot by slot. -/
theorem below (hc : Fills child? cs) (h : ∀ c ∈ cs, Visits (fun p => c.2.exprAt? p) c.2.exprs) :
    Visits (exprBelow? child?) (cs.flatMap fun c => c.2.exprs) := by
  obtain ⟨ps, hps, hmem, hat⟩ := exists_paths (fun c hcs => (hc.mem_iff c.1 c.2).mp hcs) hc.sorted h
  refine ⟨ps, hps, fun p => (hmem p).trans ?_, hat⟩
  cases p with
  | nil => simp [exprBelow?]
  | cons f p =>
    constructor
    · rintro ⟨⟨f, b⟩, hcs, q, heq, hq⟩
      obtain ⟨rfl, rfl⟩ := List.cons.inj heq
      simpa [exprBelow?, (hc.mem_iff f b).mp hcs] using hq
    · intro hp
      obtain ⟨e, he⟩ := Option.isSome_iff_exists.mp hp
      obtain ⟨b, hb, hbe⟩ := Option.bind_eq_some_iff.mp he
      exact ⟨(f, b), (hc.mem_iff f b).mpr hb, p, rfl, by simp [hbe]⟩

/-- The expression itself comes after all that stands below it. -/
theorem last {e : Expr} (h : Visits at? es) (hat : at? [] = none) (hat' : at?' [] = some e)
    (hbelow : ∀ f p, at?' (f :: p) = at? (f :: p)) : Visits at?' (es ++ [e]) := by
  obtain ⟨ps, hps, hmem, heq⟩ := h
  have hne : [] ∉ ps := by simp [hmem, hat]
  refine ⟨ps ++ [[]], List.pairwise_append.mpr ⟨hps, List.pairwise_singleton _ _, ?_⟩, ?_, ?_⟩
  · intro p hp q hq
    obtain rfl := List.mem_singleton.mp hq
    cases p with
    | nil => exact absurd hp hne
    | cons f p => exact .inside f p
  · intro p
    cases p with
    | nil => simp [hat']
    | cons f p => simp [hmem, hbelow]
  · rw [List.map_append, List.map_append, ← heq, List.map_singleton, hat', List.map_singleton]
    congr 1
    refine List.map_congr_left fun p hp => ?_
    cases p with
    | nil => exact absurd hp hne
    | cons f p => exact hbelow f p

end Visits

/-! ## Every expression once -/

/-- What a key holds is its part. -/
theorem ColumnKey.mem_parts_of_expr? {k : ColumnKey} {e : Expr} (h : k.expr? = some e) : e ∈ k.parts := by
  cases k with
  | index _ => cases h
  | expr x =>
    obtain rfl := Option.some.inj h
    exact List.mem_singleton_self _

/-- What a source holds is its part or its query. -/
theorem Source.eq_of_branch? {a : Source} {b : Branch} (h : a.branch? = some b) :
    (∃ x ∈ a.parts, b = .expr x) ∨ ∃ s, a = .query s ∧ b = .query s := by
  cases a with
  | table _ => cases h
  | query s => exact .inr ⟨s, rfl, (Option.some.inj h).symm⟩
  | entries filter =>
    obtain ⟨e, he, rfl⟩ := Option.map_eq_some_iff.mp h
    exact .inl ⟨e, Option.mem_toList.mpr he, rfl⟩

/-- What stands in a slot of a query is one of its parts, or the query that is its source. -/
theorem Select.eq_of_child? {s : Select} {f : Slot} {b : Branch} (h : s.child? f = some b) :
    (∃ x ∈ s.parts, b = .expr x) ∨ ∃ s', s.source = some (.query s') ∧ b = .query s' := by
  simp only [Select.mem_parts]
  cases f with
  | target i =>
    obtain ⟨t, ht, rfl⟩ := Option.map_eq_some_iff.mp h
    have hmem : t.expr ∈ s.targets.parts := by
      cases htargets : s.targets with
      | all => simp [htargets, Targets.items] at ht
      | list items =>
        rw [htargets] at ht
        exact List.mem_map_of_mem (List.mem_of_getElem? ht)
    exact .inl ⟨t.expr, .inl hmem, rfl⟩
  | source =>
    obtain ⟨a, ha, hb⟩ := Option.bind_eq_some_iff.mp h
    rcases Source.eq_of_branch? hb with ⟨x, hx, rfl⟩ | ⟨s', rfl, rfl⟩
    · exact .inl ⟨x, .inr (.inl ⟨a, ha, hx⟩), rfl⟩
    · exact .inr ⟨s', ha, rfl⟩
  | condition =>
    obtain ⟨e, he, rfl⟩ := Option.map_eq_some_iff.mp h
    exact .inl ⟨e, .inr (.inr (.inl he)), rfl⟩
  | groupKey i =>
    obtain ⟨k, hk, hb⟩ := Option.bind_eq_some_iff.mp h
    obtain ⟨g, hg, hk⟩ := Option.bind_eq_some_iff.mp hk
    obtain ⟨e, he, rfl⟩ := Option.map_eq_some_iff.mp hb
    have hmem : e ∈ g.parts := List.mem_append_left _
      (List.mem_flatMap.mpr ⟨k, List.mem_of_getElem? hk, ColumnKey.mem_parts_of_expr? he⟩)
    exact .inl ⟨e, .inr (.inr (.inr (.inl ⟨g, hg, hmem⟩))), rfl⟩
  | having =>
    obtain ⟨g, hg, hb⟩ := Option.bind_eq_some_iff.mp h
    obtain ⟨e, he, rfl⟩ := Option.map_eq_some_iff.mp hb
    have hmem : e ∈ g.parts := List.mem_append_right _ (Option.mem_toList.mpr he)
    exact .inl ⟨e, .inr (.inr (.inr (.inl ⟨g, hg, hmem⟩))), rfl⟩
  | sortKey i =>
    obtain ⟨k, hk, hb⟩ := Option.bind_eq_some_iff.mp h
    obtain ⟨keys, hkeys, hk⟩ := Option.bind_eq_some_iff.mp hk
    obtain ⟨e, he, rfl⟩ := Option.map_eq_some_iff.mp hb
    exact .inl ⟨e, .inr (.inr (.inr (.inr
      ⟨keys, hkeys, k, List.mem_of_getElem? hk, ColumnKey.mem_parts_of_expr? he⟩))), rfl⟩
  | _ => cases h

/-- What stands in a slot of an expression that is no subselect is one of its parts. -/
theorem Expr.eq_of_child? {e : Expr} {f : Slot} {b : Branch} (he : ∀ s, e ≠ .subselect s)
    (h : e.child? f = some b) : ∃ x ∈ e.parts, b = .expr x := by
  have hargs {args : List Expr} {i : Nat} (h : (args[i]?.map Branch.expr) = some b) :
      ∃ x ∈ args, b = .expr x := by
    obtain ⟨x, hx, rfl⟩ := Option.map_eq_some_iff.mp h
    exact ⟨x, List.mem_of_getElem? hx, rfl⟩
  cases e with
  | subselect s => exact absurd rfl (he s)
  | function _ args =>
    cases f with
    | argument i => exact hargs h
    | _ => cases h
  | bool _ args =>
    cases f with
    | argument i => exact hargs h
    | _ => cases h
  | _ => cases f <;> cases h <;> simp [Expr.parts]

theorem visits : (∀ e : Expr, Visits (fun p => (Branch.expr e).exprAt? p) e.postorder) ∧
    ∀ s : Select, Visits (fun p => (Branch.query s).exprAt? p) s.exprs := by
  refine Inductive.all ⟨fun e hparts hquery => ?_, fun s hparts hsource => ?_⟩
  · by_cases he : ∃ s, e = .subselect s
    · obtain ⟨s, rfl⟩ := he
      exact (hquery s rfl).last rfl rfl fun _ _ => rfl
    · have hchildren : ∀ c ∈ e.children, Visits (fun p => c.2.exprAt? p) c.2.exprs := by
        rintro ⟨f, b⟩ hc
        obtain ⟨x, hx, rfl⟩ := Expr.eq_of_child? (not_exists.mp he) ((e.fills.mem_iff f b).mp hc)
        exact hparts x hx
      rw [← e.flatMap_children]
      exact (Visits.below e.fills hchildren).last rfl rfl fun _ _ => rfl
  · have hchildren : ∀ c ∈ s.children, Visits (fun p => c.2.exprAt? p) c.2.exprs := by
      rintro ⟨f, b⟩ hc
      rcases Select.eq_of_child? ((s.fills.mem_iff f b).mp hc) with ⟨x, hx, rfl⟩ | ⟨s', hs', rfl⟩
      · exact hparts x hx
      · exact hsource s' hs'
    have hat : (fun p => (Branch.query s).exprAt? p) = exprBelow? s.child? := by
      funext p
      cases p <;> rfl
    rw [hat, ← s.flatMap_children]
    exact Visits.below s.fills hchildren

/-- The expressions of a statement are what stands at its paths, in the order of the paths.  Every path
that leads to an expression is taken exactly once, and nothing else is listed. -/
theorem Statement.exprs_eq_paths (s : Statement) :
    ∃ ps : List Path, ps.Nodup ∧ ps.Pairwise Path.Before ∧ (∀ p, p ∈ ps ↔ (s.exprAt? p).isSome) ∧
      ps.map s.exprAt? = s.exprs.map some := by
  have hchildren : ∀ c ∈ s.children, Visits (fun p => c.2.exprAt? p) c.2.exprs := by
    rintro ⟨f, b⟩ -
    cases b with
    | expr e => exact visits.1 e
    | query q => exact visits.2 q
  obtain ⟨ps, hsorted, hmem, hat⟩ := Visits.below s.fills hchildren
  rw [s.flatMap_children] at hat
  exact ⟨ps, hsorted.imp Path.Before.ne, hsorted, hmem, hat⟩

end LedgerQuery
