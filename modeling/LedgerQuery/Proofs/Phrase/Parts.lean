import LedgerQuery.Proofs.Phrase.Place
import LedgerQuery.Proofs.Tree.Parts

/-!
# Queries, clause by clause

The run of a query is the runs of its clauses one after the other (`select_iff`).  So each expression
that a query holds directly is read from a stretch of its run, and so is the query that is its source
(`select_parts`, `select_query`).
-/

namespace LedgerQuery

namespace Phrase

variable {α : Type} {G : Phrases} {u : List Lexeme} {s : Select}

/-- A query has its clauses in order. -/
theorem select_iff : select G u s ↔ ∃ l d t a c g o p n,
    u = l :: (d ++ (t ++ (a ++ (c ++ (g ++ (o ++ (p ++ n))))))) ∧
      l.token.is (.keyword .select) = true ∧ flag (.keyword .distinct) d s.distinct ∧
      targets G t s.targets ∧ optional (do keyword .from; source G) a s.source ∧
      optional (condition G) c s.condition ∧ optional (groupBy G) g s.groupBy ∧
      optional (orderBy G) o s.orderBy ∧ optional pivotBy p s.pivotBy ∧ optional limit n s.limit := by
  constructor
  · rintro ⟨_, _, _, rfl, ⟨l, rfl, hl⟩, d, _, _, rfl, hd, t, _, _, rfl, ht, a, _, _, rfl, ha, c, _, _, rfl,
      hc, g, _, _, rfl, hg, o, _, _, rfl, ho, p, _, _, rfl, hp, n, _, _, rfl, hn, rfl, rfl⟩
    exact ⟨l, d, t, a, c, g, o, p, n, by simp, hl, hd, ht, ha, hc, hg, ho, hp, hn⟩
  · obtain ⟨ts, distinct, src, cond, grouping, order, pivot, rows⟩ := s
    rintro ⟨l, d, t, a, c, g, o, p, n, rfl, hl, hd, ht, ha, hc, hg, ho, hp, hn⟩
    exact seq (v := [l]) (single hl) (seq hd (seq ht (seq ha (seq hc (seq hg (seq ho (seq hp
      (seq_pure hn))))))))

/-- An expression that is read from a stretch of a run. -/
def Within (L : Phrase Expr) (u : List Lexeme) (x : Expr) : Prop := ∃ v ⊆ u, L v x

theorem Within.mono {L : Phrase Expr} {x : Expr} {v : List Lexeme} (h : Within L v x) (hv : v ⊆ u) :
    Within L u x := by
  obtain ⟨w, hw, hx⟩ := h
  exact ⟨w, List.Subset.trans hw hv, hx⟩

/-- Every item of a repetition is read from a stretch of its run. -/
theorem Many.within {L : Phrase α} {as : List α} (h : Many L u as) : ∀ a ∈ as, ∃ v ⊆ u, L v a := by
  induction h with
  | nil => simp
  | @cons v w b bs hb _ ih =>
    rw [List.forall_mem_cons]
    refine ⟨⟨v, List.subset_append_left _ _, hb⟩, fun a ha => ?_⟩
    obtain ⟨x, hx, hl⟩ := ih a ha
    exact ⟨x, List.Subset.trans hx (List.subset_append_right _ _), hl⟩

/-- Every item of a list is read from a stretch of its run. -/
theorem commaList_within {L : Phrase α} {as : List α} (h : commaList L u as) :
    as ≠ [] ∧ ∀ a ∈ as, ∃ v ⊆ u, L v a := by
  obtain ⟨v, _, first, rfl, hv, w, _, others, rfl, hw, rfl, rfl⟩ := h
  rw [List.append_nil, List.forall_mem_cons]
  refine ⟨by simp, ⟨v, List.subset_append_left _ _, hv⟩, fun a ha => ?_⟩
  obtain ⟨x, hx, ⟨y, z, _, rfl, -, hz⟩⟩ := hw.within a ha
  exact ⟨z, fun l hl => List.mem_append_right _ (hx (List.mem_append_right _ hl)), hz⟩

/-- A part that may be missing, if it is there. -/
theorem of_optional {L : Phrase α} {o : Option α} (h : optional L u o) : ∀ a ∈ o, L u a := by
  rintro a rfl
  exact h

/-- The name of an attribute is read from its run. -/
theorem suffix_attribute {n : String} (h : suffix u (.attribute n)) : ∃ v ⊆ u, name v n := by
  simp only [suffix, oneOf_cons, oneOf_nil, or_false] at h
  rcases h with ⟨_, _, _, rfl, -, v, _, _, rfl, hv, rfl, he⟩ |
    ⟨_, _, _, rfl, -, _, _, _, rfl, -, _, _, _, rfl, -, -, he⟩
  · obtain rfl := Parser.Suffix.attribute.inj he
    exact ⟨v, fun l hl => by simp [hl], hv⟩
  · cases he

/-- The key of a subscript is read from its run. -/
theorem suffix_subscript {key : String} (h : suffix u (.subscript key)) : ∃ v ⊆ u, stringValue v key := by
  simp only [suffix, oneOf_cons, oneOf_nil, or_false] at h
  rcases h with ⟨_, _, _, rfl, -, _, _, _, rfl, -, -, he⟩ |
    ⟨_, _, _, rfl, -, v, _, _, rfl, hv, _, _, _, rfl, -, -, he⟩
  · cases he
  · obtain rfl := Parser.Suffix.subscript.inj he
    exact ⟨v, fun l hl => by simp [hl], hv⟩

theorem columnKey_parts (hkey : ∀ v x, G.key v x → G.expr v x) {k : ColumnKey}
    (h : columnKey G u k) : ∀ x ∈ k.parts, Within G.expr u x := by
  simp only [columnKey, oneOf_cons, oneOf_nil, or_false] at h
  rcases h with ⟨_, _, n, rfl, -, rfl, rfl⟩ | ⟨v, _, e, rfl, hv, rfl, rfl⟩
  · simp [ColumnKey.parts]
  · rw [List.append_nil, ColumnKey.parts, List.forall_mem_singleton]
    exact ⟨v, List.Subset.refl v, hkey v e hv⟩

theorem targets_parts {t : Targets} (h : targets G u t) : ∀ x ∈ t.parts, Within G.expr u x := by
  simp only [targets, oneOf_cons, oneOf_nil, or_false] at h
  rcases h with ⟨_, _, _, rfl, -, rfl, rfl⟩ | ⟨v, _, items, rfl, hv, rfl, rfl⟩
  · simp [Targets.parts]
  · rw [List.append_nil, Targets.parts, List.forall_mem_map]
    intro t ht
    obtain ⟨w, hw, _, _, ⟨⟨e, n⟩, span⟩, rfl, ⟨⟨x, y, e', rfl, hx, z, _, n', rfl, hz, rfl, he⟩, -⟩, rfl,
      rfl⟩ := (commaList_within hv).2 t ht
    obtain ⟨rfl, rfl⟩ := Prod.mk.inj he
    exact ⟨x, fun l hl => hw (by simp [hl]), hx⟩

theorem entryFilter_parts {f : EntryFilter} (h : entryFilter G u f) : ∀ x ∈ f.parts, Within G.expr u x := by
  obtain ⟨-, v, w, x, y, rfl, hv, -⟩ := entryFilter_iff.mp h
  intro e he
  exact ⟨v, List.subset_append_left _ _, (of_optional hv e (by simpa [EntryFilter.parts] using he)).1⟩

theorem source_parts {a : Source} (h : source G u a) :
    (∀ x ∈ a.parts, Within G.expr u x) ∧ ∀ s, a = .query s → ∃ v ⊆ u, G.select v s := by
  simp only [source, oneOf_cons, oneOf_nil, or_false] at h
  rcases h with ⟨_, _, n, rfl, -, rfl, rfl⟩ | ⟨x, _, _, rfl, -, v, _, s, rfl, hv, y, _, _, rfl, -, rfl, rfl⟩ |
    ⟨v, _, f, rfl, hv, rfl, rfl⟩
  · simp [Source.parts]
  · refine ⟨by simp [Source.parts], fun s' hs => ⟨v, fun l hl => by simp [hl], ?_⟩⟩
    rwa [← Source.query.inj hs]
  · rw [List.append_nil]
    exact ⟨entryFilter_parts hv.1, by simp⟩

theorem groupBy_parts (hkey : ∀ v x, G.key v x → G.expr v x) {g : GroupBy} (h : groupBy G u g) :
    g.keys ≠ [] ∧ ∀ x ∈ g.parts, Within G.expr u x := by
  obtain ⟨_, _, _, rfl, -, _, _, _, rfl, -, v, _, keys, rfl, hv, w, _, having, rfl, hw, rfl, rfl⟩ := h
  obtain ⟨hne, hkeys⟩ := commaList_within hv
  refine ⟨hne, fun x hx => ?_⟩
  simp only [GroupBy.parts, List.mem_append, List.mem_flatMap, Option.mem_toList] at hx
  rcases hx with ⟨k, hk, hx⟩ | hx
  · obtain ⟨y, hy, hky⟩ := hkeys k hk
    exact (columnKey_parts hkey hky x hx).mono fun l hl => by simp [hy hl]
  · obtain ⟨y, z, _, rfl, -, hz⟩ := of_optional hw x hx
    exact ⟨z, fun l hl => by simp [hl], hz⟩

theorem orderBy_parts (hkey : ∀ v x, G.key v x → G.expr v x) {keys : List SortKey}
    (h : orderBy G u keys) : keys ≠ [] ∧ ∀ k ∈ keys, ∀ x ∈ k.column.parts, Within G.expr u x := by
  obtain ⟨_, _, _, rfl, -, _, v, _, rfl, -, hv⟩ := h
  obtain ⟨hne, hkeys⟩ := commaList_within hv
  refine ⟨hne, fun k hk x hx => ?_⟩
  obtain ⟨y, hy, w, _, column, rfl, hw, _, _, _, rfl, -, rfl, rfl⟩ := hkeys k hk
  exact (columnKey_parts hkey hw x hx).mono fun l hl => by simp [hy (List.mem_append_left _ hl)]

/-- The expressions that a query holds directly, and its source, are read from its run. -/
theorem select_parts (hkey : ∀ v x, G.key v x → G.expr v x) (h : select G u s) :
    (∀ x ∈ s.parts, Within G.expr u x) ∧
      ∀ s', s.source = some (.query s') → ∃ v ⊆ u, G.select v s' := by
  obtain ⟨l, d, t, a, c, g, o, p, n, rfl, -, -, ht, ha, hc, hg, ho, -, -⟩ := select_iff.mp h
  rw [Select.forall_parts]
  refine ⟨fun x hx => ?_, fun b hb => ?_, fun x hx => ?_, fun b hb x hx => ?_, fun b hb k hk x hx => ?_⟩
  · exact (targets_parts ht x hx).mono fun m hm => by simp [hm]
  · obtain ⟨_, w, _, rfl, -, hw⟩ := of_optional ha b hb
    obtain ⟨hparts, hquery⟩ := source_parts hw
    refine ⟨fun x hx => (hparts x hx).mono fun m hm => by simp [hm], fun s' hs => ?_⟩
    obtain ⟨v, hv, hs'⟩ := hquery s' hs
    exact ⟨v, fun m hm => by simp [hv hm], hs'⟩
  · obtain ⟨_, w, _, rfl, -, hw⟩ := of_optional hc x hx
    exact ⟨w, fun m hm => by simp [hm], hw⟩
  · exact ((groupBy_parts hkey (of_optional hg b hb)).2 x hx).mono fun m hm => by simp [hm]
  · exact ((orderBy_parts hkey (of_optional ho b hb)).2 k hk x hx).mono fun m hm => by simp [hm]

end Phrase

end LedgerQuery
