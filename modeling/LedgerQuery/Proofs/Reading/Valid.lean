import LedgerQuery.Proofs.Phrase.Parts
import LedgerQuery.Proofs.Reading.Derived
import LedgerQuery.Proofs.Tree.Valid

/-!
# What is parsed is valid

A statement that is parsed is derived by the grammar from legal tokens.  So is every expression and
query in it, from a stretch of the text.  Names, literals and strings are right because the tokens are
legal, and the rest because the grammar puts trees together in no other way.  The induction is over the
levels of the grammar, and on each level over the expression by its outermost construction.
-/

namespace LedgerQuery

open Token

/-! ## Tokens -/

section
variable {u : List Lexeme} (hu : LegalRun u)
include hu

theorem Phrase.name_isName {n : String} (h : Phrase.name u n) : IsName n := by
  obtain ⟨⟨t, span⟩, rfl, ht⟩ := h
  have hl : t.Legal := hu ⟨t, span⟩ (by simp)
  cases t with
  | keyword k written =>
    simp only [Token.name?] at ht
    split at ht
    · cases ht
    · next hk =>
      obtain rfl := Option.some.inj ht
      refine ⟨hl.1, fun k' hk' => ?_⟩
      rw [hl.2] at hk'
      obtain rfl := Option.some.inj hk'
      simpa using hk
  | ident name =>
    obtain rfl := Option.some.inj ht
    exact ⟨hl.1, fun k hk => by rw [hl.2] at hk; cases hk⟩
  | _ => cases ht

theorem Phrase.literal_writable {value : Literal} (h : Phrase.literal u value) : value.Writable := by
  obtain ⟨l, rfl, hl⟩ := Phrase.literal_iff.mp h
  exact Literal.writable_of_token (hu l (by simp)) hl

theorem Phrase.stringValue_isQuotable {value : String} (h : Phrase.stringValue u value) :
    IsQuotable value := by
  obtain ⟨l, s, rfl, hl, rfl⟩ := Phrase.stringValue_iff.mp h
  have hlegal : l.token.Legal := hu l (by simp)
  rw [hl] at hlegal
  obtain ⟨value, quote⟩ := s
  cases quote with
  | single => exact .inl hlegal
  | double => exact .inr hlegal

theorem Phrase.date_year {d : Date} (h : Phrase.date u d) : 0 ≤ d.year ∧ d.year ≤ 9999 := by
  obtain ⟨l, written, rfl, hl, hd⟩ := Phrase.date_iff.mp h
  have hlegal : l.token.Legal := hu l (by simp)
  rw [hl] at hlegal
  exact Date.year_of_dateOf hlegal hd

theorem Phrase.table_legal {n : String} (h : Phrase.table u n) : n.toList = [] ∨ isWord n.toList := by
  obtain ⟨l, rfl, hl⟩ := Phrase.table_iff.mp h
  have hlegal : l.token.Legal := hu l (by simp)
  rwa [hl] at hlegal

theorem Phrase.literalList_writable {items : List Literal}
    (h : Phrase.literalList u (.constant (.list items))) : (Constant.list items).Writable := by
  obtain ⟨_, _, _, rfl, -, v, _, first, rfl, hv, _, _, _, rfl, -, w, _, second, rfl, hw, x, _, others, rfl, hx,
    _, _, _, rfl, -, -, he⟩ := h
  obtain rfl : items = first :: (second :: others).reduceOption := by
    injection he with he
    injection he
  simp only [legalRun_append] at hu
  refine ⟨by simp, List.forall_mem_cons.mpr ⟨Phrase.literal_writable hu.2.1 hv, fun value hm => ?_⟩⟩
  rw [List.reduceOption_mem_iff] at hm
  rcases List.mem_cons.mp hm with rfl | hm
  · exact Phrase.literal_writable hu.2.2.2.1 hw
  · obtain ⟨y, hy, _, z, _, rfl, -, hz⟩ := hx.within _ hm
    exact Phrase.literal_writable (hu.2.2.2.2.1.mono fun l hl => hy (by simp [hl])) hz

end

/-! ## Expressions -/

/-- Whether everything that goes one nesting level deeper is valid. -/
structure Phrases.Valid (G : Phrases) : Prop where
  /-- Expressions. -/
  expr : ∀ {u x}, LegalRun u → G.expr u x → x.ValidPart
  /-- Operands of `NOT`. -/
  inversion : ∀ {u x}, LegalRun u → G.inversion u x → x.ValidPart
  /-- Operands of signs. -/
  factor : ∀ {u x}, LegalRun u → G.factor u x → x.ValidPart
  /-- Queries. -/
  select : ∀ {u s}, LegalRun u → G.select u s → s.Valid
  /-- Queries as atoms. -/
  bare : ∀ {u s}, LegalRun u → G.bare u s → s.Valid
  /-- There are no queries as expressions in parentheses. -/
  grouped : ∀ {u s}, ¬ G.grouped u s
  /-- A key is an expression. -/
  key : ∀ u x, G.key u x → G.expr u x

/-- An expression is valid if its outermost construction is and its parts are. -/
theorem Expr.ValidPart.of_parts {e : Expr} (hne : e ≠ .wildcard) (hw : e.Writable)
    (hs : ∀ x, ((∃ n, e = .attribute x n) ∨ ∃ key, e = .subscript x key) → x.IsPrimary)
    (hp : ∀ x ∈ e.parts, x.Valid) (hq : ∀ s, e = .subselect s → s.Valid) : e.ValidPart :=
  ⟨hne, .mk ⟨hw, hs⟩ hp hq⟩

/-- An expression of operands is valid if they are. -/
theorem Expr.ValidPart.of_operands {e : Expr} (he : e.strength ≠ 8) (hw : .wildcard ∉ e.parts → e.Writable)
    (hp : ∀ x ∈ e.parts, x.ValidPart) : e.ValidPart := by
  refine .of_parts ?_ (hw fun hm => (hp _ hm).1 rfl) ?_ (fun x hx => (hp x hx).2) ?_
  · rintro rfl
    exact he rfl
  · rintro x (⟨n, rfl⟩ | ⟨key, rfl⟩) <;> exact absurd rfl he
  · rintro s rfl
    exact absurd rfl he

theorem Expr.isPrimary_of_strength {e : Expr} (hs : e.strength = 8) (hne : e ≠ .wildcard) : e.IsPrimary := by
  cases e with
  | wildcard => exact absurd rfl hne
  | unary op x => cases op <;> cases hs
  | binary l op r => cases op <;> cases hs
  | bool op args => cases op <;> cases hs
  | between x l r => cases hs
  | _ => trivial

theorem valid_wildcard : Expr.Valid .wildcard :=
  .mk ⟨trivial, by simp⟩ (by simp [Expr.parts]) (by simp)

section
variable {G : Phrases} (hG : G.Valid)
include hG

/-- What stands at a place is valid if it is when it is put together there. -/
theorem place_valid {e : Expr} (hnode : ∀ u, LegalRun u → Phrase.node G u e → e.ValidPart) {m : Nat}
    (hm : m ≤ 8) {u : List Lexeme} (hu : LegalRun u) (h : Phrase.place G m u e) : e.ValidPart := by
  rcases Phrase.of_place hm h with hb | ⟨-, h⟩
  · simp only [Phrase.bracketed, Phrase.oneOf_cons, Phrase.oneOf_nil, or_false] at hb
    rcases hb with ⟨_, _, _, rfl, -, v, _, x, rfl, hv, _, _, _, rfl, -, rfl, rfl⟩ |
      ⟨_, _, _, rfl, -, v, _, s, rfl, hv, -⟩ | ⟨_, v, _, rfl, -, hv⟩
    · exact hG.expr (hu.mono fun l hl => by simp [hl]) hv
    · exact absurd hv hG.grouped
    · exact hG.factor (hu.mono fun l hl => by simp [hl]) hv
  · exact hnode u hu h

theorem arguments_valid {u : List Lexeme} {args : List Expr} (hu : LegalRun u)
    (h : Phrase.arguments G u args) :
    args = [.wildcard] ∨ ∀ x ∈ args, x.ValidPart := by
  simp only [Phrase.arguments, Phrase.oneOf_cons, Phrase.oneOf_nil, or_false] at h
  rcases h with ⟨_, _, _, rfl, -, _, _, _, rfl, -, _, _, _, rfl, -, rfl, rfl⟩ |
    ⟨_, _, _, rfl, -, _, _, _, rfl, -, rfl, rfl⟩ |
    ⟨_, _, _, rfl, -, v, _, args, rfl, hv, _, _, _, rfl, -, rfl, rfl⟩
  · exact .inl rfl
  · exact .inr (by simp)
  · refine .inr fun x hx => ?_
    obtain ⟨w, hw, hx⟩ := (Phrase.commaList_within hv).2 x hx
    exact hG.expr (hu.mono fun l hl => by simp [hw hl]) hx

theorem node_valid_inductive :
    Inductive (fun e => ∀ u, LegalRun u → Phrase.node G u e → e.ValidPart) fun _ => True where
  select _ _ _ := trivial
  expr e ih _ u hu h := by
    have hplace : ∀ x ∈ e.parts, ∀ {m : Nat} {v : List Lexeme}, m ≤ 8 → v ⊆ u → Phrase.place G m v x →
        x.ValidPart := fun x hx _ _ hm hv h => place_valid hG (ih x hx) hm (hu.mono hv) h
    have hbind : ∀ l op r, (Expr.binary l op r).strength ≤ 6 := fun l op r => by
      cases op <;> simp [Expr.strength]
    have hbool : ∀ op args, (Expr.bool op args).strength ≤ 2 := fun op args => by
      cases op <;> simp [Expr.strength]
    cases e with
    | wildcard => exact absurd h id
    | column n =>
      exact .of_parts (by simp) (Phrase.name_isName hu h) (by simp) (by simp [Expr.parts]) (by simp)
    | constant value =>
      have hw : value.Writable := by
        cases value with
        | literal value => exact Phrase.literal_writable hu h
        | list items => exact Phrase.literalList_writable hu h
      exact .of_parts (by simp) hw (by simp) (by simp [Expr.parts]) (by simp)
    | placeholder p =>
      obtain ⟨l, rfl, hl⟩ := Phrase.placeholder_iff.mp h
      have hlegal : (Token.placeholder p).Legal := hl ▸ hu l (by simp)
      exact .of_parts (by simp) hlegal (by simp) (by simp [Expr.parts]) (by simp)
    | function n args =>
      obtain ⟨v, w, rfl, hv, hw⟩ := h
      obtain ⟨huv, huw⟩ := legalRun_append.mp hu
      have hn := Phrase.name_isName huv hv
      rcases arguments_valid hG huw hw with rfl | hargs
      · exact .of_parts (by simp) ⟨hn, fun _ => rfl⟩ (by simp)
          (by simpa [Expr.parts] using valid_wildcard) (by simp)
      · exact .of_parts (by simp) ⟨hn, fun hm => absurd rfl (hargs _ hm).1⟩ (by simp)
          (fun x hx => (hargs x hx).2) (by simp)
    | «attribute» x n =>
      obtain ⟨v, w, rfl, hv, hw⟩ := h
      have hx := hplace x (by simp [Expr.parts]) (Nat.le_refl 8) (List.subset_append_left _ _) hv
      have hn : IsName n := by
        obtain ⟨y, hy, hn⟩ := Phrase.suffix_attribute hw
        exact Phrase.name_isName (hu.mono fun l hl => by simp [hy hl]) hn
      refine .of_parts (by simp) ⟨hn, hx.1⟩ (fun y hy => ?_) (by simpa [Expr.parts] using hx.2) (by simp)
      obtain rfl : x = y := by simpa using hy
      exact Expr.isPrimary_of_strength (Phrase.primary_iff.mp hv).1 hx.1
    | subscript x key =>
      obtain ⟨v, w, rfl, hv, hw⟩ := h
      have hx := hplace x (by simp [Expr.parts]) (Nat.le_refl 8) (List.subset_append_left _ _) hv
      have hkey : IsQuotable key := by
        obtain ⟨y, hy, hkey⟩ := Phrase.suffix_subscript hw
        exact Phrase.stringValue_isQuotable (hu.mono fun l hl => by simp [hy hl]) hkey
      refine .of_parts (by simp) ⟨hkey, hx.1⟩ (fun y hy => ?_) (by simpa [Expr.parts] using hx.2) (by simp)
      obtain rfl : x = y := by simpa using hy
      exact Expr.isPrimary_of_strength (Phrase.primary_iff.mp hv).1 hx.1
    | unary op x =>
      have hx : x.ValidPart := by
        cases op with
        | not =>
          obtain ⟨_, w, _, rfl, -, hw⟩ := h
          exact hG.inversion (hu.mono (List.subset_append_right _ _)) hw
        | neg =>
          obtain ⟨_, w, _, rfl, -, hw⟩ := h
          exact hG.factor (hu.mono (List.subset_append_right _ _)) hw
        | _ =>
          obtain ⟨v, w, rfl, hv, -⟩ := h
          exact hplace x (by simp [Expr.parts]) (by decide) (List.subset_append_left _ _) hv
      exact .of_operands (by cases op <;> simp [Expr.strength]) id (by simpa [Expr.parts] using hx)
    | binary left op right =>
      have hs := hbind left op right
      obtain ⟨v, w, x, rfl, hv, -, hx⟩ := h
      have hleft := hplace left (by simp [Expr.parts]) (by split <;> omega)
        (List.subset_append_left _ _) hv
      have hright := hplace right (by simp [Expr.parts]) (by omega) (fun l hl => by simp [hl]) hx
      exact .of_operands (by omega) id (by simpa [Expr.parts] using ⟨hleft, hright⟩)
    | bool op args =>
      have hs := hbool op args
      obtain ⟨first, others, v, w, rfl, hne, rfl, hv, hw⟩ := h
      refine .of_operands (by omega) (fun hm => ⟨?_, hm⟩) (List.forall_mem_cons.mpr ⟨?_, fun x hx => ?_⟩)
      · have := List.length_pos_of_ne_nil hne
        simp only [List.length_cons]
        omega
      · exact hplace first (by simp [Expr.parts]) (by omega) (List.subset_append_left _ _) hv
      · obtain ⟨y, hy, _, z, _, rfl, -, hz⟩ := hw.within x hx
        exact hplace x (by simp [Expr.parts, hx]) (by omega) (fun l hl => by simp [hy (List.mem_append_right _ hl)]) hz
    | between x lower upper =>
      obtain ⟨v, a, w, b, y, rfl, hv, -, hw, -, hy⟩ := h
      have hx := hplace x (by simp [Expr.parts]) (by decide) (List.subset_append_left _ _) hv
      have hlower := hplace lower (by simp [Expr.parts]) (by decide) (fun l hl => by simp [hl]) hw
      have hupper := hplace upper (by simp [Expr.parts]) (by decide) (fun l hl => by simp [hl]) hy
      exact .of_operands (by simp [Expr.strength]) id (by simpa [Expr.parts] using ⟨hx, hlower, hupper⟩)
    | subselect s =>
      exact .of_parts (by simp) (by simp [Expr.Writable, Expr.parts]) (by simp) (by simp [Expr.parts])
        fun s' hs => Expr.subselect.inj hs ▸ hG.bare hu h

/-- What stands at a place is valid. -/
theorem valid_of_place {e : Expr} {m : Nat} (hm : m ≤ 8) {u : List Lexeme} (hu : LegalRun u)
    (h : Phrase.place G m u e) : e.ValidPart :=
  place_valid hG ((node_valid_inductive hG).all.1 e) hm hu h

/-! ## Clauses -/

theorem within_valid {u : List Lexeme} {x : Expr} (hu : LegalRun u) (h : Phrase.Within G.expr u x) :
    x.ValidPart := by
  obtain ⟨v, hv, hx⟩ := h
  exact hG.expr (hu.mono hv) hx

omit hG in
theorem targets_readable {u : List Lexeme} {t : Targets} (hu : LegalRun u) (h : Phrase.targets G u t) :
    t.Writable ∧ ∀ items, t = .list items → ∀ t ∈ items, t.span.isSome := by
  simp only [Phrase.targets, Phrase.oneOf_cons, Phrase.oneOf_nil, or_false] at h
  rcases h with ⟨_, _, _, rfl, -, rfl, rfl⟩ | ⟨v, _, items, rfl, hv, rfl, rfl⟩
  · exact ⟨trivial, by simp⟩
  · obtain ⟨hne, hitems⟩ := Phrase.commaList_within hv
    have htarget : ∀ t ∈ items, (∀ n ∈ t.name, IsName n) ∧ t.span.isSome := by
      intro t ht
      obtain ⟨w, hw, _, _, ⟨⟨e, n⟩, span⟩, rfl, ⟨⟨x, y, e', rfl, hx, z, _, n', rfl, hz, rfl, he⟩, -⟩, rfl,
        rfl⟩ := hitems t ht
      obtain ⟨rfl, rfl⟩ := Prod.mk.inj he
      refine ⟨fun n hn => ?_, rfl⟩
      obtain ⟨_, r, _, rfl, -, hr⟩ := Phrase.of_optional hz n hn
      exact Phrase.name_isName (hu.mono fun l hl => by simp [hw (show l ∈ _ by simp [hl])]) hr
    refine ⟨⟨hne, fun t ht => (htarget t ht).1⟩, fun items' he t ht => ?_⟩
    obtain rfl := Targets.list.inj he
    exact (htarget t ht).2

theorem entryFilter_valid {u : List Lexeme} {f : EntryFilter} (hu : LegalRun u)
    (h : Phrase.entryFilter G u f) : f.Valid := by
  have hparts := Phrase.entryFilter_parts h
  obtain ⟨hpart, v, w, x, y, rfl, -, hw, hx, -⟩ := Phrase.entryFilter_iff.mp h
  refine ⟨⟨fun d hd => ?_, fun d hd => ?_⟩, hpart, fun e he => ?_⟩
  · obtain ⟨_, _, _, rfl, -, _, z, _, rfl, -, hz⟩ := Phrase.of_optional hw d hd
    exact Phrase.date_year (hu.mono fun l hl => by simp [hl]) hz
  · have hclosing := Phrase.of_optional hx (.on d) hd
    simp only [Phrase.closing, Phrase.oneOf_cons, Phrase.oneOf_nil, or_false] at hclosing
    rcases hclosing with ⟨_, _, _, rfl, -, -, he⟩ | ⟨_, _, _, rfl, -, _, _, _, rfl, -, z, _, _, rfl, hz, -, he⟩
    · cases he
    · obtain rfl := Closing.on.inj he
      exact Phrase.date_year (hu.mono fun l hl => by simp [hl]) hz
  · exact within_valid hG hu (hparts e (by simpa [EntryFilter.parts] using he))

theorem source_readable {u : List Lexeme} {a : Source} (hu : LegalRun u) (h : Phrase.source G u a) :
    a.Writable ∧ ∀ f, a = .entries f → f.HasPart := by
  simp only [Phrase.source, Phrase.oneOf_cons, Phrase.oneOf_nil, or_false] at h
  rcases h with ⟨_, _, n, rfl, hn, rfl, rfl⟩ | ⟨_, _, _, rfl, -, _, _, _, rfl, -, _, _, _, rfl, -, rfl, rfl⟩ |
    ⟨v, _, f, rfl, hv, rfl, rfl⟩
  · exact ⟨Phrase.table_legal (hu.mono fun l hl => by simp [hl]) hn, by simp⟩
  · exact ⟨trivial, by simp⟩
  · have hf := entryFilter_valid hG (hu.mono fun l hl => by simp [hl]) hv.1
    refine ⟨hf.1, fun f' he => ?_⟩
    obtain rfl := Source.entries.inj he
    exact hf.2.1

omit hG in
theorem pivotKey_writable {u : List Lexeme} {k : PivotKey} (hu : LegalRun u) (h : Phrase.pivotKey u k) :
    k.Writable := by
  simp only [Phrase.pivotKey, Phrase.oneOf_cons, Phrase.oneOf_nil, or_false] at h
  rcases h with ⟨_, _, n, rfl, -, rfl, rfl⟩ | ⟨v, _, n, rfl, hv, rfl, rfl⟩
  · trivial
  · exact Phrase.name_isName (hu.mono fun l hl => by simp [hl]) hv

/-- A query is valid. -/
theorem select_valid {u : List Lexeme} {s : Select} (hu : LegalRun u) (h : Phrase.select G u s) :
    s.Valid := by
  obtain ⟨hparts, hquery⟩ := Phrase.select_parts hG.key h
  have hvalid : ∀ x ∈ s.parts, x.ValidPart := fun x hx => within_valid hG hu (hparts x hx)
  refine .mk ?_ (fun x hx => (hvalid x hx).2) fun s' hs => ?_
  · obtain ⟨l, d, t, a, c, g, o, p, n, rfl, -, -, ht, ha, hc, hg, ho, hp, -⟩ := Phrase.select_iff.mp h
    have hlegal : ∀ {v}, v ⊆ l :: (d ++ (t ++ (a ++ (c ++ (g ++ (o ++ (p ++ n))))))) → LegalRun v := hu.mono
    obtain ⟨htargets, hspans⟩ := targets_readable (hlegal fun l hl => by simp [hl]) ht
    have hsource : ∀ b ∈ s.source, b.Writable ∧ ∀ f, b = .entries f → f.HasPart := by
      intro b hb
      obtain ⟨_, w, _, rfl, -, hw⟩ := Phrase.of_optional ha b hb
      exact source_readable hG (hlegal fun l hl => by simp [hl]) hw
    refine ⟨⟨htargets, fun b hb => (hsource b hb).1, fun b hb => ?_, fun hnil => ?_, fun b hb => ?_,
      fun hm => (hvalid _ hm).1 rfl⟩, fun f hf => (hsource _ hf).2 f rfl, hspans⟩
    · exact (Phrase.groupBy_parts hG.key (Phrase.of_optional hg b hb)).1
    · exact (Phrase.orderBy_parts hG.key (Phrase.of_optional ho [] hnil)).1 rfl
    · obtain ⟨_, _, _, rfl, -, _, _, _, rfl, -, x, _, _, rfl, hx, _, _, _, rfl, -, y, _, _, rfl, hy, rfl, rfl⟩ :=
        Phrase.of_optional hp b hb
      exact ⟨pivotKey_writable (hlegal fun l hl => by simp [hl]) hx,
        pivotKey_writable (hlegal fun l hl => by simp [hl]) hy⟩
  · obtain ⟨v, hv, hs⟩ := hquery s' hs
    exact hG.select (hu.mono hv) hs

end

/-! ## Statements -/

/-- Everything that is derived on some level is valid. -/
theorem phrases_valid : ∀ levels, (phrases .anywhere levels).Valid
  | 0 => ⟨fun _ h => absurd h id, fun _ h => absurd h id, fun _ h => absurd h id, fun _ h => absurd h id,
      fun _ h => absurd h id, id, fun _ _ h => absurd h id⟩
  | levels + 1 => by
    have hG := phrases_valid levels
    exact
      { expr := fun hu h => valid_of_place hG (m := 1) (by decide) hu h
        inversion := fun hu h => valid_of_place hG (m := 3) (by decide) hu h
        factor := fun hu h => valid_of_place hG (m := 7) (by decide) hu h
        select := fun hu h => select_valid hG hu h
        bare := fun hu h => select_valid hG hu (by simpa [phrases] using h)
        grouped := fun h => by simp [phrases, Phrase.none] at h
        key := fun u x h => by simpa [phrases] using h }

section
variable {u : List Lexeme} {levels : Nat} (hu : LegalRun u)
include hu

theorem summary_isName {o : Option String} (h : Phrase.optional Phrase.summary u o) : ∀ n ∈ o, IsName n := by
  intro n hn
  obtain ⟨_, v, _, rfl, -, hv⟩ := Phrase.of_optional h n hn
  exact Phrase.name_isName (hu.mono fun l hl => by simp [hl]) hv

theorem shorthandSource_valid {o : Option EntryFilter}
    (h : Phrase.optional (Phrase.shorthandSource (phrases .anywhere levels)) u o) : ∀ f ∈ o, f.Valid := by
  intro f hf
  obtain ⟨_, v, _, rfl, -, hv⟩ := Phrase.of_optional h f hf
  exact entryFilter_valid (phrases_valid levels) (hu.mono fun l hl => by simp [hl]) hv

/-- A statement of the grammar is valid. -/
theorem statement_valid {t : Statement} (h : Phrase.statement (phrases .anywhere levels) u t) : t.Valid := by
  have hG := phrases_valid levels
  simp only [Phrase.statement, Phrase.oneOf_cons, Phrase.oneOf_nil, or_false] at h
  rcases h with ⟨v, _, s, rfl, hv, rfl, rfl⟩ |
    ⟨_, _, b, rfl, ⟨_, _, _, rfl, -, x, _, n, rfl, hx, y, _, f, rfl, hy, z, _, c, rfl, hz, rfl, rfl⟩, rfl, rfl⟩ |
    ⟨_, _, j, rfl, ⟨_, _, _, rfl, -, w, _, a, rfl, hw, x, _, n, rfl, hx, y, _, f, rfl, hy, rfl, rfl⟩, rfl, rfl⟩ |
    ⟨_, _, p, rfl, ⟨_, _, _, rfl, -, y, _, f, rfl, hy, rfl, rfl⟩, rfl, rfl⟩
  · exact hG.select (hu.mono fun l hl => by simp [hl]) hv
  · refine ⟨summary_isName (hu.mono fun l hl => by simp [hl]) hx,
      shorthandSource_valid (hu.mono fun l hl => by simp [hl]) hy, fun e he => ?_⟩
    obtain ⟨_, v, _, rfl, -, hv⟩ := Phrase.of_optional hz e he
    exact hG.expr (hu.mono fun l hl => by simp [hl]) hv
  · exact ⟨fun value hv => Phrase.stringValue_isQuotable (hu.mono fun l hl => by simp [hl])
      (Phrase.of_optional hw value hv), summary_isName (hu.mono fun l hl => by simp [hl]) hx,
      shorthandSource_valid (hu.mono fun l hl => by simp [hl]) hy⟩
  · exact shorthandSource_valid (hu.mono fun l hl => by simp [hl]) hy

end

/-- What is parsed is valid. -/
theorem valid_of_parse {source : String} {limit : Nat} {t : Statement} (h : parse source limit = .ok t) :
    t.Valid := by
  obtain ⟨lexemes, -, hu, ht⟩ := derived_of_parse h
  exact statement_valid hu ht

theorem valid_of_parse_query : ∃ t,
    parse "SELECT m['k'].b AS c WHERE x IN (1, 2) AND y = (SELECT max(d) FROM CLOSE)" 8 = .ok t ∧ t.Valid := by
  have hread : (parse "SELECT m['k'].b AS c WHERE x IN (1, 2) AND y = (SELECT max(d) FROM CLOSE)"
      8).toOption.isSome = true := by cbv
  obtain ⟨t, ht⟩ := Option.isSome_iff_exists.mp hread
  have hok := Phrase.toOption_eq_some_iff.mp ht
  exact ⟨t, hok, valid_of_parse hok⟩

end LedgerQuery
