import LedgerQuery.Proofs.Phrase.Opening
import LedgerQuery.Proofs.Reading.SoundExpr

/-!
# Queries and statements that are read are those of the grammar

A key that is an integer may halt the readers: when a token follows it that
would continue an expression, it is read as an expression, and no reader takes
that token any more.  A query then halts too, and an expression that ends with such a query.
But a query in parentheses or a whole statement does not end there.
-/

namespace LedgerQuery

open Token

namespace Finds

open LedgerQuery.Parser

variable {E H Q I : List Lexeme → Prop}

/-- A clause that a terminal opens, and the clauses after it: where an expression might go on, none is read. -/
theorem clause {α β : Type} {x : Terminal} {p : Parser α} {f : Option α → Parser β} {L : Phrase (Option α)}
    {L' : Option α → Phrase β} (hx : x.continues = false) (hp : Finds H I I (Parser.after x p) L)
    (hH : ∀ {rest}, H rest → Q rest) (hQ : ∀ {rest}, Q rest → Halted rest)
    (hf : ∀ o, Finds Q I I (f o) (L' o) ∧ Idle Halted (f o)) :
    Finds Q I I (Parser.after x p >>= f) (L >>= L') ∧ Idle Halted (Parser.after x p >>= f) :=
  ⟨bind hp (fun o => (hf o).1) hH fun o => (hf o).2.mono fun hhalt => hQ (hH hhalt),
    Idle.bind (Idle.after hx) fun o => (hf o).2⟩

section
variable {inner : Nested} {G : Phrases} (hinv : Invariant I) (hG : Sound E Q I inner G)
include hinv hG

/-! ## Keys and targets -/

theorem columnKey : Finds Q I I (Parser.columnKey inner) (Phrase.columnKey G) := by
  intro s k s' hI hs
  unfold Parser.columnKey at hs
  rw [peek_bind] at hs
  have asExpr : (do return ColumnKey.expr (← inner.expr) : Parser ColumnKey) s = .ok (k, s') →
      (∀ u, s.Moved u s' → IsInteger u → Halted s'.rest) →
      (∃ u, s.Moved u s' ∧ I s'.rest ∧ Phrase.columnKey G u k) ∨ Q s'.rest := by
    intro hs hkey
    obtain ⟨e, s₁, h₁, hs₁⟩ := bind_eq_ok.mp hs
    obtain ⟨rfl, rfl⟩ := pure_eq_ok.mp hs₁
    rcases hG.expr _ _ _ hI h₁ with ⟨x, m, J, hx⟩ | hhalt
    · refine (hG.key h₁ m hx (hkey x m)).imp_left fun hx => ?_
      exact ⟨x, m, J, Phrase.oneOf_tail (Phrase.oneOf_head (Phrase.seq_pure hx))⟩
    · exact .inr (hG.halting.query hhalt)
  cases ht : nextOf s.rest with
  | integer digits =>
    rw [ht] at hs
    obtain ⟨t, s₀, h₀, hs₀⟩ := bind_eq_ok.mp hs
    obtain ⟨rfl, rfl⟩ : s.nth 1 = t ∧ s = s₀ := by simpa [peekNth] using h₀
    cases hc : (s.nth 1).continuesExpression with
    | true =>
      rw [if_pos hc] at hs₀
      refine asExpr hs₀ ?_
      rintro _ m ⟨d, span, rfl⟩
      obtain ⟨rest, tried, last⟩ := s
      obtain rfl : rest = _ := m.rest
      rwa [Input.nth_append [_] s'.rest tried last (n := 1) (by simp)] at hc
    | false =>
      rw [if_neg (by simp [hc])] at hs₀
      obtain ⟨n, s₁, h₁, hs₁⟩ := bind_eq_ok.mp hs₀
      obtain ⟨hn, l, rest, hl, rfl⟩ := take_eq_ok h₁ (by simp [ht])
      obtain ⟨rfl, rfl⟩ := pure_eq_ok.mp hs₁
      have hd : l.token = .integer digits := by simpa [hl] using ht
      refine .inl ⟨[l], .single hl, hinv.tail (hl ▸ hI) (by rw [hd]; rfl), ?_⟩
      exact Phrase.oneOf_head (Phrase.seq_pure (Phrase.count_iff.mpr ⟨l, digits, rfl, hd, hn⟩))
  | _ =>
    rw [ht] at hs
    refine asExpr hs ?_
    rintro _ m ⟨d, span, rfl⟩
    rw [m.rest] at ht
    simp at ht

theorem target : Finds E I I (Parser.target inner) (Phrase.target G) := by
  intro s a s' hI hs
  unfold Parser.target at hs
  obtain ⟨start, s₀, h₀, hs₀⟩ := bind_eq_ok.mp hs
  obtain ⟨rfl, rfl⟩ : (s.rest.head?.map Lexeme.span).getD s.last = start ∧ s = s₀ := by
    simpa [nextSpan] using h₀
  obtain ⟨e, s₁, h₁, hs₁⟩ := bind_eq_ok.mp hs₀
  obtain ⟨o, s₂, h₂, hs₂⟩ := bind_eq_ok.mp hs₁
  obtain ⟨stop, s₃, h₃, hs₃⟩ := bind_eq_ok.mp hs₂
  obtain ⟨rfl, rfl⟩ : s₂.last = stop ∧ s₂ = s₃ := by simpa [lastSpan] using h₃
  obtain ⟨rfl, rfl⟩ := pure_eq_ok.mp hs₃
  rcases hG.expr _ _ _ hI h₁ with ⟨x, m₁, I₁, hx⟩ | hhalt
  rotate_left
  · have hr := Idle.after (by decide) _ _ _ (hG.halting.expr_halted hhalt) h₂
    exact .inr (by rw [hr]; exact hhalt)
  refine .inl ?_
  obtain ⟨y, m₂, I₂, hy⟩ := exact (after hinv (by decide) (name hinv)) I₁ h₂
  have m := m₁.trans m₂
  have hne : x ++ y ≠ [] := by simp [hG.ne_nil hx]
  obtain ⟨first, z, hz⟩ := List.exists_cons_of_ne_nil hne
  obtain ⟨last, hlast, hspan⟩ := spanAfter_eq_getLast? s.last hne
  refine ⟨x ++ y, m, I₂, ?_⟩
  have hspanned : Phrase.spanned (do
      let e ← G.expr
      let name ← Phrase.optional (do Phrase.keyword .as; Phrase.name)
      return (e, name)) (x ++ y) ((e, o), first.span.merge last.span) :=
    ⟨Phrase.seq hx (Phrase.seq_pure hy), first, by simp [hz], last, hlast, rfl⟩
  have hstart : (s.rest.head?.map Lexeme.span).getD s.last = first.span := by
    simp [m.rest, hz]
  rw [hstart, m.last, hspan]
  exact Phrase.seq_pure (f := fun a : (Expr × Option String) × Span =>
    Target.mk a.1.1 a.1.2 (some a.2)) hspanned

theorem targets : Finds E I I (Parser.targets inner) (Phrase.targets G) := by
  intro s a s' hI hs
  unfold Parser.targets at hs
  obtain ⟨star, s₁, h₁, hs₁⟩ := bind_eq_ok.mp hs
  obtain ⟨x, m₁, I₁, hx⟩ := exact (accept hinv (by decide)) hI h₁
  cases star with
  | true =>
    obtain ⟨rfl, rfl⟩ := pure_eq_ok.mp hs₁
    exact .inl ⟨x, m₁, I₁, Phrase.oneOf_head (Phrase.seq_pure (Phrase.of_flag hx))⟩
  | false =>
    obtain rfl : x = [] := hx
    obtain ⟨items, s₂, h₂, hs₂⟩ := bind_eq_ok.mp hs₁
    obtain ⟨rfl, rfl⟩ := pure_eq_ok.mp hs₂
    refine (commaList hinv hG.halting.expr_halted (target hinv hG) _ _ _ I₁ h₂).imp_left ?_
    rintro ⟨y, m₂, I₂, hy⟩
    exact ⟨y, m₁.skip m₂, I₂, Phrase.oneOf_tail (Phrase.oneOf_head (Phrase.seq_pure hy))⟩

/-! ## Sources -/

omit hG in
theorem openDate : Finds Never I I Parser.openDate (do Phrase.keyword .on; Phrase.date) :=
  andThen (expect hinv (by decide)) fun _ => date hinv

omit hG in
theorem opening : Finds Never I I (Parser.after (.keyword .open) Parser.openDate)
    (Phrase.optional Phrase.opening) :=
  after_part hinv (by decide) (openDate hinv) fun _ _ _ hl hu => Phrase.seq (Phrase.single hl) hu

omit hG in
theorem closing : Finds Never I I Parser.closing
    (fun u c => ∀ l : Lexeme, l.token.is (.keyword .close) = true → Phrase.closing (l :: u) c) := by
  refine of_exact fun s c s' hI hs => ?_
  unfold Parser.closing at hs
  obtain ⟨on, s₁, h₁, hs₁⟩ := bind_eq_ok.mp hs
  obtain ⟨x, m₁, I₁, hx⟩ := exact (accept hinv (by decide)) hI h₁
  cases on with
  | true =>
    obtain ⟨d, s₂, h₂, hs₂⟩ := bind_eq_ok.mp hs₁
    obtain ⟨y, m₂, I₂, hy⟩ := exact (date hinv) I₁ h₂
    obtain ⟨rfl, rfl⟩ := pure_eq_ok.mp hs₂
    exact ⟨_, m₁.trans m₂, I₂, fun l hl => Phrase.oneOf_tail (Phrase.oneOf_head
      (Phrase.seq (v := [l]) (Phrase.single hl) (Phrase.seq (Phrase.of_flag hx) (Phrase.seq_pure hy))))⟩
  | false =>
    obtain ⟨rfl, rfl⟩ := pure_eq_ok.mp hs₁
    obtain rfl : x = [] := hx
    exact ⟨[], m₁, I₁, fun l hl => Phrase.oneOf_head (Phrase.seq_pure (Phrase.single hl))⟩

omit hG in
theorem close : Finds Never I I (Parser.after (.keyword .close) Parser.closing)
    (Phrase.optional Phrase.closing) :=
  after_part hinv (by decide) (closing hinv) fun l _ _ hl hu => hu l hl

omit hG in
theorem clear : Finds Never I I (Parser.accept (.keyword .clear)) (Phrase.flag (.keyword .clear)) :=
  accept hinv (by decide)

theorem entryFilter : Finds E I I (Parser.entryFilter inner) (Phrase.entryFilter G) := by
  intro s f s' hI hs
  unfold Parser.entryFilter at hs
  obtain ⟨b₁, s₁, h₁, hs₁⟩ := bind_eq_ok.mp hs
  rcases accept_eq_ok h₁ with ⟨rfl, l, rest, hr, hl, rfl⟩ | ⟨rfl, hopen, hr₁, hlast₁⟩
  · have hJ : I rest := hinv.tail (hr ▸ hI) (is_eq_false_of_is hl (by decide))
    have htail := andThen (H := Never) (openDate hinv) fun openOn => andThen (close hinv) fun c =>
      andThen (clear hinv) fun b => pure (EntryFilter.mk none (some openOn) c b)
    obtain ⟨_, m, J, x, w, d, rfl, hx, hw⟩ := exact htail hJ hs₁
    refine .inl ⟨[l] ++ (x ++ w), (Input.Moved.single hr).trans m, J, Phrase.oneOf_head ?_⟩
    rw [← List.append_assoc]
    exact Phrase.seq (L := Phrase.opening) (Phrase.seq (Phrase.single hl) hx) hw
  · obtain ⟨b₂, s₂, h₂, hs₂⟩ := bind_eq_ok.mp hs₁
    have I₁ : I s₁.rest := hr₁ ▸ hI
    rcases accept_eq_ok h₂ with ⟨rfl, l, rest, hr, hl, rfl⟩ | ⟨rfl, hclose, hr₂, hlast₂⟩
    · have hJ : I rest := hinv.tail (hr ▸ I₁) (is_eq_false_of_is hl (by decide))
      have htail := andThen (H := Never) (closing hinv) fun c => andThen (clear hinv) fun b =>
        pure (EntryFilter.mk none none (some c) b)
      obtain ⟨_, m, J, x, w, c, rfl, hx, hw⟩ := exact htail hJ hs₂
      refine .inl ⟨[l] ++ (x ++ w), (Input.Moved.of_eq hr₁ hlast₁).skip ((Input.Moved.single hr).trans m), J,
        Phrase.oneOf_tail (Phrase.oneOf_head ?_)⟩
      rw [← List.append_assoc]
      exact Phrase.seq (hx l hl) hw
    · obtain ⟨b₃, s₃, h₃, hs₃⟩ := bind_eq_ok.mp hs₂
      have I₂ : I s₂.rest := hr₂ ▸ I₁
      have m₂ : s.Moved [] s₂ := (Input.Moved.of_eq hr₁ hlast₁).skip (.of_eq hr₂ hlast₂)
      rcases accept_eq_ok h₃ with ⟨rfl, l, rest, hr, hl, rfl⟩ | ⟨rfl, hclear, hr₃, hlast₃⟩
      · obtain ⟨rfl, rfl⟩ := pure_eq_ok.mp hs₃
        exact .inl ⟨[l], m₂.skip (.single hr), hinv.tail (hr ▸ I₂) (is_eq_false_of_is hl (by decide)),
          Phrase.oneOf_tail (Phrase.oneOf_tail (Phrase.oneOf_head
            (Phrase.seq_pure (Phrase.single hl))))⟩
      · have I₃ : I s₃.rest := hr₃ ▸ I₂
        have htail := bind hG.expr (fun e => andThen (opening hinv) fun o =>
          andThen (close hinv) fun c => andThen (clear hinv) fun b =>
            pure (EntryFilter.mk (some e) o c b)) id fun e => Idle.mono (Idle.bind (Idle.after (by decide))
              fun o => Idle.bind (Idle.after (by decide)) fun c => Idle.bind (Idle.accept (by decide))
                fun b => Idle.pure (EntryFilter.mk (some e) o c b)) hG.halting.expr_halted
        rcases htail _ _ _ I₃ hs₃ with ⟨_, m, J, x, w, e, rfl, hx, hw⟩ | hhalt
        rotate_left
        · exact .inr hhalt
        have m₃ : s.Moved (x ++ w) s' := m₂.skip ((Input.Moved.of_eq hr₃ hlast₃).skip m)
        refine .inl ⟨x ++ w, m₃, J, Phrase.oneOf_tail (Phrase.oneOf_tail (Phrase.oneOf_tail
          (Phrase.oneOf_head (Phrase.seq (L := Phrase.such G.expr _) ⟨hx, ?_⟩ hw))))⟩
        rintro ⟨l, hl, k, hk, hlk⟩
        obtain ⟨y, rfl⟩ : ∃ y, x = l :: y := List.head?_eq_some_iff.mp hl
        rw [hr₂, hr₁, m₃.rest] at hclear
        rw [hr₁, m₃.rest] at hclose
        rw [m₃.rest] at hopen
        simp only [List.mem_cons, List.not_mem_nil, or_false] at hk
        rcases hk with rfl | rfl | rfl
        · exact absurd (hlk.symm.trans hopen) (by simp)
        · exact absurd (hlk.symm.trans hclose) (by simp)
        · exact absurd (hlk.symm.trans hclear) (by simp)

omit hinv hG in
theorem atQuery_eq_ok {s s' : Input} {b : Bool} (hs : Parser.atQuery s = .ok (b, s')) :
    s = s' ∧ (b = true ↔ Phrase.BeginsWithQuery s.rest) := by
  obtain ⟨rest, tried, last⟩ := s
  have hb : (_ && _, _) = (b, s') := Except.ok.inj (show Except.ok
    ((Input.nth ⟨rest, tried, last⟩ 0).is (.symbol .leftParen) &&
      (Input.nth ⟨rest, tried, last⟩ 1).is (.keyword .select), Input.mk rest tried last) =
    .ok (b, s') from hs)
  obtain ⟨rfl, rfl⟩ := Prod.mk.inj hb
  refine ⟨rfl, ?_⟩
  rw [Bool.and_eq_true]
  constructor
  · rintro ⟨hl, hm⟩
    rcases rest with _ | ⟨l, _ | ⟨m, rest⟩⟩
    · exact absurd (show false = true from hl) Bool.false_ne_true
    · exact absurd (show false = true from hm) Bool.false_ne_true
    · exact ⟨l, m, rest, rfl, hl, hm⟩
  · rintro ⟨l, m, v, rfl, hl, hm⟩
    exact ⟨hl, hm⟩

/-- What is read after `FROM` is a source. -/
theorem source {s s' : Input} {a : Source} {f : Lexeme} (hf : f.token.is (.keyword .from) = true)
    (hI : I (f :: s.rest)) (hs : Parser.source inner s = .ok (a, s')) :
    (∃ u, s.Moved u s' ∧ I s'.rest ∧ Phrase.source G u a) ∨ E s'.rest := by
  unfold Parser.source at hs
  rw [peek_bind] at hs
  have other : (do
      if ← Parser.atQuery then
        Parser.advance
        let query ← inner.select
        Parser.expect (.symbol .rightParen)
        return Source.query query
      else
        record .table
        return .entries (← Parser.entryFilter inner) : Parser Source) s = .ok (a, s') →
      (∃ u, s.Moved u s' ∧ I s'.rest ∧ Phrase.source G u a) ∨ E s'.rest := by
    intro hs
    obtain ⟨b, s₀, h₀, hs₀⟩ := bind_eq_ok.mp hs
    obtain ⟨rfl, hb⟩ := atQuery_eq_ok h₀
    cases b with
    | true =>
      obtain ⟨l, m, rest, hr, hl, hm⟩ := hb.mp rfl
      obtain ⟨_, s₁, h₁, hs₁⟩ := bind_eq_ok.mp hs₀
      obtain rfl : Input.mk (m :: rest) [] l.span = s₁ := by simpa [Parser.advance, hr] using h₁
      obtain ⟨q, s₂, h₂, hs₂⟩ := bind_eq_ok.mp hs₁
      obtain ⟨_, s₃, h₃, hs₃⟩ := bind_eq_ok.mp hs₂
      have hJ : I rest := by
        rw [hr] at hI
        exact hinv.query hI hf hl hm
      rcases hG.select ⟨m :: rest, [], l.span⟩ q s₂ (by rintro _ _ ⟨⟩ -; exact hJ) h₂ with
        ⟨x, m₂, I₂, hx⟩ | hhalt
      · obtain ⟨y, m₃, I₃, hy⟩ := exact (expect hinv (by decide)) I₂ h₃
        obtain ⟨rfl, rfl⟩ := pure_eq_ok.mp hs₃
        exact .inl ⟨_, (Input.Moved.single hr).trans (m₂.trans m₃), I₃, Phrase.oneOf_tail
          (Phrase.oneOf_head (Phrase.seq (Phrase.single hl) (Phrase.seq hx (Phrase.seq_pure hy))))⟩
      · exact absurd h₃ (Idle.expect_ne_ok (by decide) (hG.halting.halted hhalt))
    | false =>
      have hq : ¬ Phrase.BeginsWithQuery s.rest := fun h => absurd (hb.mpr h) (by simp)
      obtain ⟨_, s₁, h₁, hs₁⟩ := bind_eq_ok.mp hs₀
      obtain rfl : { s with tried := .table :: s.tried } = s₁ := by simpa [record] using h₁
      obtain ⟨e, s₂, h₂, hs₂⟩ := bind_eq_ok.mp hs₁
      obtain ⟨rfl, rfl⟩ := pure_eq_ok.mp hs₂
      refine (entryFilter hinv hG _ _ _ (by exact hinv.filter hI hf hq) h₂).imp_left ?_
      rintro ⟨x, m, J, hx⟩
      refine ⟨x, ⟨m.rest, m.last⟩, J, Phrase.oneOf_tail (Phrase.oneOf_tail (Phrase.oneOf_head
        (Phrase.seq_pure (L := Phrase.such _ _) ⟨hx, ?_⟩)))⟩
      rintro ⟨l, k, y, rfl, hl, hk⟩
      exact hq ⟨l, k, y ++ s₂.rest, by simpa using m.rest, hl, hk⟩
  cases ht : nextOf s.rest with
  | table n =>
    rw [ht] at hs
    obtain rfl := take_ok_eq hs
    obtain ⟨-, l, rest, hl, rfl⟩ := take_eq_ok hs (by simp [ht])
    have hn : l.token = .table n := by simpa [hl] using ht
    have hJ : I (l :: rest) := by
      rw [hl] at hI
      refine hinv.filter hI hf ?_
      rintro ⟨_, _, _, ⟨⟩, hp, -⟩
      rw [hn] at hp
      exact absurd hp (by simp [is, terminal?])
    refine .inl ⟨[l], .single hl, hinv.tail hJ (by rw [hn]; rfl), ?_⟩
    exact Phrase.oneOf_head (Phrase.seq_pure (Phrase.table_iff.mpr ⟨l, rfl, hn⟩))
  | _ =>
    rw [ht] at hs
    exact other hs

/-! ## Clauses -/

theorem fromSource : Finds E I I (Parser.after (.keyword .from) (Parser.source inner))
    (Phrase.optional (do Phrase.keyword .from; Phrase.source G)) := by
  intro s o s' hI hs
  unfold Parser.after at hs
  obtain ⟨b, s₁, h₁, hs₁⟩ := bind_eq_ok.mp hs
  rcases accept_eq_ok h₁ with ⟨rfl, l, rest, hr, hl, rfl⟩ | ⟨rfl, -, hr, hlast⟩
  · obtain ⟨a, ha, rfl⟩ := map_eq_ok.mp hs₁
    refine (source hinv hG hl (hr ▸ hI) ha).imp_left ?_
    rintro ⟨x, m, J, hx⟩
    exact ⟨_, (Input.Moved.single hr).trans m, J, Phrase.seq (Phrase.single hl) hx⟩
  · obtain ⟨rfl, rfl⟩ := pure_eq_ok.mp hs₁
    exact .inl ⟨[], .of_eq hr hlast, hr ▸ hI, rfl⟩

theorem condition : Finds E I I (Parser.after (.keyword .where) inner.expr)
    (Phrase.optional (Phrase.condition G)) :=
  after hinv (by decide) hG.expr

theorem groupBy : Finds Q I I (Parser.after (.keyword .group) (Parser.groupBy inner))
    (Phrase.optional (Phrase.groupBy G)) := by
  refine after hinv (by decide) (andThen (expect hinv (by decide)) fun _ => ?_)
  have having := fun keys => clause (by decide) (after (x := .keyword .having) hinv (by decide) hG.expr)
    hG.halting.query hG.halting.halted fun having => ⟨pure (GroupBy.mk keys having), Idle.pure _⟩
  exact bind (commaList hinv hG.halting.halted (columnKey hinv hG)) (fun keys => (having keys).1) id
    fun keys => (having keys).2.mono hG.halting.halted

omit hG in
theorem sortDirection : Finds Never I I Parser.sortDirection Phrase.sortDirection := by
  refine of_exact fun s d s' hI hs => ?_
  unfold Parser.sortDirection at hs
  obtain ⟨desc, s₁, h₁, hs₁⟩ := bind_eq_ok.mp hs
  obtain ⟨x, m₁, I₁, hx⟩ := exact (accept hinv (by decide)) hI h₁
  cases desc with
  | true =>
    obtain ⟨rfl, rfl⟩ := pure_eq_ok.mp hs₁
    exact ⟨x, m₁, I₁, Phrase.oneOf_head (Phrase.seq_pure (Phrase.of_flag hx))⟩
  | false =>
    obtain rfl : x = [] := hx
    obtain ⟨asc, s₂, h₂, hs₂⟩ := bind_eq_ok.mp hs₁
    obtain ⟨y, m₂, I₂, hy⟩ := exact (accept hinv (by decide)) I₁ h₂
    obtain ⟨rfl, rfl⟩ := pure_eq_ok.mp hs₂
    refine ⟨y, m₁.skip m₂, I₂, Phrase.oneOf_tail ?_⟩
    cases asc with
    | true => exact Phrase.oneOf_head (Phrase.seq_pure (Phrase.of_flag hy))
    | false => exact Phrase.oneOf_tail (Phrase.oneOf_head ⟨hy, rfl⟩)

omit hinv hG in
theorem sortDirection_idle : Idle Halted Parser.sortDirection := by
  refine Idle.bind (Idle.accept (by decide)) fun desc => ?_
  cases desc with
  | true => exact Idle.pure _
  | false => exact Idle.bind (Idle.accept (by decide)) fun _ => Idle.pure _

theorem sortKey : Finds Q I I (Parser.sortKey inner) (Phrase.sortKey G) := by
  refine bind (columnKey hinv hG) (fun column => andThen (sortDirection hinv) fun d => pure _) id
    fun column => ?_
  exact (Idle.bind sortDirection_idle fun _ => Idle.pure _).mono hG.halting.halted

theorem orderBy : Finds Q I I (Parser.after (.keyword .order) (Parser.orderBy inner))
    (Phrase.optional (Phrase.orderBy G)) :=
  after hinv (by decide) (andThen (expect hinv (by decide)) fun _ =>
    commaList hinv hG.halting.halted (sortKey hinv hG))

omit hG in
theorem pivotKey : Finds Never I I Parser.pivotKey Phrase.pivotKey := by
  refine of_exact fun s k s' hI hs => ?_
  unfold Parser.pivotKey at hs
  rw [peek_bind] at hs
  have asName : (do record .integer; return PivotKey.column (← Parser.name) : Parser PivotKey) s =
      .ok (k, s') → ∃ u, s.Moved u s' ∧ I s'.rest ∧ Phrase.pivotKey u k := by
    intro hs
    obtain ⟨_, s₁, h₁, hs₁⟩ := bind_eq_ok.mp hs
    obtain rfl : { s with tried := .integer :: s.tried } = s₁ := by simpa [record] using h₁
    obtain ⟨n, s₂, h₂, hs₂⟩ := bind_eq_ok.mp hs₁
    obtain ⟨x, m, J, hx⟩ := exact (name hinv) (by exact hI) h₂
    obtain ⟨rfl, rfl⟩ := pure_eq_ok.mp hs₂
    exact ⟨x, ⟨m.rest, m.last⟩, J, Phrase.oneOf_tail (Phrase.oneOf_head (Phrase.seq_pure hx))⟩
  cases ht : nextOf s.rest with
  | integer digits =>
    rw [ht] at hs
    obtain ⟨n, s₁, h₁, hs₁⟩ := bind_eq_ok.mp hs
    obtain ⟨hn, l, rest, hl, rfl⟩ := take_eq_ok h₁ (by simp [ht])
    obtain ⟨rfl, rfl⟩ := pure_eq_ok.mp hs₁
    have hd : l.token = .integer digits := by simpa [hl] using ht
    refine ⟨[l], .single hl, hinv.tail (hl ▸ hI) (by rw [hd]; rfl), ?_⟩
    exact Phrase.oneOf_head (Phrase.seq_pure (Phrase.count_iff.mpr ⟨l, digits, rfl, hd, hn⟩))
  | _ =>
    rw [ht] at hs
    exact asName hs

omit hG in
theorem pivotBy : Finds Never I I (Parser.after (.keyword .pivot) Parser.pivotBy)
    (Phrase.optional Phrase.pivotBy) := by
  refine after hinv (by decide) (andThen (expect hinv (by decide)) fun _ => ?_)
  refine andThen (pivotKey hinv) fun row => of_exact fun s p s' hI hs => ?_
  rw [peek_bind] at hs
  cases hcomma : (nextOf s.rest).is (.symbol .comma) with
  | false =>
    rw [if_neg (by simp [hcomma])] at hs
    exact absurd hs fail_ne_ok
  | true =>
    rw [if_pos hcomma] at hs
    obtain ⟨l, s₁, m₁, I₁, hl, hs₁⟩ := advance_bind hinv hI hcomma (by decide) hs
    obtain ⟨column, s₂, h₂, hs₂⟩ := bind_eq_ok.mp hs₁
    obtain ⟨x, m₂, I₂, hx⟩ := exact (pivotKey hinv) I₁ h₂
    rw [peek_bind] at hs₂
    split at hs₂
    · exact absurd hs₂ fail_ne_ok
    · obtain ⟨rfl, rfl⟩ := pure_eq_ok.mp hs₂
      exact ⟨_, m₁.trans m₂, I₂, Phrase.seq (Phrase.single hl) (Phrase.seq_pure hx)⟩

theorem select : Finds Q (fun rest => ∀ l rest', rest = l :: rest' →
    l.token.is (.keyword .select) = true → I rest') I (Parser.selectQuery inner)
    (Phrase.select G) := by
  have clauses : Finds Q I I (do
      let distinct ← Parser.accept (.keyword .distinct)
      let targets ← Parser.targets inner
      let source ← Parser.after (.keyword .from) (Parser.source inner)
      let condition ← Parser.after (.keyword .where) inner.expr
      let groupBy ← Parser.after (.keyword .group) (Parser.groupBy inner)
      let orderBy ← Parser.after (.keyword .order) (Parser.orderBy inner)
      let pivotBy ← Parser.after (.keyword .pivot) Parser.pivotBy
      let limit ← Parser.after (.keyword .limit) Parser.count
      return Select.mk targets distinct source condition groupBy orderBy pivotBy limit)
      (do
      let distinct ← Phrase.flag (.keyword .distinct)
      let targets ← Phrase.targets G
      let source ← Phrase.optional (do Phrase.keyword .from; Phrase.source G)
      let condition ← Phrase.optional (Phrase.condition G)
      let groupBy ← Phrase.optional (Phrase.groupBy G)
      let orderBy ← Phrase.optional (Phrase.orderBy G)
      let pivotBy ← Phrase.optional Phrase.pivotBy
      let limit ← Phrase.optional Phrase.limit
      return ⟨targets, distinct, source, condition, groupBy, orderBy, pivotBy, limit⟩) := by
    have hE : ∀ {rest}, E rest → Q rest := hG.halting.query
    have hQ : ∀ {rest}, Q rest → Halted rest := hG.halting.halted
    have fromOn := fun distinct targets =>
      clause (by decide) (fromSource hinv hG) hE hQ fun source =>
      clause (by decide) (condition hinv hG) hE hQ fun condition =>
      clause (by decide) (groupBy hinv hG) id hQ fun groupBy =>
      clause (by decide) (orderBy hinv hG) id hQ fun orderBy =>
      clause (by decide) (pivotBy hinv) False.elim hQ fun pivotBy =>
      clause (by decide) (after (x := .keyword .limit) (L := Phrase.count) hinv (by decide) (count hinv)) id hQ
        fun limit =>
        ⟨pure (Select.mk targets distinct source condition groupBy orderBy pivotBy limit), Idle.pure _⟩
    exact andThen (accept hinv (by decide)) fun distinct => bind (targets hinv hG)
      (fun targets => (fromOn distinct targets).1) hE
      fun targets => (fromOn distinct targets).2.mono hG.halting.expr_halted
  intro s q s' hI hs
  unfold Parser.selectQuery at hs
  obtain ⟨_, s₁, h₁, hs₁⟩ := bind_eq_ok.mp hs
  obtain ⟨l, rest, hr, hl, rfl⟩ := expect_eq_ok h₁
  rcases clauses _ q s' (hI l rest hr hl) hs₁ with ⟨x, m, J, hx⟩ | hhalt
  · exact .inl ⟨_, (Input.Moved.single hr).trans m, J, Phrase.seq (Phrase.single hl) hx⟩
  · exact .inr hhalt

/-! ## Statements -/

omit hG in
theorem summary : Finds Never I I Parser.summary (Phrase.optional Phrase.summary) :=
  after hinv (by decide) (name hinv)

theorem shorthandSource (htail : ∀ l rest, I (l :: rest) → I rest) :
    Finds E I I (Parser.shorthandSource inner) (Phrase.optional (Phrase.shorthandSource G)) := by
  intro s o s' hI hs
  unfold Parser.shorthandSource Parser.after at hs
  obtain ⟨b, s₁, h₁, hs₁⟩ := bind_eq_ok.mp hs
  rcases accept_eq_ok h₁ with ⟨rfl, l, rest, hr, hl, rfl⟩ | ⟨rfl, -, hr, hlast⟩
  · obtain ⟨a, ha, rfl⟩ := map_eq_ok.mp hs₁
    refine (entryFilter hinv hG _ _ _ (by exact htail l rest (hr ▸ hI)) ha).imp_left ?_
    rintro ⟨x, m, J, hx⟩
    exact ⟨_, (Input.Moved.single hr).trans m, J, Phrase.seq (Phrase.single hl) hx⟩
  · obtain ⟨rfl, rfl⟩ := pure_eq_ok.mp hs₁
    exact .inl ⟨[], .of_eq hr hlast, hr ▸ hI, rfl⟩

omit hG in
theorem accountPattern :
    Finds Never I I Parser.accountPattern (Phrase.optional Phrase.stringValue) := by
  refine of_exact fun s o s' hI hs => ?_
  unfold Parser.accountPattern at hs
  rw [peek_bind] at hs
  have nothing : (do record .string; return none : Parser (Option String)) s = .ok (o, s') →
      ∃ u, s.Moved u s' ∧ I s'.rest ∧ Phrase.optional Phrase.stringValue u o := by
    intro hs
    obtain ⟨_, s₁, h₁, hs₁⟩ := bind_eq_ok.mp hs
    obtain rfl : { s with tried := .string :: s.tried } = s₁ := by simpa [record] using h₁
    obtain ⟨rfl, rfl⟩ := pure_eq_ok.mp hs₁
    exact ⟨[], ⟨rfl, rfl⟩, hI, rfl⟩
  cases ht : nextOf s.rest with
  | string value =>
    rw [ht] at hs
    obtain rfl := take_ok_eq hs
    obtain ⟨-, l, rest, hl, rfl⟩ := take_eq_ok hs (by simp [ht])
    have hv : l.token = .string value := by simpa [hl] using ht
    exact ⟨[l], .single hl, hinv.tail (hl ▸ hI) (by rw [hv]; rfl),
      Phrase.stringValue_iff.mpr ⟨l, value, rfl, hv, rfl⟩⟩
  | _ =>
    rw [ht] at hs
    exact nothing hs

omit hinv in
/-- A statement.  In a shorthand, `FROM` is a token like any other. -/
theorem statement {I₂ : List Lexeme → Prop} (hinv₂ : Invariant I₂) (hG₂ : Sound E Q I₂ inner G)
    (htail : ∀ l rest, I₂ (l :: rest) → I₂ rest) :
    Finds Q (fun rest => ((nextOf rest).is (.keyword .select) = false → I₂ rest) ∧
      ∀ l rest', rest = l :: rest' → l.token.is (.keyword .select) = true → I rest')
      (fun _ => True) (Parser.statement inner) (Phrase.statement G) := by
  intro s a s' ⟨hI₂, hI⟩ hs
  unfold Parser.statement at hs
  rw [peek_bind] at hs
  have none : ∀ {p : Parser Unit}, (do p; unexpected : Parser Statement) s ≠ .ok (a, s') := by
    intro p hs
    obtain ⟨_, s₁, -, hs₁⟩ := bind_eq_ok.mp hs
    exact unexpected_ne_ok hs₁
  cases ht : nextOf s.rest with
  | keyword k written =>
    rw [ht] at hs hI₂
    cases k with
    | select =>
      obtain ⟨q, s₁, h₁, hs₁⟩ := bind_eq_ok.mp hs
      obtain ⟨rfl, rfl⟩ := pure_eq_ok.mp hs₁
      rcases hG.select s q s₁ hI h₁ with ⟨x, m, -, hx⟩ | hhalt
      · exact .inl ⟨x, m, trivial, Phrase.oneOf_head (Phrase.seq_pure hx)⟩
      · exact .inr hhalt
    | balances =>
      have clauses := fun summary =>
        clause (by decide) (shorthandSource hinv₂ hG₂ htail) hG.halting.query hG.halting.halted fun source =>
        clause (by decide) (condition hinv₂ hG₂) hG.halting.query hG.halting.halted fun condition =>
          ⟨pure (Balances.mk summary source condition), Idle.pure _⟩
      have hp : Finds Q I₂ I₂ (Parser.balances inner) (Phrase.balances G) :=
        andThen (expect hinv₂ (by decide)) fun _ => andThen (summary hinv₂) fun summary =>
          (clauses summary).1
      obtain ⟨q, s₁, h₁, hs₁⟩ := bind_eq_ok.mp hs
      obtain ⟨rfl, rfl⟩ := pure_eq_ok.mp hs₁
      refine (hp _ _ _ (hI₂ rfl) h₁).imp_left ?_
      rintro ⟨x, m, -, hx⟩
      exact ⟨x, m, trivial, Phrase.oneOf_tail (Phrase.oneOf_head (Phrase.seq_pure hx))⟩
    | journal =>
      have hp : Finds E I₂ I₂ (Parser.journal inner) (Phrase.journal G) :=
        andThen (expect hinv₂ (by decide)) fun _ => andThen (accountPattern hinv₂) fun _ =>
          andThen (summary hinv₂) fun _ => bind (shorthandSource hinv₂ hG₂ htail) (fun _ => pure _) id
            fun _ => Idle.pure _
      obtain ⟨q, s₁, h₁, hs₁⟩ := bind_eq_ok.mp hs
      obtain ⟨rfl, rfl⟩ := pure_eq_ok.mp hs₁
      refine (hp _ _ _ (hI₂ rfl) h₁).imp ?_ hG.halting.query
      rintro ⟨x, m, -, hx⟩
      exact ⟨x, m, trivial, Phrase.oneOf_tail (Phrase.oneOf_tail (Phrase.oneOf_head
        (Phrase.seq_pure hx)))⟩
    | print =>
      have hp : Finds E I₂ I₂ (Parser.print inner) (Phrase.print G) :=
        andThen (expect hinv₂ (by decide)) fun _ =>
          bind (shorthandSource hinv₂ hG₂ htail) (fun _ => pure _) id fun _ => Idle.pure _
      obtain ⟨q, s₁, h₁, hs₁⟩ := bind_eq_ok.mp hs
      obtain ⟨rfl, rfl⟩ := pure_eq_ok.mp hs₁
      refine (hp _ _ _ (hI₂ rfl) h₁).imp ?_ hG.halting.query
      rintro ⟨x, m, -, hx⟩
      exact ⟨x, m, trivial, Phrase.oneOf_tail (Phrase.oneOf_tail (Phrase.oneOf_tail
        (Phrase.oneOf_head (Phrase.seq_pure hx))))⟩
    | _ => exact absurd hs none
  | _ =>
    rw [ht] at hs
    exact absurd hs none

end

end Finds

/-! ## Nesting -/

/-- Queries that may halt wherever they may, or never, while expressions never do. -/
theorem halting_of_mode {Q : List Lexeme → Prop} (hQ : Q = Never ∨ Q = Halted) : Halting Never Q where
  dangling := False.elim
  query := False.elim
  halted := by
    rcases hQ with rfl | rfl
    · exact False.elim
    · exact id

/-- The readers find what the grammar allows, level by level: with subselects anywhere, when they
never halt, and without subselects, when no `SELECT` is where an expression may begin. -/
theorem nested_sound {Q I : List Lexeme → Prop} {mode : Subselects} (limit : Nat)
    (hinv : Invariant I)
    (hmode : (mode = .anywhere ∧ Q = Never) ∨
      Q = Halted ∧ ∀ rest, I rest → (nextOf rest).is (.keyword .select) = false) :
    ∀ levels, Sound Never Q I (Parser.nested limit levels) (phrases mode levels)
  | 0 =>
    { halting := halting_of_mode (hmode.imp And.right And.left)
      expr := fun _ _ _ _ hs => absurd hs Parser.fail_ne_ok
      inversion := fun _ _ _ _ hs => absurd hs Parser.fail_ne_ok
      factor := fun _ _ _ _ hs => absurd hs Parser.fail_ne_ok
      select := fun _ _ _ _ hs => absurd hs Parser.fail_ne_ok
      bare := fun _ _ _ _ _ hs => absurd hs Parser.fail_ne_ok
      ne_nil := fun hu => absurd hu id
      key := fun _ _ hu => absurd hu id }
  | levels + 1 => by
    have hG := nested_sound limit hinv hmode levels
    refine
      { halting := hG.halting
        expr := Finds.disjunction hinv hG
        inversion := Finds.inversion hinv hG
        factor := Finds.factor hinv hG
        select := Finds.select hinv hG
        bare := fun s q s' hI hsel hs => ?_
        ne_nil := fun hu => (phrases_expr_opens hu).ne_nil
        key := fun {s s' u e} _ _ hu hkey => ?_ }
    · rcases hmode with ⟨rfl, rfl⟩ | ⟨-, hmode⟩
      · have hJ : ∀ l rest, s.rest = l :: rest → l.token.is (.keyword .select) = true → I rest :=
          fun l rest hr hl => hinv.tail (hr ▸ hI) (is_eq_false_of_is hl (by decide))
        obtain ⟨u, m, J, hu⟩ := (Finds.select hinv hG).exact hJ hs
        exact .inl ⟨u, m, J, by simpa [phrases] using hu⟩
      · exact absurd (hsel.symm.trans (hmode _ hI)) (by simp)
    · replace hu : Phrase.disjunction (phrases mode levels) u e := hu
      by_cases hm : mode = .anywhere
      · exact .inl (by simpa only [phrases, if_pos hm] using hu)
      · simp only [phrases, if_neg hm]
        rcases hmode with ⟨hm', -⟩ | ⟨rfl, -⟩
        · exact absurd hm' hm
        · exact (em (IsInteger u)).symm.imp (fun hint => ⟨hu, hint⟩) hkey

/-! ## Whole texts -/

/-- A list of lexemes that is parsed is a statement and nothing else. -/
theorem parseLexemes_eq_ok {lexemes : List Lexeme} {limit : Nat} {a : Statement} {span : Span}
    (h : parseLexemes lexemes limit = .ok (a, span)) :
    ∃ s', Parser.statement (Parser.nested limit limit) (Input.start lexemes) = .ok (a, s') ∧
      nextOf s'.rest = .eof := by
  obtain ⟨⟨_, s⟩, hw, ⟨⟩⟩ : ∃ r, Parser.wholeText (Parser.nested limit limit) (Input.start lexemes) =
      .ok r ∧ r.1 = (a, span) := by
    unfold parseLexemes at h
    cases hw : Parser.wholeText (Parser.nested limit limit) (Input.start lexemes) with
    | error stop => simp [hw, Except.map] at h
    | ok r => exact ⟨r, rfl, by simpa [hw, Except.map] using h⟩
  unfold Parser.wholeText at hw
  obtain ⟨start, s₀, h₀, hs₀⟩ := Parser.bind_eq_ok.mp hw
  obtain ⟨-, rfl⟩ : _ ∧ Input.start lexemes = s₀ := by simpa [Parser.nextSpan] using h₀
  obtain ⟨b, s₁, h₁, hs₁⟩ := Parser.bind_eq_ok.mp hs₀
  obtain ⟨stop, s₂, h₂, hs₂⟩ := Parser.bind_eq_ok.mp hs₁
  obtain ⟨-, rfl⟩ : _ ∧ s₁ = s₂ := by simpa [Parser.lastSpan] using h₂
  obtain ⟨_, s₃, h₃, hs₃⟩ := Parser.bind_eq_ok.mp hs₂
  obtain ⟨hb, rfl⟩ := Parser.pure_eq_ok.mp hs₃
  obtain rfl : b = a := congrArg Prod.fst hb
  refine ⟨s₁, h₁, ?_⟩
  unfold Parser.endOfInput at h₃
  rw [Parser.peek_bind] at h₃
  cases ht : nextOf s₁.rest with
  | eof => rfl
  | _ =>
    rw [ht] at h₃
    exact absurd h₃ Parser.missing_ne_ok

theorem Parser.endOfInput_hit {s : Input} (h : nextOf s.rest = .eof) : Parser.endOfInput s = .ok ((), s) := by
  unfold Parser.endOfInput
  rw [Parser.peek_bind, h]
  rfl

/-- A statement and nothing else is what a list of lexemes is parsed as. -/
theorem parseLexemes_of_statement_ok {lexemes : List Lexeme} {limit : Nat} {a : Statement} {s : Input}
    (h : Parser.statement (Parser.nested limit limit) (Input.start lexemes) = .ok (a, s)) (hend : nextOf s.rest = .eof) :
    ∃ span, parseLexemes lexemes limit = .ok (a, span) := by
  have hwhole : Parser.wholeText (Parser.nested limit limit) (Input.start lexemes) = .ok (_, s) :=
    Parser.bind_eq_ok.mpr ⟨_, _, rfl, Parser.bind_eq_ok.mpr ⟨_, s, h, Parser.bind_eq_ok.mpr ⟨_, s, rfl,
      Parser.bind_eq_ok.mpr ⟨(), s, Parser.endOfInput_hit hend, rfl⟩⟩⟩⟩
  exact ⟨_, congrArg (Except.map Prod.fst) hwhole⟩

/-- A list of lexemes that is parsed is a statement of a grammar that the readers find. -/
theorem statement_of_sound {E Q I I₂ : List Lexeme → Prop} {lexemes : List Lexeme} {limit : Nat} {G : Phrases}
    {a : Statement} {span : Span} (hG : Sound E Q I (Parser.nested limit limit) G) (hinv₂ : Invariant I₂)
    (hG₂ : Sound E Q I₂ (Parser.nested limit limit) G) (htail : ∀ l rest, I₂ (l :: rest) → I₂ rest)
    (hI₂ : (nextOf lexemes).is (.keyword .select) = false → I₂ lexemes)
    (hI : ∀ l rest, lexemes = l :: rest → l.token.is (.keyword .select) = true → I rest)
    (heof : ∀ l ∈ lexemes, l.token ≠ .eof)
    (hs : parseLexemes lexemes limit = .ok (a, span)) : Phrase.statement G lexemes a := by
  obtain ⟨s', hs', hend⟩ := parseLexemes_eq_ok hs
  rcases Finds.statement hG hinv₂ hG₂ htail _ a s' ⟨hI₂, hI⟩ hs' with ⟨u, m, -, hu⟩ | hhalt
  · have hrest : s'.rest = [] := by
      cases hr : s'.rest with
      | nil => rfl
      | cons l rest =>
        have hl : l ∈ lexemes := by
          rw [show lexemes = u ++ s'.rest from m.rest, hr]
          simp
        exact absurd (by simpa [hr] using hend) (heof l hl)
    rwa [show lexemes = u by simpa [hrest, Input.start] using m.rest]
  · have hhalted := hG.halting.halted hhalt
    rw [Halted, hend] at hhalted
    exact absurd hhalted (by decide)

/-- What is parsed is a statement of the grammar, if the conditions on the lexemes hold that the
readers need. -/
theorem statement_of_parseLexemes {Q I I₂ : List Lexeme → Prop} {mode : Subselects}
    {lexemes : List Lexeme} {limit : Nat} {a : Statement} {span : Span}
    (hinv : Invariant I) (hinv₂ : Invariant I₂) (htail : ∀ l rest, I₂ (l :: rest) → I₂ rest)
    (hmode : (mode = .anywhere ∧ Q = Never) ∨
      Q = Halted ∧ ∀ rest, I rest ∨ I₂ rest → (nextOf rest).is (.keyword .select) = false)
    (hI₂ : (nextOf lexemes).is (.keyword .select) = false → I₂ lexemes)
    (hI : ∀ l rest, lexemes = l :: rest → l.token.is (.keyword .select) = true → I rest)
    (heof : ∀ l ∈ lexemes, l.token ≠ .eof)
    (hs : parseLexemes lexemes limit = .ok (a, span)) :
    Phrase.statement (phrases mode limit) lexemes a := by
  exact statement_of_sound
    (nested_sound limit hinv (hmode.imp_right fun ⟨hQ, hm⟩ => ⟨hQ, fun rest hr => hm rest (.inl hr)⟩) limit)
    hinv₂
    (nested_sound limit hinv₂ (hmode.imp_right fun ⟨hQ, hm⟩ => ⟨hQ, fun rest hr => hm rest (.inr hr)⟩) limit)
    htail hI₂ hI heof hs

end LedgerQuery
