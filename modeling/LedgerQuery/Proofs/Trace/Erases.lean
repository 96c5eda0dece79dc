import LedgerQuery.Parse
import LedgerQuery.Proofs.Reading.Tidy
import LedgerQuery.Proofs.Trace.Sound

/-!
# Without the record

A recording without its record is a plain input (`Recording.Plain`): the lexemes from the cursor on, the items
tried there, and the last lexeme read.  A traced reader erases to a plain one if from such a recording and
such an input they find the same, and end in such a pair again, or else stop with the same fault at the same
place (`Traced.Erases`).  Each way that readers are built has its rule.

Only the span of what comes next is not the same at the end of the text, where a plain reader has the last
lexeme read and not the end of input.  It makes no difference before a reader that needs a lexeme.
-/

namespace LedgerQuery

/-- Whether a plain input is what a recording is without its record, with so many levels left. -/
structure Recording.Plain (sheet : Sheet) (levels : Nat) (r : Recording) (s : Input) : Prop where
  /-- The lexemes from the cursor on remain. -/
  rest : s.rest = sheet.lexemes.drop r.cursor.pos
  /-- The same items were tried. -/
  tried : ∀ e, e ∈ s.tried ↔ e ∈ r.cursor.triedHere
  /-- None was tried further on. -/
  furthest : r.cursor.furthest ≤ r.cursor.pos
  /-- The depth and the levels left are the limit. -/
  depth : r.cursor.depth + levels = sheet.limit
  /-- The last lexeme is the same. -/
  last : s.last = sheet.spanAt (r.cursor.pos - 1)

/-- The span of the first of some lexemes that end a text. -/
def Sheet.spanOf (sheet : Sheet) (rest : List Lexeme) : Span := (rest.head?.map Lexeme.span).getD sheet.stop

theorem Sheet.spanOf_drop (sheet : Sheet) (n : Nat) : sheet.spanOf (sheet.lexemes.drop n) = sheet.spanAt n := by
  unfold spanOf spanAt lexemeAt
  rw [List.head?_drop]
  cases sheet.lexemes[n]? <;> rfl

namespace Recording.Plain

variable {sheet : Sheet} {levels : Nat} {r : Recording} {s : Input}

/-- The record makes no difference. -/
theorem of_cursor_eq {t : Recording} (h : r.Plain sheet levels s) (ht : t.cursor = r.cursor) :
    t.Plain sheet levels s := by
  constructor
  all_goals rw [ht]
  exacts [h.rest, h.tried, h.furthest, h.depth, h.last]

theorem nth (h : r.Plain sheet levels s) (n : Nat) : s.nth n = sheet.tokenAt (r.cursor.pos + n) := by
  rw [Input.nth, h.rest, List.getElem?_drop, Sheet.tokenAt, Sheet.lexemeAt]
  cases sheet.lexemes[r.cursor.pos + n]? <;> rfl

theorem next (h : r.Plain sheet levels s) : s.next = sheet.tokenAt r.cursor.pos := h.nth 0

theorem spanOf (h : r.Plain sheet levels s) : sheet.spanOf s.rest = sheet.spanAt r.cursor.pos := by
  rw [h.rest, sheet.spanOf_drop]

/-- There is the end of input exactly where no lexeme remains. -/
theorem rest_eq_nil (h : r.Plain sheet levels s) (heof : sheet.tokenAt r.cursor.pos = .eof) : s.rest = [] := by
  rw [h.rest, List.drop_eq_nil_iff]
  by_contra hlt
  have hlt := Nat.lt_of_not_le hlt
  rw [Sheet.tokenAt, Sheet.lexemeAt, List.getElem?_eq_getElem hlt] at heof
  exact sheet.ne_eof _ (List.getElem_mem hlt) heof

/-- A plain reader reads what the traced one reads. -/
theorem advance (h : r.Plain sheet levels s) : ∃ t, Parser.advance s = .ok ((), t) ∧
    (r.move .read (r.cursor.advance sheet)).Plain sheet levels t := by
  by_cases heof : sheet.tokenAt r.cursor.pos = .eof
  · have hnil := h.rest_eq_nil heof
    refine ⟨s, by rw [Parser.advance, hnil], ?_⟩
    exact h.of_cursor_eq (if_pos heof)
  · have hlt := Sheet.lt_of_tokenAt_ne_eof heof
    have hrest := h.rest
    rw [List.drop_eq_getElem_cons hlt] at hrest
    refine ⟨_, Parser.advance_hit hrest, ?_⟩
    rw [Cursor.advance, if_neg heof]
    constructor
    case rest => rfl
    case tried =>
      have hne : r.cursor.furthest ≠ r.cursor.pos + 1 := Nat.ne_of_lt (Nat.lt_succ_of_le h.furthest)
      simp [Cursor.triedHere, Recording.move, hne]
    case furthest => exact Nat.le_succ_of_le h.furthest
    case depth => exact h.depth
    case last =>
      show _ = sheet.spanAt (r.cursor.pos + 1 - 1)
      rw [Nat.add_sub_cancel, Sheet.spanAt, Sheet.lexemeAt, List.getElem?_eq_getElem hlt]
      rfl

theorem record (h : r.Plain sheet levels s) (e : Expected) :
    (r.move (.record e) (r.cursor.record e)).Plain sheet levels { s with tried := e :: s.tried } := by
  rw [Cursor.record_eq h.furthest]
  constructor
  case rest => exact h.rest
  case tried =>
    intro e'
    simp [Cursor.triedHere, Recording.move, h.tried]
  case furthest => exact Nat.le_refl _
  case depth => exact h.depth
  case last => exact h.last

theorem enter (h : r.Plain sheet (levels + 1) s) : (r.move .enter r.cursor.enter).Plain sheet levels s where
  rest := h.rest
  tried := h.tried
  furthest := h.furthest
  depth := by
    show r.cursor.depth + 1 + levels = sheet.limit
    have := h.depth
    omega
  last := h.last

theorem leave (h : r.Plain sheet levels s) (hpos : 0 < r.cursor.depth) :
    (r.move .leave r.cursor.leave).Plain sheet (levels + 1) s where
  rest := h.rest
  tried := h.tried
  furthest := h.furthest
  depth := by
    show r.cursor.depth - 1 + (levels + 1) = sheet.limit
    have := h.depth
    omega
  last := h.last

end Recording.Plain

theorem Expected.collect_congr {items items' : List Expected} (h : ∀ e, e ∈ items ↔ e ∈ items') :
    collect items = collect items' := by
  refine List.filter_congr fun e _ => ?_
  simp [h]

namespace Parser

variable {α : Type} {q : Parser α}

/-- An item and whether a comma follows it, which is read as well. -/
def withComma (q : Parser α) : Parser (α × Bool) := do
  let a ← q
  return (a, ← accept (.symbol .comma))

/-- A list with commas is an item alone, or an item, a comma and a list again. -/
theorem commaList_eq (hq : Tidy q) : commaList q = withComma q >>= fun
    | (a, false) => Pure.pure [a]
    | (a, true) => commaList q >>= fun as => Pure.pure (a :: as) := by
  unfold withComma
  rw [bind_assoc]
  refine congrArg (q >>= ·) (funext fun a => ?_)
  rw [many_eq hq.after_moves]
  show ((accept (.symbol .comma) >>= fun b => if b then some <$> q else Pure.pure none) >>= _) >>= _ = _
  rw [bind_assoc, bind_assoc, bind_assoc]
  refine congrArg (accept (.symbol .comma) >>= ·) (funext fun b => ?_)
  cases b with
  | false => rfl
  | true => simp [commaList]

/-- What has a comma after it is shorter. -/
theorem withComma_length (hq : Tidy q) {a : α} {s t : Input} (h : withComma q s = .ok ((a, true), t)) :
    t.rest.length < s.rest.length := by
  obtain ⟨a', s', ha, h⟩ := bind_eq_ok.mp h
  obtain ⟨b, t', hb, h⟩ := bind_eq_ok.mp h
  obtain ⟨hx, rfl⟩ := pure_eq_ok.mp h
  obtain rfl : b = true := congrArg Prod.snd hx
  obtain ⟨-, l, rest, hrest, -, rfl⟩ | ⟨⟨⟩, -⟩ := accept_eq_ok hb
  have hle := hq.length_le_of_ok ha
  rw [hrest] at hle
  exact hle

end Parser

namespace Traced

variable {α β : Type}

/-- Whether a traced outcome is a plain one with a record. -/
inductive SameEnd (sheet : Sheet) (levels : Nat) :
    EStateM.Result Halt Recording α → Except Stop (α × Input) → Prop
  /-- Both found the same. -/
  | ok {a r s} (h : r.Plain sheet levels s) : SameEnd sheet levels (.ok a r) (.ok (a, s))
  /-- Both stopped with the same fault at the same place. -/
  | error {fault span r rest} (h : span = sheet.spanOf rest) :
    SameEnd sheet levels (.error ⟨fault, span⟩ r) (.error ⟨fault, rest⟩)

/-- A traced reader and another one, beside plain ones. -/
theorem SameEnd.bind {sheet : Sheet} {levels : Nat} {p : Traced α} {q : Parser α} {f : α → Traced β} {g : α → Parser β}
    {r : Recording} {s : Input} (h : SameEnd sheet levels (p sheet r) (q s))
    (hf : ∀ a t u, q s = .ok (a, u) → t.Plain sheet levels u → SameEnd sheet levels (f a sheet t) (g a u)) :
    SameEnd sheet levels ((p >>= f) sheet r) ((q >>= g) s) := by
  show SameEnd sheet levels _ (q s >>= fun x => g x.1 x.2)
  rw [Traced.bind_apply]
  generalize p sheet r = x at h ⊢
  generalize q s = y at h hf ⊢
  cases h with
  | ok ht => exact hf _ _ _ rfl ht
  | error h => exact .error h

/-- Whether a traced reader erases to a plain one. -/
def Erases (sheet : Sheet) (levels : Nat) (W : Place) (p : Traced α) (q : Parser α) : Prop :=
  ∀ r s, r.Plain sheet levels s → W sheet r.cursor.pos → SameEnd sheet levels (p sheet r) (q s)

section
variable {sheet : Sheet} {levels : Nat} {W V : Place} {p : Traced α} {q : Parser α} {f : α → Traced β}
  {g : α → Parser β}

namespace Erases

theorem weaken (h : Erases sheet levels V p q) (hW : ∀ sheet n, W sheet n → V sheet n) :
    Erases sheet levels W p q := fun r s hr hw => h r s hr (hW _ _ hw)

/-! ### Sequences -/

theorem bind (hp : Erases sheet levels W p q) (hf : ∀ a, Erases sheet levels .anywhere (f a) (g a)) :
    Erases sheet levels W (p >>= f) (q >>= g) := fun r s hr hw =>
  (hp r s hr hw).bind fun a _ _ _ ht => hf a _ _ ht trivial

theorem pure (a : α) : Erases sheet levels W (Pure.pure a) (Pure.pure a) := fun _ _ hr _ => .ok hr

theorem map (h : α → β) (hp : Erases sheet levels W p q) : Erases sheet levels W (h <$> p) (h <$> q) :=
  bind (f := fun a => Pure.pure (h a)) hp fun a => pure (h a)

/-! ### Looking and moving -/

/-- Readers that only look. -/
theorem looking {V : α → Place} (hp : ∀ r s, r.Plain sheet levels s →
    ∃ a, p sheet r = .ok a r ∧ q s = .ok (a, s) ∧ V a sheet r.cursor.pos)
    (hf : ∀ a, Erases sheet levels (V a) (f a) (g a)) : Erases sheet levels W (p >>= f) (q >>= g) := by
  intro r s hr _
  obtain ⟨a, hp, hq, hv⟩ := hp r s hr
  rw [Traced.bind_apply, hp, Parser.bind_of_ok hq]
  exact hf a r s hr hv

theorem peekNth {d : Nat} {f : Token → Traced β} {g : Token → Parser β}
    (hf : ∀ t, Erases sheet levels (W.sees d t) (f t) (g t)) :
    Erases sheet levels W (Traced.peekNth d >>= f) (Parser.peekNth d >>= g) := by
  intro r s hr hw
  show SameEnd sheet levels _ (g (s.nth d) s)
  rw [hr.nth d]
  exact hf _ r s hr ⟨hw, rfl⟩

theorem peek {f : Token → Traced β} {g : Token → Parser β}
    (hf : ∀ t, Erases sheet levels (W.sees 0 t) (f t) (g t)) :
    Erases sheet levels W (Traced.peek >>= f) (Parser.peek >>= g) := peekNth hf

theorem advance : Erases sheet levels W Traced.advance Parser.advance := by
  intro r s hr _
  obtain ⟨t, ht, hplain⟩ := hr.advance
  rw [ht]
  exact .ok hplain

theorem record (e : Expected) : Erases sheet levels W (Traced.record e) (Parser.record e) :=
  fun _ _ hr _ => .ok (hr.record e)

/-- The span of what comes next, before readers for which it makes no difference at the end of the text. -/
theorem nextSpan {f : Span → Traced β} {g : Span → Parser β}
    (hf : ∀ span, Erases sheet levels W (f span) (g span))
    (hend : ∀ s span span', s.rest = [] → g span s = g span' s) :
    Erases sheet levels W (Traced.nextSpan >>= f) (Parser.nextSpan >>= g) := by
  intro r s hr hw
  have hspan := hf (sheet.spanAt r.cursor.pos) r s hr hw
  show SameEnd sheet levels (f (sheet.spanAt r.cursor.pos) sheet r) (g ((s.rest.head?.map Lexeme.span).getD s.last) s)
  by_cases hnil : s.rest = []
  · rwa [hend s _ (sheet.spanAt r.cursor.pos) hnil]
  · obtain ⟨l, rest, hrest⟩ := List.exists_cons_of_ne_nil hnil
    rw [← hr.spanOf, Sheet.spanOf, hrest] at hspan ⊢
    exact hspan

theorem lastSpan : Erases sheet levels W Traced.lastSpan Parser.lastSpan := by
  intro r s hr _
  show SameEnd sheet levels (.ok _ r) (.ok (s.last, s))
  rw [hr.last]
  exact .ok hr

/-! ### Failing -/

theorem fail (fault : Fault) : Erases sheet levels W (Traced.fail fault : Traced α) (Parser.fail fault) :=
  fun _ _ hr _ => .error hr.spanOf.symm

theorem unexpected : Erases sheet levels W (Traced.unexpected : Traced α) Parser.unexpected := by
  intro r s hr _
  unfold Parser.unexpected
  rw [Expected.collect_congr hr.tried, hr.next]
  exact .error hr.spanOf.symm

theorem missing (e : Expected) : Erases sheet levels W (Traced.missing e : Traced α) (Parser.missing e) :=
  (record e).bind fun _ => unexpected

theorem take (v : Except Fault α) : Erases sheet levels W (Traced.take v) (Parser.take v) := by
  cases v with
  | ok a => exact advance.bind fun _ => pure a
  | error fault => exact fail fault

/-- A value that is refused is refused at its token, although it was read. -/
theorem takeAfter (v : Except Fault α) : Erases sheet levels W (Traced.takeAfter v) (Parser.take v) := by
  intro r s hr _
  cases v with
  | ok a => exact (advance (W := .anywhere)).bind (fun _ => pure a) r s hr trivial
  | error fault => exact .error hr.spanOf.symm

/-! ### Terminals -/

theorem acceptQuietly (x : Terminal) :
    Erases sheet levels W (Traced.acceptQuietly x) (Parser.acceptQuietly x) := by
  refine peek fun t => ?_
  split
  · exact advance.bind fun _ => pure _
  · exact pure _

/-- Readers that go on in the same two ways. -/
theorem ite {found : Traced Bool} {found' : Parser Bool} {p' : Traced α} {q' : Parser α}
    (hb : Erases sheet levels W found found') (hp : Erases sheet levels .anywhere p q)
    (hp' : Erases sheet levels .anywhere p' q') :
    Erases sheet levels W (found >>= fun b => if b then p else p') (found' >>= fun b => if b then q else q') :=
  hb.bind fun b => by
    cases b with
    | true => exact hp
    | false => exact hp'

theorem accept (x : Terminal) : Erases sheet levels W (Traced.accept x) (Parser.accept x) :=
  (acceptQuietly x).ite (pure _) ((record _).bind fun _ => pure _)

theorem expect (x : Terminal) : Erases sheet levels W (Traced.expect x) (Parser.expect x) :=
  (accept x).ite (pure _) unexpected

theorem after (x : Terminal) (hp : Erases sheet levels .anywhere p q) :
    Erases sheet levels W (Traced.after x p) (Parser.after x q) := (accept x).ite (hp.map some) (pure _)

theorem afterQuietly (x : Terminal) (hp : Erases sheet levels .anywhere p q) :
    Erases sheet levels W (Traced.afterQuietly x p) (Parser.afterQuietly x q) :=
  (acceptQuietly x).ite (hp.map some) (pure _)

/-- It makes no difference whether a terminal is tried before another one, or looked for and counted as tried
after it. -/
theorem swap {γ : Type} {x y : Terminal} {o : Traced (Option γ)} {c : Parser γ} {F : Option γ → Traced α}
    {G : Option γ → Parser α} {p' : Traced α} {q' : Parser α}
    (ho : Erases sheet levels .anywhere o (Parser.after x c)) (hF : ∀ a, Erases sheet levels .anywhere (F a) (G a))
    (hp : Erases sheet levels .anywhere p q) (hp' : Erases sheet levels .anywhere p' q') :
    Erases sheet levels W
      (Traced.peek >>= fun t => if t.is x then o >>= F else Traced.accept y >>= fun b =>
        if b then p else Traced.record (.terminal x) >>= fun _ => p')
      (Parser.accept x >>= fun b => if b then c >>= fun a => G (some a) else Parser.accept y >>= fun b =>
        if b then q else q') := by
  intro r s hr _
  have hnext : nextOf s.rest = sheet.tokenAt r.cursor.pos := (Parser.next_eq_nextOf s).symm.trans hr.next
  show SameEnd sheet levels ((if (sheet.tokenAt r.cursor.pos).is x = true then o >>= F else _) sheet r) _
  cases hx : (sheet.tokenAt r.cursor.pos).is x with
  | true =>
    obtain ⟨l, rest, hrest, hl⟩ := Parser.exists_cons_of_is (hnext ▸ hx)
    have hafter : Parser.after x c s = (some <$> c) ⟨rest, [], l.span⟩ :=
      Parser.bind_of_ok (Parser.accept_hit hrest hl)
    have hrun := ho.bind hF r s hr trivial
    rw [Parser.bind_congr hafter, bind_map_left] at hrun
    rw [Parser.bind_of_ok (Parser.accept_hit hrest hl)]
    exact hrun
  | false =>
    rw [if_neg (by simp), Parser.bind_of_ok (Parser.accept_miss (hnext ▸ hx)), if_neg (by simp), Traced.bind_apply]
    cases hy : (sheet.tokenAt r.cursor.pos).is y with
    | true =>
      obtain ⟨l, rest, hrest, hl⟩ := Parser.exists_cons_of_is (hnext ▸ hy)
      obtain ⟨t, ht, hplain⟩ := hr.advance
      obtain rfl : t = ⟨rest, [], l.span⟩ := by
        rw [Parser.advance_hit hrest] at ht
        exact (congrArg Prod.snd (Except.ok.inj ht)).symm
      have hhit := Parser.accept_hit (s := { s with tried := .terminal x :: s.tried }) hrest hl
      rw [Traced.accept_hit hy, Parser.bind_of_ok hhit]
      exact hp _ _ hplain trivial
    | false =>
      have hmiss := Parser.accept_miss (s := { s with tried := .terminal x :: s.tried }) (hnext ▸ hy)
      rw [Traced.accept_miss hy, Parser.bind_of_ok hmiss]
      have hboth := (hr.record (.terminal y)).record (.terminal x)
      refine hp' _ _ ⟨hboth.rest, fun e => ?_, hboth.furthest, hboth.depth, hboth.last⟩ trivial
      rw [← hboth.tried]
      simp only [List.mem_cons]
      exact or_left_comm

/-! ### Calls and levels -/

/-- An event makes no difference. -/
theorem noting {act : Option α → Option Act} (hp : Erases sheet levels W p q) :
    Erases sheet levels W (Traced.noting act p) q := by
  intro r s hr hw
  have hp := hp r s hr hw
  unfold Traced.noting
  generalize p sheet r = x at hp ⊢
  generalize q s = y at hp ⊢
  cases hp with
  | @ok a t s h =>
    dsimp only
    cases act (some a) with
    | none => exact .ok h
    | some x => exact .ok (h.of_cursor_eq rfl)
  | error h => exact .error h

theorem call {routine : Routine} (hp : Erases sheet levels W p q) :
    Erases sheet levels W (Traced.call routine p) q := hp.noting

theorem callOption {routine : Routine} {p : Traced (Option α)} {q : Parser (Option α)}
    (hp : Erases sheet levels W p q) : Erases sheet levels W (Traced.callOption routine p) q := hp.noting

/-- With no level left, the limit is reached. -/
theorem deeper_zero (p : Traced α) :
    Erases sheet 0 W (Traced.deeper p) (Parser.fail (.tooDeep sheet.limit)) := by
  intro r s hr hw
  have hlimit : sheet.limit ≤ r.cursor.depth := Nat.le_of_eq hr.depth.symm
  rw [Traced.deeper, if_pos hlimit]
  exact fail _ r s hr hw

theorem deeper (hp : Erases sheet levels W p q) : Erases sheet (levels + 1) W (Traced.deeper p) q := by
  intro r s hr hw
  have hdepth := hr.depth
  have hlimit : ¬ sheet.limit ≤ r.cursor.depth := by omega
  rw [Traced.deeper, if_neg hlimit]
  have hp := hp _ s hr.enter hw
  generalize p sheet _ = x at hp ⊢
  generalize q s = y at hp ⊢
  cases hp with
  | ok h =>
    have := h.depth
    exact .ok (h.leave (by omega))
  | error h => exact .error h

/-! ### Repetition -/

theorem repeatUpTo {loop : Loop} {p : Traced (Option α)} {q : Parser (Option α)}
    (hp : ∀ {W}, Erases sheet levels W p q) (rounds : Nat) :
    Erases sheet levels W (Traced.repeatUpTo loop p rounds) (Parser.repeatUpTo q rounds) := by
  induction rounds generalizing W with
  | zero => exact fun r s hr _ => .ok (hr.of_cursor_eq rfl)
  | succ rounds ih =>
    refine hp.noting.bind fun o => ?_
    cases o with
    | none => exact pure _
    | some a => exact ih.bind fun _ => pure _

theorem many {loop : Loop} {p : Traced (Option α)} {q : Parser (Option α)}
    (hp : ∀ {W}, Erases sheet levels W p q) :
    Erases sheet levels W (Traced.many loop p) (Parser.many q) := by
  intro r s hr hw
  unfold Parser.many
  rw [hr.rest, List.length_drop]
  exact repeatUpTo hp _ r s hr hw

theorem commaList {loop : Loop} (hp : ∀ {W}, Erases sheet levels W p q) :
    Erases sheet levels W (Traced.commaList loop p) (Parser.commaList q) :=
  hp.bind fun _ => (many (after _ hp)).bind fun _ => pure _

/-- Items are read one by one, and with each of them the comma after it. -/
theorem separatedUpTo {loop : Loop} (hp : ∀ {W}, Erases sheet levels W p q) (hq : Tidy q) (rounds : Nat) :
    ∀ r s, r.Plain sheet levels s → s.rest.length < rounds →
      SameEnd sheet levels (Traced.separatedUpTo loop p rounds sheet r) (Parser.commaList q s) := by
  induction rounds with
  | zero => exact fun _ _ _ h => absurd h (Nat.not_lt_zero _)
  | succ rounds ih =>
    intro r s hr hlt
    have hround : SameEnd sheet levels (Traced.roundIfComma loop p sheet r) (Parser.withComma q s) :=
      (hp (W := .anywhere)).bind (fun _ => (accept _).bind fun _ => pure _) |>.noting r s hr trivial
    rw [Parser.commaList_eq hq]
    refine hround.bind fun x t u hs ht => ?_
    obtain ⟨a, _ | _⟩ := x
    · exact .ok ht
    · have hlength := Parser.withComma_length hq hs
      exact (ih t u ht (by omega)).bind fun as _ _ _ ht => .ok ht

theorem separated {loop : Loop} (hp : ∀ {W}, Erases sheet levels W p q) (hq : Tidy q) :
    Erases sheet levels W (Traced.separated loop p) (Parser.commaList q) := fun r s hr _ =>
  separatedUpTo hp hq _ r s hr (by rw [hr.rest, List.length_drop]; exact Nat.lt_succ_self _)

end Erases

end

end Traced

end LedgerQuery
