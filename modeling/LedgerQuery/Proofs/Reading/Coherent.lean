import LedgerQuery.Proofs.Reading.LookaheadExpr

/-!
# Faults that fit their place

A fault is about the token where reading stopped (`Fault.Fits`).  The items it lists are those tried at
this token, there is one at least, and the token is none of them.  A number or a date that is refused is
the token itself, a chained comparison begins at it, and before it the keys of a pivot end.

`Input.Settled` is the invariant: what was tried is not next.  `CoherentAt` says of a reader that it keeps
the invariant if it finds something, and that otherwise its fault fits the place.  A fault may be about what
was read before, so the tokens before the input are given as well.  Each way that readers are built has its
rule.
-/

namespace LedgerQuery

open Token LedgerQuery.Parser

/-! ## Faults and places -/

/-- Whether a token is the first one of an atom. -/
def Token.opensAtom : Token → Bool
  | placeholder _ => true
  | t => t.isName || t.isLiteral || t.is (.symbol .leftParen) || t.is (.keyword .select)

/-- Whether a token is of the kind of an item. -/
def Expected.matches : Expected → Token → Bool
  | terminal x, t => t.is x
  | expression, t => t.opensAtom
  | identifier, t => t.isName
  | integer, .integer _ => true
  | date, .date _ => true
  | string, .string _ => true
  | literal, t => t.isLiteral
  | table, .table _ => true
  | endOfInput, .eof => true
  | _, _ => false

/-- The place of an item in the order of items. -/
def Expected.index (e : Expected) : Nat := Expected.all.idxOf e

/-- Whether a token can be a key of a pivot. -/
def Token.isPivotKey : Token → Bool
  | integer _ => true
  | t => t.isName

/-- Whether some tokens end with a pivot after one or two keys. -/
inductive EndsWithPivotKey : List Token → Prop
  /-- After the first key. -/
  | first {before : List Token} {w v : String} {key : Token} (h : key.isPivotKey = true) :
    EndsWithPivotKey (before ++ [.keyword .pivot w, .keyword .by v, key])
  /-- After the second key. -/
  | second {before : List Token} {w v : String} {row key : Token} (hr : row.isPivotKey = true)
    (h : key.isPivotKey = true) :
    EndsWithPivotKey (before ++ [.keyword .pivot w, .keyword .by v, row, .symbol .comma, key])

/-- Whether a fault fits a place of a text, given by the tokens before it and the lexemes from it on. -/
inductive Fault.Fits (limit : Nat) (before : List Token) (rest : List Lexeme) : Fault → Prop
  /-- The next token is none of the items listed, which are in order and at least one. -/
  | unexpected {expected : List Expected} (hne : expected ≠ [])
    (hasc : expected.Pairwise fun e f => e.index < f.index)
    (hnot : ∀ e ∈ expected, e.matches (nextOf rest) = false) :
    Fits limit before rest (.unexpected expected (nextOf rest).display)
  /-- A comparison is next. -/
  | chainedComparison (h : compares rest = true) : Fits limit before rest .chainedComparison
  /-- A key of a pivot is last. -/
  | pivotArity (h : EndsWithPivotKey before) : Fits limit before rest .pivotArity
  /-- This date is next. -/
  | invalidDate {text : String} (h : nextOf rest = .date text) : Fits limit before rest (.invalidDate text)
  /-- This number is next. -/
  | invalidNumber {text : String} (h : nextOf rest = .integer text ∨ nextOf rest = .decimal text) :
    Fits limit before rest (.invalidNumber text)
  /-- The limit is the one that was set. -/
  | tooDeep : Fits limit before rest (.tooDeep limit)

/-- Whether nothing that was tried is next. -/
def Input.Settled (s : Input) : Prop := ∀ e ∈ s.tried, e.matches (nextOf s.rest) = false

/-- An input stays settled if an item that is not next is remembered. -/
theorem Input.Settled.record {s : Input} {e : Expected} (hs : s.Settled) (he : e.matches (nextOf s.rest) = false) :
    Input.Settled { s with tried := e :: s.tried } := List.forall_mem_cons.mpr ⟨he, hs⟩

/-- Items in order are strictly in order. -/
theorem Expected.collect_pairwise (items : List Expected) :
    (collect items).Pairwise fun e f => e.index < f.index := by
  have hall : all.Pairwise fun e f => e.index < f.index := by
    rw [List.pairwise_iff_getElem]
    intro i j hi hj hij
    have hnodup : all.Nodup := by decide
    rwa [index, index, hnodup.idxOf_getElem i hi, hnodup.idxOf_getElem j hj]
  exact hall.sublist List.filter_sublist

theorem nextOf_append_eof {rest : List Lexeme} {span : Span} :
    nextOf (rest ++ [⟨.eof, span⟩]) = nextOf rest := by
  cases rest <;> rfl

/-- The end of input makes no difference to a fault. -/
theorem Fault.Fits.append_eof {limit : Nat} {before : List Token} {rest : List Lexeme} {f : Fault}
    (h : f.Fits limit before rest) (span : Span) : f.Fits limit before (rest ++ [⟨.eof, span⟩]) := by
  have hnext : nextOf (rest ++ [⟨.eof, span⟩]) = nextOf rest := nextOf_append_eof
  have hcompares : compares (rest ++ [⟨.eof, span⟩]) = compares rest := by
    have htail : nextOf (List.tail (rest ++ [⟨.eof, span⟩])) = nextOf rest.tail := by
      cases rest with
      | nil => rfl
      | cons l rest => exact nextOf_append_eof
    rw [compares, compares, hnext, htail]
  cases h with
  | unexpected hne hasc hnot => exact hnext ▸ .unexpected hne hasc (hnext ▸ hnot)
  | chainedComparison h => exact .chainedComparison (hcompares ▸ h)
  | pivotArity h => exact .pivotArity h
  | invalidDate h => exact .invalidDate (hnext ▸ h)
  | invalidNumber h => exact .invalidNumber (hnext ▸ h)
  | tooDeep => exact .tooDeep

/-! ## Coherent readers -/

variable {α β : Type}

/-- Whether a reader keeps an input settled, or stops with a fault that fits the place. -/
structure CoherentAt (limit : Nat) (before : List Token) (s : Input) (p : Parser α) : Prop where
  /-- What it finds was read from the front, and nothing that was tried is next. -/
  ok : ∀ a t, p s = .ok (a, t) → t.Settled ∧ ∃ u, s.rest = u ++ t.rest
  /-- It stops after some lexemes, with a fault that fits. -/
  error : ∀ stop, p s = .error stop →
    ∃ u, s.rest = u ++ stop.rest ∧ stop.fault.Fits limit (before ++ u.map Lexeme.token) stop.rest

/-- Whether a reader is coherent after any tokens at any settled input. -/
def Coherent (limit : Nat) (p : Parser α) : Prop :=
  ∀ before s, s.Settled → CoherentAt limit before s p

/-- Whether the readers one nesting level deeper are coherent. -/
structure Nested.Coherent (limit : Nat) (G : Nested) : Prop where
  /-- Expressions. -/
  expr : LedgerQuery.Coherent limit G.expr
  /-- Operands of `NOT`. -/
  inversion : LedgerQuery.Coherent limit G.inversion
  /-- Operands of signs. -/
  factor : LedgerQuery.Coherent limit G.factor
  /-- Queries. -/
  select : LedgerQuery.Coherent limit G.select

section
variable {limit : Nat} {before : List Token} {s : Input}

namespace CoherentAt

/-- A reader that reads nothing. -/
theorem of_stays {p : Parser α} {a : α} (h : p s = .ok (a, s)) (hs : s.Settled) :
    CoherentAt limit before s p := by
  constructor
  · intro b t hp
    obtain ⟨rfl, rfl⟩ := Prod.mk.inj (Except.ok.inj (h.symm.trans hp))
    exact ⟨hs, [], rfl⟩
  · intro stop hp
    cases h.symm.trans hp

/-- A reader that stops where it is. -/
theorem of_stops {p : Parser α} {f : Fault} (h : p s = .error ⟨f, s.rest⟩)
    (hf : f.Fits limit before s.rest) : CoherentAt limit before s p := by
  constructor
  · intro b t hp
    cases h.symm.trans hp
  · intro stop hp
    obtain rfl := Except.error.inj (h.symm.trans hp)
    exact ⟨[], rfl, by simpa using hf⟩

theorem bind {p : Parser α} {f : α → Parser β} (hp : CoherentAt limit before s p)
    (hf : ∀ a t u, p s = .ok (a, t) → t.Settled → s.rest = u ++ t.rest →
      CoherentAt limit (before ++ u.map Lexeme.token) t (f a)) :
    CoherentAt limit before s (p >>= f) := by
  have hbind : (p >>= f) s = p s >>= fun x => f x.1 x.2 := rfl
  cases hps : p s with
  | error stop =>
    have hstop : (p >>= f) s = .error stop := by rw [hbind, hps]; rfl
    constructor
    · intro b t h
      cases hstop.symm.trans h
    · intro stop' h
      obtain rfl := Except.error.inj (hstop.symm.trans h)
      exact hp.error stop hps
  | ok x =>
    obtain ⟨a, t⟩ := x
    have hrun : (p >>= f) s = f a t := by rw [hbind, hps]; rfl
    obtain ⟨ht, u, hu⟩ := hp.ok a t hps
    have hfa := hf a t u hps ht hu
    constructor
    · intro b t' h
      obtain ⟨ht', v, hv⟩ := hfa.ok b t' (hrun.symm.trans h)
      exact ⟨ht', u ++ v, by rw [hu, hv, List.append_assoc]⟩
    · intro stop h
      obtain ⟨v, hv, hfits⟩ := hfa.error stop (hrun.symm.trans h)
      exact ⟨u ++ v, by rw [hu, hv, List.append_assoc], by simpa using hfits⟩

theorem pure (a : α) (hs : s.Settled) : CoherentAt limit before s (Pure.pure a) := of_stays rfl hs

theorem peek_bind {f : Token → Parser α} (h : CoherentAt limit before s (f (nextOf s.rest))) :
    CoherentAt limit before s (peek >>= f) := by
  constructor
  · intro a t hp
    exact h.ok a t ((Parser.peek_bind f s).symm.trans hp)
  · intro stop hp
    exact h.error stop ((Parser.peek_bind f s).symm.trans hp)

/-- An item is remembered before a reader. -/
theorem record_bind {e : Expected} {p : Parser α} (h : CoherentAt limit before { s with tried := e :: s.tried } p) :
    CoherentAt limit before s (record e >>= fun _ => p) := ⟨h.ok, h.error⟩

/-- A reader stops at a token that is none of the items tried, if there are any. -/
theorem unexpected (hs : s.Settled) (hne : s.tried ≠ []) : CoherentAt limit before s (unexpected : Parser α) := by
  obtain ⟨e, he⟩ := List.exists_mem_of_ne_nil _ hne
  refine of_stops (f := .unexpected (Expected.collect s.tried) (nextOf s.rest).display) ?_
    (.unexpected ?_ (Expected.collect_pairwise _) fun e he => hs e (Expected.mem_collect.mp he))
  · rw [← next_eq_nextOf]
    rfl
  · exact List.ne_nil_of_mem (Expected.mem_collect.mpr he)

theorem missing {e : Expected} (hs : s.Settled) (he : e.matches (nextOf s.rest) = false) :
    CoherentAt limit before s (missing e : Parser α) :=
  record_bind (unexpected (hs.record he) (List.cons_ne_nil _ _))

/-- A reader stops at a token that is none of some keywords. -/
theorem keywords {ks : List Keyword} (hs : s.Settled) (hne : s.tried ≠ [] ∨ ks ≠ [])
    (hks : ∀ k ∈ ks, (Expected.terminal (.keyword k)).matches (nextOf s.rest) = false) :
    CoherentAt limit before s (do
      ks.forM fun k => record (.terminal (.keyword k))
      LedgerQuery.Parser.unexpected : Parser α) := by
  induction ks generalizing s with
  | nil => exact unexpected hs (hne.resolve_right (· rfl))
  | cons k ks ih =>
    obtain ⟨hk, hks⟩ := List.forall_mem_cons.mp hks
    exact record_bind (ih (hs.record hk) (.inl (List.cons_ne_nil _ _)) hks)

end CoherentAt

namespace Coherent

theorem bind {p : Parser α} {f : α → Parser β} (hp : Coherent limit p) (hf : ∀ a, Coherent limit (f a)) :
    Coherent limit (p >>= f) :=
  fun before s hs => (hp before s hs).bind fun a t _ _ ht _ => hf a _ t ht

theorem pure (a : α) : Coherent limit (Pure.pure a) := fun _ _ hs => .pure a hs

theorem map {p : Parser α} {f : α → β} (hp : Coherent limit p) : Coherent limit (f <$> p) :=
  bind hp fun a => pure (f a)

theorem peek : Coherent limit Parser.peek := fun _ _ hs => .of_stays rfl hs

theorem peekNth (n : Nat) : Coherent limit (Parser.peekNth n) := fun _ _ hs => .of_stays rfl hs

theorem nextSpan : Coherent limit Parser.nextSpan := fun _ _ hs => .of_stays rfl hs

theorem lastSpan : Coherent limit Parser.lastSpan := fun _ _ hs => .of_stays rfl hs

theorem advance : Coherent limit Parser.advance := by
  rintro before ⟨_ | ⟨l, rest⟩, tried, last⟩ hs
  · exact .of_stays rfl hs
  · constructor
    · rintro _ _ ⟨⟩
      exact ⟨List.forall_mem_nil _, [l], rfl⟩
    · rintro _ ⟨⟩

/-- A value is taken, or refused at the token it is of. -/
theorem take {r : Except Fault α} (hs : s.Settled) (hr : ∀ f, r = .error f → f.Fits limit before s.rest) :
    CoherentAt limit before s (Parser.take r) := by
  cases r with
  | ok a => exact bind advance (fun _ => pure a) before s hs
  | error f => exact .of_stops rfl (hr f rfl)

theorem take_ok (a : α) : Coherent limit (Parser.take (.ok a)) := fun _ _ hs => take hs nofun

/-! ## Terminals -/

theorem acceptQuietly (x : Terminal) : Coherent limit (Parser.acceptQuietly x) := by
  refine bind peek fun t => ?_
  split
  · exact bind advance fun _ => pure _
  · exact pure _

theorem accept (x : Terminal) : Coherent limit (Parser.accept x) := by
  intro before s hs
  refine (acceptQuietly x before s hs).bind fun b t u h ht _ => ?_
  rcases acceptQuietly_eq_ok h with ⟨rfl, -⟩ | ⟨rfl, hx, rfl⟩
  · exact .pure _ ht
  · exact .record_bind (.pure _ (ht.record hx))

theorem expect (x : Terminal) : Coherent limit (Parser.expect x) := by
  intro before s hs
  refine (accept x before s hs).bind fun b t u h ht _ => ?_
  cases b with
  | true => exact .pure _ ht
  | false =>
    refine .unexpected ht ?_
    -- a terminal that was missed is among the items tried
    obtain ⟨b, s₁, h₁, h₂⟩ := bind_eq_ok.mp h
    cases b with
    | true => cases (pure_eq_ok.mp h₂).1
    | false =>
      cases h₂
      exact List.cons_ne_nil _ _

theorem after (x : Terminal) {p : Parser α} (hp : Coherent limit p) : Coherent limit (Parser.after x p) := by
  refine bind (accept x) fun b => ?_
  split
  · exact map hp
  · exact pure _

theorem afterQuietly (x : Terminal) {p : Parser α} (hp : Coherent limit p) :
    Coherent limit (Parser.afterQuietly x p) := by
  refine bind (acceptQuietly x) fun b => ?_
  split
  · exact map hp
  · exact pure _

/-! ## Repetition -/

theorem repeatUpTo {p : Parser (Option α)} (hp : Coherent limit p) (rounds : Nat) :
    Coherent limit (Parser.repeatUpTo p rounds) := by
  induction rounds with
  | zero => exact pure _
  | succ rounds ih =>
    refine bind hp fun o => ?_
    cases o with
    | none => exact pure _
    | some a => exact bind ih fun _ => pure _

theorem many {p : Parser (Option α)} (hp : Coherent limit p) : Coherent limit (Parser.many p) :=
  fun before s hs =>
    have h := repeatUpTo hp (s.rest.length + 1) before s hs
    ⟨h.ok, h.error⟩

theorem commaList {p : Parser α} (hp : Coherent limit p) : Coherent limit (Parser.commaList p) :=
  bind hp fun _ => bind (many (after _ hp)) fun _ => pure _

end Coherent

end

end LedgerQuery
