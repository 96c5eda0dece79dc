import LedgerQuery.Proofs.Reading.LookaheadExpr
import LedgerQuery.Proofs.Trace.Basic

/-!
# Sound recordings

What is written down while reading is sound (`Recording.Sound`).  The cursor stays within the text and the
limit.  Every event fits the cursors before and after it (`Act.Fits`): a call ends on the level where it
began and has read something if it found something, and so has every round of a loop that another one
follows.  Nothing is cut off.  Reading never goes back, and the lexemes read are those from the first one to
the cursor, one after the other.

`Goes levels W R p` says of a reader that it keeps recordings sound, whether it finds something or stops, with
so many levels left.  With `W`, something is known of the index it starts at; with `R`, something is said of
the indices before and after, if it finds something.  Each way that readers are built has its rule.
-/

namespace LedgerQuery

/-! ## Events -/

/-- Whether a cursor is within the lexemes and the limit, and no item was tried further on. -/
structure Cursor.InRange (sheet : Sheet) (c : Cursor) : Prop where
  /-- The index is at most that of the end of input. -/
  pos : c.pos ≤ sheet.lexemes.length
  /-- The depth is at most the limit. -/
  depth : c.depth ≤ sheet.limit
  /-- No item was tried further on. -/
  furthest : c.furthest ≤ c.pos

/-- Whether an act fits the cursors before and after it. -/
inductive Act.Fits : Act → Cursor → Cursor → Prop
  /-- A lexeme that is read is one lexeme on. -/
  | read {c} : Fits .read c { c with pos := c.pos + 1 }
  /-- An item joins those that were tried at the same place, and no others. -/
  | record {e c} : Fits (.record e) c { c with furthest := c.pos, tried := e :: c.triedHere }
  /-- One level deeper nothing else is different. -/
  | enter {c} : Fits .enter c c.enter
  /-- One level up nothing else is different. -/
  | leave {c} (h : 0 < c.depth) : Fits .leave c c.leave
  /-- A call that finds something has read something, and is on the level where it began. -/
  | found {routine c c'} (hdepth : c'.depth = c.depth) (hpos : c.pos < c'.pos) :
    Fits (.call routine .found) c c'
  /-- A call that may find nothing has then read nothing, and is on the level where it began. -/
  | nothing {routine c c'} (h : routine.isOptional) (hdepth : c'.depth = c.depth) (hpos : c'.pos = c.pos) :
    Fits (.call routine .nothing) c c'
  /-- A call that fails is on the level where it began. -/
  | failed {routine c c'} (hdepth : c'.depth = c.depth) : Fits (.call routine .failed) c c'
  /-- A round that another one follows has read something. -/
  | round {loop c c'} (hdepth : c'.depth = c.depth) (hpos : c.pos < c'.pos) : Fits (.round loop) c c'

/-- Whether an event is within the bounds, does not go back, and is what it is said to be. -/
structure Event.Sound (sheet : Sheet) (e : Event) : Prop where
  /-- It begins within the bounds. -/
  before : e.before.InRange sheet
  /-- It ends within the bounds. -/
  after : e.after.InRange sheet
  /-- It does not end further back. -/
  forward : e.before.pos ≤ e.after.pos
  /-- The act fits. -/
  fits : e.act.Fits e.before e.after

/-- Whether events, the last one first, lead from the start to a cursor: each one moves the cursor or ends where
it is. -/
inductive Leads : List Event → Cursor → Prop
  /-- Nothing has happened at the start. -/
  | start : Leads [] .start
  /-- The cursor moves. -/
  | move {trace act c d} (h : Leads trace c) : Leads (⟨act, c, d⟩ :: trace) d
  /-- Something that began at an earlier cursor ends. -/
  | note {trace act b c} (h : Leads trace c) : Leads (⟨act, b, c⟩ :: trace) c

/-- Whether a recording is sound, with so many levels left to the limit. -/
structure Recording.Sound (sheet : Sheet) (levels : Nat) (r : Recording) : Prop where
  /-- The cursor is within the bounds. -/
  inRange : r.cursor.InRange sheet
  /-- The depth and the levels left are the limit. -/
  depth : r.cursor.depth + levels = sheet.limit
  /-- The cursor moves in events only. -/
  leads : Leads r.trace r.cursor
  /-- All events are sound. -/
  events : ∀ e ∈ r.trace, e.Sound sheet
  /-- No event ends further back than one before it. -/
  ordered : r.trace.Pairwise fun e f => f.after.pos ≤ e.after.pos
  /-- No event ends after the cursor. -/
  behind : ∀ e ∈ r.trace, e.after.pos ≤ r.cursor.pos
  /-- The lexemes before the cursor are read, one after the other. -/
  reads : r.reads = List.range r.cursor.pos

namespace Recording

variable {sheet : Sheet} {levels left : Nat} {r : Recording} {act : Act} {c d : Cursor}

theorem reads_cons (e : Event) (trace : List Event) :
    reads ⟨d, e :: trace⟩ = reads ⟨c, trace⟩ ++ if e.act = .read then [e.before.pos] else [] := by
  simp only [reads, events, List.reverse_cons, List.filter_append, List.map_append]
  split <;> simp_all

/-- Nothing has happened yet at the start. -/
theorem Sound.start (sheet : Sheet) : Recording.Sound sheet sheet.limit ⟨.start, []⟩ where
  inRange := ⟨Nat.zero_le _, Nat.zero_le _, Nat.le_refl _⟩
  depth := Nat.zero_add _
  leads := .start
  events := nofun
  ordered := .nil
  behind := nofun
  reads := rfl

/-- With the same levels left, two recordings are on the same level. -/
theorem Sound.depth_eq {t : Recording} (ht : t.Sound sheet levels) (h : r.Sound sheet levels) :
    t.cursor.depth = r.cursor.depth := Nat.add_right_cancel (ht.depth.trans h.depth.symm)

/-- An event more. -/
theorem Sound.push (h : r.Sound sheet levels) (hd : d.InRange sheet) (hdepth : d.depth + left = sheet.limit)
    (hleads : Leads (⟨act, c, d⟩ :: r.trace) d) (hle : r.cursor.pos ≤ d.pos)
    (he : Event.Sound sheet ⟨act, c, d⟩)
    (hreads : List.range d.pos = List.range r.cursor.pos ++ if act = .read then [c.pos] else []) :
    Recording.Sound sheet left ⟨d, ⟨act, c, d⟩ :: r.trace⟩ where
  inRange := hd
  depth := hdepth
  leads := hleads
  events := List.forall_mem_cons.mpr ⟨he, h.events⟩
  ordered := List.pairwise_cons.mpr ⟨fun e hmem => Nat.le_trans (h.behind e hmem) hle, h.ordered⟩
  behind := List.forall_mem_cons.mpr ⟨Nat.le_refl _, fun e hmem => Nat.le_trans (h.behind e hmem) hle⟩
  reads := by rw [reads_cons (c := r.cursor), h.reads, hreads]

/-- Something that ends where the cursor is. -/
theorem Sound.note (h : r.Sound sheet levels) (hc : c.InRange sheet) (hle : c.pos ≤ r.cursor.pos)
    (hfits : act.Fits c r.cursor) (hact : act ≠ .read) : (r.note act c).Sound sheet levels :=
  h.push h.inRange h.depth h.leads.note (Nat.le_refl _) ⟨hc, h.inRange, hle, hfits⟩ (by simp [hact])

/-- A move of the cursor that reads nothing. -/
theorem Sound.move (h : r.Sound sheet levels) (hpos : d.pos = r.cursor.pos) (hd : d.InRange sheet)
    (hdepth : d.depth + left = sheet.limit) (hfits : act.Fits r.cursor d) (hact : act ≠ .read) :
    (r.move act d).Sound sheet left :=
  have hle : r.cursor.pos ≤ d.pos := Nat.le_of_eq hpos.symm
  h.push hd hdepth h.leads.move hle ⟨h.inRange, hd, hle, hfits⟩ (by simp [hpos, hact])

theorem Sound.enter (h : r.Sound sheet (levels + 1)) : (r.move .enter r.cursor.enter).Sound sheet levels := by
  have hdepth : r.cursor.enter.depth + levels = sheet.limit := by
    show r.cursor.depth + 1 + levels = sheet.limit
    have := h.depth
    omega
  exact h.move rfl ⟨h.inRange.pos, by omega, h.inRange.furthest⟩ hdepth .enter (by simp)

theorem Sound.leave (h : r.Sound sheet levels) (hpos : 0 < r.cursor.depth) :
    (r.move .leave r.cursor.leave).Sound sheet (levels + 1) := by
  have hdepth : r.cursor.leave.depth + (levels + 1) = sheet.limit := by
    show r.cursor.depth - 1 + (levels + 1) = sheet.limit
    have := h.depth
    omega
  exact h.move rfl ⟨h.inRange.pos, by omega, h.inRange.furthest⟩ hdepth (.leave hpos) (by simp)

end Recording

/-- An item that is tried joins those tried at the same place, since none was tried further on. -/
theorem Cursor.record_eq {c : Cursor} (h : c.furthest ≤ c.pos) (e : Expected) :
    c.record e = { c with furthest := c.pos, tried := e :: c.triedHere } := by
  rcases Nat.lt_or_eq_of_le h with hlt | heq
  · simp [record, triedHere, Nat.compare_eq_gt.mpr hlt, Nat.ne_of_lt hlt]
  · obtain ⟨pos, depth, furthest, tried⟩ := c
    obtain rfl : furthest = pos := heq
    simp [record, triedHere]

theorem Recording.Sound.record {sheet : Sheet} {levels : Nat} {r : Recording} (h : r.Sound sheet levels)
    (e : Expected) : (r.move (.record e) (r.cursor.record e)).Sound sheet levels := by
  rw [Cursor.record_eq h.inRange.furthest]
  exact h.move rfl ⟨h.inRange.pos, h.inRange.depth, Nat.le_refl _⟩ h.depth .record (by simp)

/-- A lexeme is at every index at which there is no end of input. -/
theorem Sheet.lt_of_tokenAt_ne_eof {sheet : Sheet} {n : Nat} (h : sheet.tokenAt n ≠ .eof) :
    n < sheet.lexemes.length := by
  by_contra hge
  exact h (by simp [tokenAt, lexemeAt, List.getElem?_eq_none (Nat.le_of_not_lt hge)])

theorem Recording.Sound.advance {sheet : Sheet} {levels : Nat} {r : Recording} (h : r.Sound sheet levels)
    (hne : sheet.tokenAt r.cursor.pos ≠ .eof) :
    (r.move .read (r.cursor.advance sheet)).Sound sheet levels ∧
      (r.cursor.advance sheet).pos = r.cursor.pos + 1 := by
  have hnext : r.cursor.advance sheet = { r.cursor with pos := r.cursor.pos + 1 } := if_neg hne
  rw [hnext]
  have hrange : Cursor.InRange sheet { r.cursor with pos := r.cursor.pos + 1 } :=
    ⟨Sheet.lt_of_tokenAt_ne_eof hne, h.inRange.depth, Nat.le_succ_of_le h.inRange.furthest⟩
  exact ⟨h.push hrange h.depth h.leads.move (Nat.le_succ _) ⟨h.inRange, hrange, Nat.le_succ _, .read⟩
    (by simp [List.range_succ]), rfl⟩

/-! ## Readers -/

/-- A reader and another one after it. -/
theorem Traced.bind_apply {α β : Type} (p : Traced α) (f : α → Traced β) (sheet : Sheet) (r : Recording) :
    (p >>= f) sheet r = match p sheet r with
      | .ok a t => f a sheet t
      | .error halt t => .error halt t := by
  show EStateM.bind (p sheet) (fun a => f a sheet) r = _
  unfold EStateM.bind
  cases p sheet r <;> rfl

section
variable {x : Terminal} {sheet : Sheet} {r : Recording}

theorem Traced.acceptQuietly_apply : Traced.acceptQuietly x sheet r =
    if (sheet.tokenAt r.cursor.pos).is x then .ok true (r.move .read (r.cursor.advance sheet)) else .ok false r := by
  show (if (sheet.tokenAt r.cursor.pos).is x = true then _ else _ : Traced Bool) sheet r = _
  split <;> rfl

theorem Traced.accept_hit (hx : (sheet.tokenAt r.cursor.pos).is x = true) :
    Traced.accept x sheet r = .ok true (r.move .read (r.cursor.advance sheet)) := by
  unfold Traced.accept
  rw [Traced.bind_apply, Traced.acceptQuietly_apply, if_pos hx]
  rfl

theorem Traced.accept_miss (hx : (sheet.tokenAt r.cursor.pos).is x = false) :
    Traced.accept x sheet r =
      .ok false (r.move (.record (.terminal x)) (r.cursor.record (.terminal x))) := by
  unfold Traced.accept
  rw [Traced.bind_apply, Traced.acceptQuietly_apply, if_neg (by simp [hx])]
  rfl

end

/-- What is known of an index of a sheet. -/
abbrev Place := Sheet → Nat → Prop

namespace Place

/-- Nothing is known. -/
def anywhere : Place := fun _ _ => True

/-- A token at a distance is known as well. -/
def sees (W : Place) (distance : Nat) (t : Token) : Place := fun sheet n =>
  W sheet n ∧ sheet.tokenAt (n + distance) = t

/-- Whether there is a lexeme to read. -/
def HasNext (W : Place) : Prop := ∀ sheet n, W sheet n → sheet.tokenAt n ≠ .eof

theorem HasNext.sees {W : Place} {t : Token} (h : t ≠ .eof) : (W.sees 0 t).HasNext :=
  fun _ _ hw => hw.2 ▸ h

theorem HasNext.mono {W V : Place} (h : W.HasNext) (hV : ∀ sheet n, V sheet n → W sheet n) : V.HasNext :=
  fun sheet n hw => h sheet n (hV sheet n hw)

end Place

namespace Traced

variable {α β : Type}

/-- Whether an outcome has a sound recording that does not end further back than at an index. -/
inductive EndsSound (sheet : Sheet) (levels start : Nat) (R : α → Nat → Prop) :
    EStateM.Result Halt Recording α → Prop
  /-- It found something, of which more is said. -/
  | ok {a r} (hr : r.Sound sheet levels) (hle : start ≤ r.cursor.pos) (h : R a r.cursor.pos) :
    EndsSound sheet levels start R (.ok a r)
  /-- It stopped. -/
  | error {halt r} (hr : r.Sound sheet levels) (hle : start ≤ r.cursor.pos) :
    EndsSound sheet levels start R (.error halt r)

/-- Whether a reader keeps recordings sound, where something is known of the index it starts at, and what is said
holds of the indices before and after what it finds. -/
def Goes (levels : Nat) (W : Place) (R : Nat → α → Nat → Prop) (p : Traced α) : Prop :=
  ∀ sheet r, r.Sound sheet levels → W sheet r.cursor.pos →
    EndsSound sheet levels r.cursor.pos (R r.cursor.pos) (p sheet r)

/-- Whether a reader keeps recordings sound, with nothing else said. -/
abbrev Proceeds (levels : Nat) (W : Place) (p : Traced α) : Prop := Goes levels W (fun _ _ _ => True) p

/-- Whether a reader keeps recordings sound and reads something before it finds anything. -/
abbrev Advances (levels : Nat) (W : Place) (p : Traced α) : Prop := Goes levels W (fun m _ n => m < n) p

/-- Whether a reader keeps recordings sound and reads something before it finds anything that counts, and nothing
before it finds anything else. -/
abbrev AdvancesIf (found : α → Bool) (levels : Nat) (W : Place) (p : Traced α) : Prop :=
  Goes levels W (fun m a n => if found a then m < n else n = m) p

/-- Whether a reader keeps recordings sound and finds only what counts. -/
abbrev Finds (found : α → Bool) (levels : Nat) (W : Place) (p : Traced α) : Prop :=
  Goes levels W (fun _ a _ => found a = true) p

section
variable {levels : Nat} {W V : Place} {R : Nat → α → Nat → Prop} {S : Nat → β → Nat → Prop} {p : Traced α}
  {f : α → Traced β}

namespace Goes

theorem mono {S : Nat → α → Nat → Prop} (h : Goes levels W R p) (hS : ∀ m a n, m ≤ n → R m a n → S m a n) :
    Goes levels W S p := by
  intro sheet r hr hw
  have h := h sheet r hr hw
  generalize p sheet r = x at h ⊢
  cases h with
  | ok hr hle h => exact .ok hr hle (hS _ _ _ hle h)
  | error hr hle => exact .error hr hle

theorem on (h : Goes levels W R p) : Proceeds levels W p := h.mono fun _ _ _ _ _ => trivial

theorem weaken (h : Goes levels V R p) (hW : ∀ sheet n, W sheet n → V sheet n) : Goes levels W R p :=
  fun sheet r hr hw => h sheet r hr (hW _ _ hw)

/-! ### Sequences -/

/-- A reader and another one, which starts where the first one ends. -/
theorem bind {S : α → Nat → β → Nat → Prop} {T : Nat → β → Nat → Prop} (hp : Goes levels W R p)
    (hf : ∀ a, Goes levels (fun sheet n => ∃ m, W sheet m ∧ R m a n) (S a) (f a))
    (hT : ∀ l a m b n, l ≤ m → m ≤ n → R l a m → S a m b n → T l b n) : Goes levels W T (p >>= f) := by
  intro sheet r hr hw
  have hp := hp sheet r hr hw
  rw [Traced.bind_apply]
  generalize p sheet r = x at hp ⊢
  cases hp with
  | error ht hle => exact .error ht hle
  | @ok a t ht hle h =>
    have hf := hf a sheet t ht ⟨_, hw, h⟩
    dsimp only
    generalize f a sheet t = y at hf ⊢
    cases hf with
    | error hu hle' => exact .error hu (Nat.le_trans hle hle')
    | ok hu hle' h' => exact .ok hu (Nat.le_trans hle hle') (hT _ _ _ _ _ hle hle' h h')

/-- A reader and another one, whatever the first one ends with. -/
theorem seq {S : α → Nat → β → Nat → Prop} {T : Nat → β → Nat → Prop} (hp : Goes levels W R p)
    (hf : ∀ a, Goes levels .anywhere (S a) (f a))
    (hT : ∀ l a m b n, l ≤ m → m ≤ n → R l a m → S a m b n → T l b n) : Goes levels W T (p >>= f) :=
  hp.bind (fun a => (hf a).weaken fun _ _ _ => trivial) hT

theorem andThen (hp : Proceeds levels W p) (hf : ∀ a, Proceeds levels .anywhere (f a)) :
    Proceeds levels W (p >>= f) := hp.seq hf fun _ _ _ _ _ _ _ _ _ => trivial

/-- The first reader of two reads something. -/
theorem ahead (hp : Advances levels W p) (hf : ∀ a, Proceeds levels .anywhere (f a)) :
    Advances levels W (p >>= f) := hp.seq hf fun _ _ _ _ _ _ hle h _ => Nat.lt_of_lt_of_le h hle

/-- The second reader of two reads something. -/
theorem thenAhead (hp : Proceeds levels W p) (hf : ∀ a, Advances levels .anywhere (f a)) :
    Advances levels W (p >>= f) := hp.seq hf fun _ _ _ _ _ hle _ _ h => Nat.lt_of_le_of_lt hle h

/-- What the second reader of two finds counts. -/
theorem thenFinds {found : β → Bool} (hp : Proceeds levels W p) (hf : ∀ a, Finds found levels .anywhere (f a)) :
    Finds found levels W (p >>= f) := hp.seq hf fun _ _ _ _ _ _ _ _ h => h

/-- The first reader of two reads something, and what the second one finds counts. -/
theorem aheadIf {found : β → Bool} (hp : Advances levels W p) (hf : ∀ a, Finds found levels .anywhere (f a)) :
    AdvancesIf found levels W (p >>= f) :=
  hp.seq hf fun _ _ _ _ _ _ hle h hfound => by rw [if_pos hfound]; exact Nat.lt_of_lt_of_le h hle

theorem pure {a : α} (h : ∀ m, R m a m) : Goes levels W R (Pure.pure a) :=
  fun _ _ hr _ => .ok hr (Nat.le_refl _) (h _)

theorem pureOn (a : α) : Proceeds levels W (Pure.pure a) := pure fun _ => trivial

/-- What is found is changed into something else. -/
theorem map {g : α → β} (hp : Goes levels W R p) (hS : ∀ m a n, R m a n → S m (g a) n) :
    Goes levels W S (g <$> p) := by
  intro sheet r hr hw
  show EndsSound sheet levels _ _ ((p >>= fun a => Pure.pure (g a)) sheet r)
  rw [Traced.bind_apply]
  have hp := hp sheet r hr hw
  generalize p sheet r = x at hp ⊢
  cases hp with
  | ok ht hle h => exact .ok ht hle (hS _ _ _ h)
  | error ht hle => exact .error ht hle

/-! ### Looking and moving -/

/-- A reader that only looks, and another one where it stays. -/
theorem looking {V : α → Place} (hp : ∀ sheet r, W sheet r.cursor.pos →
    ∃ a, p sheet r = .ok a r ∧ V a sheet r.cursor.pos) (hf : ∀ a, Goes levels (V a) S (f a)) :
    Goes levels W S (p >>= f) := by
  intro sheet r hr hw
  obtain ⟨a, ha, hv⟩ := hp sheet r hw
  rw [Traced.bind_apply, ha]
  exact hf a sheet r hr hv

theorem nextSpan {f : Span → Traced β} (hf : ∀ span, Goes levels W S (f span)) :
    Goes levels W S (Traced.nextSpan >>= f) := looking (fun _ _ hw => ⟨_, rfl, hw⟩) hf

theorem lastSpan {f : Span → Traced β} (hf : ∀ span, Goes levels W S (f span)) :
    Goes levels W S (Traced.lastSpan >>= f) := looking (fun _ _ hw => ⟨_, rfl, hw⟩) hf

theorem peekNth {d : Nat} {f : Token → Traced β} (hf : ∀ t, Goes levels (W.sees d t) S (f t)) :
    Goes levels W S (Traced.peekNth d >>= f) := fun sheet r hr hw => hf _ sheet r hr ⟨hw, rfl⟩

theorem peek {f : Token → Traced β} (hf : ∀ t, Goes levels (W.sees 0 t) S (f t)) :
    Goes levels W S (Traced.peek >>= f) := peekNth hf

theorem advance (hW : W.HasNext) : Goes levels W (fun m _ n => n = m + 1) Traced.advance := by
  intro sheet r hr hw
  obtain ⟨ht, hpos⟩ := hr.advance (hW _ _ hw)
  exact .ok ht (by show r.cursor.pos ≤ (r.cursor.advance sheet).pos; omega) hpos

theorem advances (hW : W.HasNext) : Advances levels W Traced.advance :=
  (advance hW).mono fun m _ _ _ h => h ▸ Nat.lt_succ_self m

theorem record (e : Expected) : Goes levels W (fun m _ n => n = m) (Traced.record e) := by
  intro sheet r hr hw
  have hpos : (r.cursor.record e).pos = r.cursor.pos := by rw [Cursor.record_eq hr.inRange.furthest]
  exact .ok (hr.record e) (Nat.le_of_eq hpos.symm) hpos

/-- Where an item is tried, the reader goes on. -/
theorem recordThen {e : Expected} {q : Traced β} (hq : Goes levels .anywhere S q) :
    Goes levels W S (Traced.record e >>= fun _ => q) :=
  (record e).bind (fun _ => hq.weaken fun _ _ _ => trivial) fun _ _ _ _ _ _ _ hm h => hm ▸ h

/-! ### Failing -/

theorem failAt (span : Span) (fault : Fault) : Goes levels W R (Traced.failAt span fault) :=
  fun _ _ hr _ => .error hr (Nat.le_refl _)

theorem fail (fault : Fault) : Goes levels W R (Traced.fail fault) := fun _ _ hr _ => .error hr (Nat.le_refl _)

theorem unexpected : Goes levels W R (Traced.unexpected : Traced α) := fun _ _ hr _ => .error hr (Nat.le_refl _)

theorem missing (e : Expected) : Goes levels W R (Traced.missing e : Traced α) := recordThen unexpected

theorem take (hW : W.HasNext) (v : Except Fault α) : Advances levels W (Traced.take v) := by
  cases v with
  | ok a => exact (advances hW).ahead fun _ => pureOn a
  | error fault => exact fail fault

theorem takeAfter (hW : W.HasNext) (v : Except Fault α) : Advances levels W (Traced.takeAfter v) := by
  refine nextSpan fun span => (advances hW).ahead fun _ => ?_
  cases v with
  | ok a => exact pureOn a
  | error fault => exact failAt span fault

/-! ### Terminals -/

theorem acceptQuietly (x : Terminal) : AdvancesIf id levels W (Traced.acceptQuietly x) := by
  refine peek fun t => ?_
  split
  · next hx =>
    exact (advances (.sees (ne_eof_of_is hx))).aheadIf fun _ => pure fun _ => rfl
  · exact pure fun _ => rfl

/-- A reader that goes on in one way if a first reader finds something, and where it is otherwise. -/
theorem ite {found : Traced Bool} {T : Nat → β → Nat → Prop} {p q : Traced β} (hb : AdvancesIf id levels W found)
    (hp : Goes levels .anywhere S p) (hq : Goes levels .anywhere T q)
    (hT : ∀ l m b n, l < m → m ≤ n → S m b n → T l b n) :
    Goes levels W T (found >>= fun b => if b then p else q) := by
  refine hb.seq (S := fun b => if b then S else T) (fun b => ?_) fun l b m c n _ hle h hc => ?_
  · cases b with
    | true => exact hp
    | false => exact hq
  · cases b with
    | true => exact hT l m c n h hle hc
    | false =>
      obtain rfl : m = l := h
      exact hc

theorem iteOn {found : Traced Bool} {p q : Traced β} (hb : AdvancesIf id levels W found)
    (hp : Proceeds levels .anywhere p) (hq : Proceeds levels .anywhere q) :
    Proceeds levels W (found >>= fun b => if b then p else q) := hb.ite hp hq fun _ _ _ _ _ _ _ => trivial

theorem iteAhead {found : Traced Bool} {p q : Traced β} (hb : AdvancesIf id levels W found)
    (hp : Proceeds levels .anywhere p) (hq : Advances levels .anywhere q) :
    Advances levels W (found >>= fun b => if b then p else q) :=
  hb.ite hp hq fun _ _ _ _ hlt hle _ => Nat.lt_of_lt_of_le hlt hle

/-- What is found after a first reader found something counts. -/
theorem iteIf {found : Traced Bool} {counts : β → Bool} {p q : Traced β} (hb : AdvancesIf id levels W found)
    (hp : Finds counts levels .anywhere p) (hq : AdvancesIf counts levels .anywhere q) :
    AdvancesIf counts levels W (found >>= fun b => if b then p else q) :=
  hb.ite hp hq fun _ _ _ _ hlt hle h => by rw [if_pos h]; exact Nat.lt_of_lt_of_le hlt hle

theorem accept (x : Terminal) : AdvancesIf id levels W (Traced.accept x) :=
  (acceptQuietly x).iteIf (pure fun _ => rfl) (recordThen (pure fun _ => rfl))

theorem expect (x : Terminal) : Advances levels W (Traced.expect x) :=
  (accept x).iteAhead (pureOn _) unexpected

/-- What is found after a first reader found something. -/
theorem option {found : Traced Bool} (hb : AdvancesIf id levels W found) (hp : Proceeds levels .anywhere p) :
    AdvancesIf Option.isSome levels W (found >>= fun b => if b then some <$> p else Pure.pure none) :=
  hb.iteIf (hp.map fun _ _ _ _ => rfl) (pure fun _ => rfl)

theorem after (x : Terminal) (hp : Proceeds levels .anywhere p) :
    AdvancesIf Option.isSome levels W (Traced.after x p) := (accept x).option hp

/-- A terminal that is next is found. -/
theorem after_seen {t : Token} {x : Terminal} (ht : t.is x = true) (hp : Proceeds levels .anywhere p) :
    Goes levels (W.sees 0 t) (fun m o n => o.isSome = true ∧ m < n) (Traced.after x p) := by
  intro sheet r hr hw
  have hx : (sheet.tokenAt r.cursor.pos).is x = true := hw.2 ▸ ht
  have hafter : Traced.after x p sheet r = (Traced.advance >>= fun _ => some <$> p) sheet r := by
    show (Traced.accept x >>= fun b => if b then some <$> p else Pure.pure none) sheet r = _
    rw [Traced.bind_apply, Traced.accept_hit hx]
    rfl
  have hread : Goes levels (W.sees 0 t) (fun m o n => o.isSome = true ∧ m < n)
      (Traced.advance >>= fun _ => some <$> p) :=
    (advances (.sees (ne_eof_of_is ht))).seq (S := fun _ _ o _ => o.isSome = true)
      (fun _ => hp.map fun _ _ _ _ => rfl) fun _ _ _ _ _ _ hle h ho => ⟨ho, Nat.lt_of_lt_of_le h hle⟩
  rw [hafter]
  exact hread sheet r hr hw

theorem afterQuietly (x : Terminal) (hp : Proceeds levels .anywhere p) :
    AdvancesIf Option.isSome levels W (Traced.afterQuietly x p) := (acceptQuietly x).option hp

/-! ### Calls and levels -/

/-- A reader with an event at its end that fits. -/
theorem noting {act : Option α → Option Act} (hp : Goes levels W R p)
    (hok : ∀ a c d, d.depth = c.depth → R c.pos a d.pos → ∀ x ∈ act (some a), x.Fits c d ∧ x ≠ .read)
    (herror : ∀ c d, d.depth = c.depth → ∀ x ∈ act none, x.Fits c d ∧ x ≠ .read) :
    Goes levels W R (Traced.noting act p) := by
  intro sheet r hr hw
  have hp := hp sheet r hr hw
  unfold Traced.noting
  generalize p sheet r = x at hp ⊢
  cases hp with
  | @ok a t ht hle h =>
    dsimp only
    cases hact : act (some a) with
    | none => exact .ok ht hle h
    | some x =>
      obtain ⟨hfits, hne⟩ := hok a _ _ (ht.depth_eq hr) h x hact
      exact .ok (ht.note hr.inRange hle hfits hne) hle h
  | @error halt t ht hle =>
    dsimp only
    cases hact : act none with
    | none => exact .error ht hle
    | some x =>
      obtain ⟨hfits, hne⟩ := herror _ _ (ht.depth_eq hr) x hact
      exact .error (ht.note hr.inRange hle hfits hne) hle

theorem call (routine : Routine) (hp : Advances levels W p) : Advances levels W (Traced.call routine p) := by
  refine hp.noting (fun a c d hdepth h x hx => ?_) fun c d hdepth x hx => ?_
  · obtain rfl := Option.some.inj hx
    exact ⟨.found hdepth h, nofun⟩
  · obtain rfl := Option.some.inj hx
    exact ⟨.failed hdepth, nofun⟩

theorem callOption {routine : Routine} {p : Traced (Option α)} {R : Nat → Option α → Nat → Prop}
    (h : routine.isOptional) (hp : Goes levels W R p)
    (hR : ∀ m o n, R m o n → if o.isSome then m < n else n = m) :
    Goes levels W R (Traced.callOption routine p) := by
  refine hp.noting (fun o c d hdepth hpos x hx => ?_) fun c d hdepth x hx => ?_
  · have hpos := hR _ _ _ hpos
    cases o with
    | none =>
      obtain rfl := Option.some.inj hx
      exact ⟨.nothing h hdepth hpos, nofun⟩
    | some a =>
      obtain rfl := Option.some.inj hx
      exact ⟨.found hdepth hpos, nofun⟩
  · obtain rfl := Option.some.inj hx
    exact ⟨.failed hdepth, nofun⟩

/-- With no level left, the limit is reached. -/
theorem deeper_zero (p : Traced α) : Goes 0 W R (Traced.deeper p) := by
  intro sheet r hr hw
  have hlimit : sheet.limit ≤ r.cursor.depth := Nat.le_of_eq hr.depth.symm
  rw [Traced.deeper, if_pos hlimit]
  exact fail _ sheet r hr hw

theorem deeper (hp : Goes levels W R p) : Goes (levels + 1) W R (Traced.deeper p) := by
  intro sheet r hr hw
  have hdepth := hr.depth
  have hlimit : ¬ sheet.limit ≤ r.cursor.depth := by omega
  rw [Traced.deeper, if_neg hlimit]
  have hp := hp sheet _ hr.enter hw
  generalize p sheet _ = x at hp ⊢
  cases hp with
  | ok ht hle h =>
    have := ht.depth
    exact .ok (ht.leave (by omega)) hle h
  | error ht hle =>
    have := ht.depth
    exact .error (ht.leave (by omega)) hle

/-! ### Repetition -/

/-- The rounds do not run out, since each one reads something. -/
theorem repeatUpTo {loop : Loop} {p : Traced (Option α)} (hp : ∀ {W}, AdvancesIf Option.isSome levels W p)
    (rounds : Nat) : Proceeds levels (fun sheet n => sheet.lexemes.length < n + rounds)
      (Traced.repeatUpTo loop p rounds) := by
  induction rounds with
  | zero => exact fun _ _ hr hw => absurd hr.inRange.pos (Nat.not_le_of_lt hw)
  | succ rounds ih =>
    have hround {W} : AdvancesIf Option.isSome levels W (Traced.roundIfFound loop p) := by
      refine hp.noting (fun o c d hdepth hpos x hx => ?_) nofun
      cases o with
      | none => cases hx
      | some a =>
        obtain rfl := Option.some.inj hx
        exact ⟨.round hdepth hpos, nofun⟩
    refine hround.bind (S := fun _ _ _ _ => True) (fun o => ?_) fun _ _ _ _ _ _ _ _ _ => trivial
    cases o with
    | none => exact pureOn _
    | some a =>
      refine andThen (ih.weaken fun sheet n ⟨m, hlt, hpos⟩ => ?_) fun _ => pureOn _
      have : m < n := hpos
      omega

theorem many {loop : Loop} {p : Traced (Option α)} (hp : ∀ {W}, AdvancesIf Option.isSome levels W p) :
    Proceeds levels W (Traced.many loop p) := fun sheet r hr _ =>
  repeatUpTo hp _ sheet r hr (by omega)

theorem commaList {loop : Loop} {p : Traced α} (hp : ∀ {W}, Advances levels W p) :
    Advances levels W (Traced.commaList loop p) :=
  hp.ahead fun _ => (many (after _ hp.on)).andThen fun _ => pureOn _

/-- An item, and a comma if another round follows. -/
theorem roundIfComma {loop : Loop} {R : Nat → Nat → Prop} (hR : ∀ l m n, R l m → m ≤ n → R l n)
    (hp : Goes levels W (fun m _ n => R m n) p) :
    Goes levels W (fun m x n => R m n ∧ (x.2 = true → m < n)) (Traced.roundIfComma loop p) := by
  have hcomma (a : α) : Goes levels .anywhere (fun m x n => x.2 = true → m < n)
      (Traced.accept (.symbol .comma) >>= fun b => Pure.pure (a, b)) := by
    refine (accept _).seq (S := fun b _ x _ => x = (a, b)) (fun b => pure fun _ => rfl) ?_
    rintro l b m x n - hle hb rfl (rfl : b = true)
    exact Nat.lt_of_lt_of_le hb hle
  refine noting (hp.seq hcomma fun l a m x n hle hle' hpos hx => ?_) (fun x c d hdepth hpos y hy => ?_) nofun
  · exact ⟨hR _ _ _ hpos hle', fun hfound => Nat.lt_of_le_of_lt hle (hx hfound)⟩
  · obtain ⟨a, _ | _⟩ := x
    · cases hy
    · obtain rfl := Option.some.inj hy
      exact ⟨.round hdepth (hpos.2 rfl), nofun⟩

/-- The rounds do not run out, since there is a comma in each one that another one follows. -/
theorem separatedUpTo {loop : Loop} {R : Nat → Nat → Prop} (hR : ∀ l m n, R l m → m ≤ n → R l n)
    (hp : ∀ {W}, Goes levels W (fun m _ n => R m n) p) (rounds : Nat) :
    Goes levels (fun sheet n => sheet.lexemes.length < n + rounds) (fun m _ n => R m n)
      (Traced.separatedUpTo loop p rounds) := by
  induction rounds with
  | zero => exact fun _ _ hr hw => absurd hr.inRange.pos (Nat.not_le_of_lt hw)
  | succ rounds ih =>
    refine (roundIfComma hR hp).bind (S := fun _ _ _ _ => True) (fun x => ?_) fun _ _ _ _ _ _ hle h _ =>
      hR _ _ _ h.1 hle
    obtain ⟨a, _ | _⟩ := x
    · exact pureOn _
    · refine andThen (ih.on.weaken fun sheet n ⟨m, hlt, hpos⟩ => ?_) fun _ => pureOn _
      have : m < n := hpos.2 rfl
      omega

theorem separated {loop : Loop} {R : Nat → Nat → Prop} (hR : ∀ l m n, R l m → m ≤ n → R l n)
    (hp : ∀ {W}, Goes levels W (fun m _ n => R m n) p) :
    Goes levels W (fun m _ n => R m n) (Traced.separated loop p) := fun sheet r hr _ =>
  separatedUpTo hR hp _ sheet r hr (by omega)

theorem separatedOn {loop : Loop} (hp : ∀ {W}, Proceeds levels W p) :
    Proceeds levels W (Traced.separated loop p) := separated (R := fun _ _ => True) (fun _ _ _ _ _ => trivial) hp

/-- The first item reads something. -/
theorem separatedAhead {loop : Loop} (hp : ∀ {W}, Advances levels W p) :
    Advances levels W (Traced.separated loop p) := separated (R := (· < ·)) (fun _ _ _ => Nat.lt_of_lt_of_le) hp

end Goes

end

end Traced

end LedgerQuery
