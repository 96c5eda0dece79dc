import LedgerQuery.Proofs.Written.Scanned

/-!
# Scanning written trees

The written form of every well-formed tree is scanned as its tokens, unless an
integer in it has an attribute (`Statement.scan_text`).  Then fewer tokens are read than were
written, parentheses not counted.
-/

namespace LedgerQuery

open Token Piece

/-- Whether an expression is no attribute of an integer. -/
def Expr.Apart : Expr → Prop
  | .attribute x _ => ∀ n, x ≠ .literal (.integer n)
  | _ => True

/-- Whether no integer in an expression has an attribute. -/
def Expr.AllApart (e : Expr) : Prop := e.All Expr.Apart fun _ => True

/-- Whether no integer in a query has an attribute. -/
def Select.AllApart (s : Select) : Prop := s.All Expr.Apart fun _ => True

/-- Whether no integer in a statement has an attribute. -/
def Statement.AllApart : Statement → Prop
  | .select s => s.AllApart
  | .balances b => (∀ f ∈ b.source, ∀ e ∈ f.expression, e.AllApart) ∧ ∀ e ∈ b.condition, e.AllApart
  | .journal j => ∀ f ∈ j.source, ∀ e ∈ f.expression, e.AllApart
  | .print p => ∀ f ∈ p.source, ∀ e ∈ f.expression, e.AllApart

/-- What may follow an expression: a point only if this is a primary and no integer. -/
def Expr.Follow (e : Expr) : List Char → Prop :=
  match e with
  | .constant (.literal (.integer _)) => Breaks
  | e => if e.strength = 8 then Points else Breaks

theorem Expr.follow_of_breaks (e : Expr) {ds : List Char} (h : Breaks ds) : e.Follow ds := by
  unfold Expr.Follow
  split
  · exact h
  · split
    · exact h.points
    · exact h

theorem Expr.follow_of_points {e : Expr} (hs : e.strength = 8)
    (hn : ∀ n, e ≠ .literal (.integer n)) {ds : List Char} (h : Points ds) : e.Follow ds := by
  unfold Expr.Follow
  split
  · next n => exact absurd rfl (hn n)
  · rw [if_pos hs]
    exact h

namespace Scanned

variable {c c' : Prop} {I O : Bool → Prop} {E E' : List Char → Prop} {ps qs : List Piece}

/-! ## Expressions -/

/-- An expression at a place that asks for some strength. -/
theorem guarded {e : Expr} (least : Nat) (h : Scanned c Outside e.pieces e.Follow Anywhere) :
    Scanned c Outside (LedgerQuery.guarded e.strength least e.pieces) Breaks Anywhere := by
  have hb := h.before fun ds => e.follow_of_breaks
  unfold LedgerQuery.guarded
  split
  · exact hb.parenthesised
  · exact hb

/-- A primary that is no integer, as the operand of a suffix. -/
theorem suffixed {e : Expr} (hn : ∀ n, e ≠ .literal (.integer n))
    (h : Scanned c Outside e.pieces e.Follow Anywhere) :
    Scanned c Outside (LedgerQuery.guarded e.strength 8 e.pieces) Points Anywhere := by
  unfold LedgerQuery.guarded
  split
  · exact (h.before fun ds => e.follow_of_breaks).parenthesised
  · next hs =>
    have hmax := e.strength_le
    exact h.before fun ds => e.follow_of_points (by omega) hn

theorem constant {value : Constant} (h : value.Writable) :
    Scanned True Outside value.pieces (Expr.constant value).Follow Anywhere := by
  cases value with
  | literal value =>
    cases value with
    | integer n => exact literal h
    | boolean b =>
      refine token (Literal.Writable.token_legal h) (fun ds hd => Points.ends hd ?_) trivial
        (by simp [isPlaceholder_literal])
      cases b <;> simp [Literal.token]
    | _ =>
      exact token (Literal.Writable.token_legal h) (fun ds hd => Points.ends hd (by simp [Literal.token]))
        trivial (by simp [isPlaceholder_literal])
  | list items =>
    obtain ⟨-, h⟩ := h
    match items, h with
    | [value], h =>
      have hvalue := literal (I := Outside) (h value (by simp))
      refine parenthesised (cons (hvalue.before fun _ hd => hd) ?_ fun _ _ => breaks_of_mem ',' (by simp))
      exact symbol (by simp) trivial
    | [], _ => exact parenthesised (nil fun _ _ => trivial)
    | a :: b :: items, h =>
      have hall := commaSeparated (a :: b :: items) (f := fun value => [Piece.token value.token])
        (c := fun _ => True) fun value hv => literal (h value hv)
      exact parenthesised (hall.congr (by simp))

theorem operator (op : BinaryOp) :
    Scanned True Anywhere (Piece.spaced op.terminals) Breaks Outside := by
  refine spaced (fun x hx t ht => ?_) (by cases op <;> simp [BinaryOp.terminals])
  cases op <;> simp only [BinaryOp.terminals, List.mem_cons, List.not_mem_nil, or_false] at hx <;>
    first
    | (subst hx; cases ht; rfl)
    | (rcases hx with rfl | rfl <;> cases ht <;> rfl)

theorem nullTest {op : UnaryOp} : Scanned True Anywhere (Piece.spaced op.terminals) Breaks Anywhere :=
  spaced (fun _ _ _ _ => trivial) (by cases op <;> simp [UnaryOp.terminals])

/-- A keyword between operands. -/
theorem between {k : Keyword} (hk : (Token.keyword k k.spelling).endsOperand = false)
    (h : Scanned c Outside ps Breaks Anywhere) (h' : Scanned c' Outside qs E Anywhere) :
    Scanned (c ∧ c') Outside (ps ++ Piece.clause k qs) E Anywhere :=
  h.append (clause hk h') fun _ _ => breaks_space _ _

/-- A name does not begin with a digit. -/
theorem not_isDigit_word {name : String} (h : IsName name) (ds : List Char) :
    ∀ d ∈ (chars [Piece.word name] ++ ds).head?, d.isDigit = false := by
  have htext : (Piece.word name).text = name := by
    show (Token.ofWord name).text = name
    unfold Token.ofWord
    split <;> rfl
  rw [chars_cons, chars_nil, List.append_nil, htext]
  have hw := h.1
  cases hn : name.toList with
  | nil =>
    rw [hn] at hw
    cases hw
  | cons c cs =>
    intro d hd
    obtain rfl : c = d := by simpa using hd
    rw [← Bool.not_eq_true]
    intro hdigit
    rw [hn] at hw
    simp [isWord, isWordStart_of_isDigit hdigit] at hw

/-- A name after a point. -/
theorem pointed {name : String} (hname : IsName name) :
    Scanned True Anywhere [Piece.symbol .dot, Piece.word name] Points Anywhere := by
  refine cons (token (O := Anywhere) (E := fun ds => ∀ d ∈ ds.head?, d.isDigit = false) trivial ?_
    trivial (by simp [isPlaceholder])) (word hname fun _ => Points.not_wordChar)
    fun ds _ => not_isDigit_word hname ds
  intro ds hd d hm
  simp [endsBefore, hd d hm]

/-- An integer and the point after it are read as a decimal. -/
theorem attribute_integer {n : Int64} {name : String} (hn : 0 ≤ n.toInt) (hname : IsName name) :
    Scanned False Outside
      (Piece.token (.integer (Literal.integerText n)) :: [Piece.symbol .dot, Piece.word name])
      Points Anywhere := by
  have hl : (Token.decimal (Literal.integerText n ++ ".")).Legal := by
    refine ⟨numeral n.toInt.toNat, [], ?_, List.all_eq_true.mpr fun _ => isDigit_of_mem_numeral, rfl,
      .inl Nat.toDigits_ne_nil⟩
    rw [String.toList_append, toList_integerText hn]
    rfl
  obtain ⟨us, ⟨heq, -⟩, hscan⟩ := word (I := Anywhere) hname fun _ => Points.not_wordChar
  refine ⟨.decimal (Literal.integerText n ++ ".") :: us, ⟨False.elim, fun _ => ?_⟩,
    fun ds ts hd hs b hb => ?_⟩
  · rw [heq trivial]
    simp [weight, isParen, Piece.symbol]
  · have hends : (Token.decimal (Literal.integerText n ++ ".")).Ends (chars [Piece.word name] ++ ds) :=
      fun d hm => by simp [endsBefore, not_isDigit_word hname ds d hm]
    have h : Scans b _ _ := (hscan ds ts hd hs _ trivial).token hl hends (by simp [isPlaceholder])
    have htext : chars (Piece.token (.integer (Literal.integerText n)) ::
          [Piece.symbol .dot, Piece.word name]) ++ ds =
        (Token.decimal (Literal.integerText n ++ ".")).text.toList ++ (chars [Piece.word name] ++ ds) := by
      simp [Piece.text, Token.text, Piece.symbol, Symbol.spelling]
    rw [htext]
    exact h

/-! ## Clauses -/

/-- Whether pieces that begin with a space, if there are any, are scanned after anything. -/
def Follows (c : Prop) (qs : List Piece) : Prop :=
  Scanned c Anywhere qs Breaks Anywhere ∧ ∀ ds, Breaks ds → Breaks (chars qs ++ ds)

theorem followed (h : Scanned c Outside ps Breaks Anywhere) (h' : Follows c' qs) :
    Scanned (c ∧ c') Outside (ps ++ qs) Breaks Anywhere := h.append h'.1 h'.2

theorem Follows.nil : Follows True [] := ⟨Scanned.nil fun _ h => h, fun _ h => h⟩

theorem Follows.append (h : Follows c ps) (h' : Follows c' qs) : Follows (c ∧ c') (ps ++ qs) := by
  refine ⟨h.1.append h'.1 h'.2, fun ds hd => ?_⟩
  rw [chars_append, List.append_assoc]
  exact h.2 _ (h'.2 ds hd)

/-- A clause begins with a space. -/
theorem Follows.clause {k : Keyword} (hk : (Token.keyword k k.spelling).endsOperand = false)
    (h : Scanned c Outside ps Breaks Anywhere) : Follows c (Piece.clause k ps) :=
  ⟨Scanned.clause hk h, fun _ _ => breaks_space _ _⟩

/-- A clause of two keywords. -/
theorem Follows.clauseBy {k : Keyword} (hk : (Token.keyword k k.spelling).endsOperand = false)
    (h : Scanned c Outside ps Breaks Anywhere) : Follows c (Piece.clauseBy k ps) :=
  ⟨cons (space (E := fun _ => True)) (cons (keyword (O := Outside) hk) (Scanned.clause rfl h).outside
    fun _ _ => breaks_space _ _) fun _ _ => trivial, fun _ _ => breaks_space _ _⟩

theorem Follows.ofOption {α : Type} {f : α → List Piece} {o : Option α} {c : α → Prop}
    (h : ∀ a ∈ o, Follows (c a) (f a)) : Follows (∀ a ∈ o, c a) (Piece.ofOption f o) := by
  cases o with
  | none => exact ⟨Follows.nil.1.congr (by simp), Follows.nil.2⟩
  | some a => exact ⟨(h a rfl).1.congr (by simp), (h a rfl).2⟩

/-- A part that is no expression and may be missing. -/
theorem Follows.optional {α : Type} {f : α → List Piece} {o : Option α}
    (h : ∀ a ∈ o, Follows True (f a)) : Follows True (Piece.ofOption f o) := by
  have := Follows.ofOption (c := fun _ => True) h
  exact ⟨this.1.congr (by simp), this.2⟩

section
variable {e : Expr} {s : Select}

theorem target {t : Target} (h : Scanned c Outside t.expr.pieces t.expr.Follow Anywhere)
    (hn : ∀ n ∈ t.name, IsName n) : Scanned c Outside t.pieces Breaks Anywhere := by
  refine ((h.before fun _ => t.expr.follow_of_breaks).followed (Follows.optional fun n hm => ?_)).congr
    (iff_of_eq (and_true c))
  exact .clause rfl (word (hn n hm) fun _ hd => Points.not_wordChar hd.points)

theorem columnKey {k : ColumnKey} {c : Expr → Prop}
    (h : ∀ x ∈ k.parts, Scanned (c x) Outside x.pieces x.Follow Anywhere) :
    Scanned (∀ x ∈ k.parts, c x) Outside k.pieces Breaks Anywhere := by
  cases k with
  | index n => exact number.congr (by simp [ColumnKey.parts])
  | expr e =>
    have he := (h e (by simp [ColumnKey.parts])).before fun _ => e.follow_of_breaks
    refine congr (c := c e) ?_ (by simp [ColumnKey.parts])
    unfold ColumnKey.pieces
    split
    · exact he.parenthesised
    · exact he

theorem sortKey {k : SortKey} {c : Expr → Prop}
    (h : ∀ x ∈ k.column.parts, Scanned (c x) Outside x.pieces x.Follow Anywhere) :
    Scanned (∀ x ∈ k.column.parts, c x) Outside k.pieces Breaks Anywhere := by
  have hd : Follows True k.direction.pieces := by
    cases k.direction with
    | ascending => exact .nil
    | descending =>
      exact ⟨cons (space (E := fun _ => True)) (keyword trivial) fun _ _ => trivial,
        fun _ _ => breaks_space _ _⟩
  exact ((columnKey h).followed hd).congr (iff_of_eq (and_true _))

theorem groupBy {g : GroupBy} {c : Expr → Prop}
    (h : ∀ x ∈ g.parts, Scanned (c x) Outside x.pieces x.Follow Anywhere) :
    Scanned (∀ x ∈ g.parts, c x) Outside g.pieces Breaks Anywhere := by
  simp only [GroupBy.parts, List.mem_append, List.mem_flatMap, Option.mem_toList] at h
  rw [GroupBy.pieces_eq]
  have hkeys := commaSeparated g.keys (f := ColumnKey.pieces)
    (c := fun k => ∀ x ∈ k.parts, c x) fun k hk => columnKey fun x hx => h x (.inl ⟨k, hk, hx⟩)
  refine (hkeys.followed (Follows.ofOption (c := c) fun e he => .clause rfl ?_)).congr ?_
  · exact (h e (.inr he)).before fun _ => e.follow_of_breaks
  · simp only [GroupBy.parts, List.mem_append, List.mem_flatMap, Option.mem_toList]
    constructor
    · rintro ⟨h₁, h₂⟩ x (⟨k, hk, hx⟩ | hx)
      · exact h₁ k hk x hx
      · exact h₂ x hx
    · exact fun h => ⟨fun k hk x hx => h x (.inl ⟨k, hk, hx⟩), fun x hx => h x (.inr hx)⟩

theorem pivotBy {p : PivotBy} (hr : p.row.Writable) (hc : p.column.Writable) :
    Scanned True Outside p.pieces Breaks Anywhere := by
  have key : ∀ k : PivotKey, k.Writable → Scanned True Outside k.pieces Breaks Anywhere := by
    intro k hk
    cases k with
    | index n => exact number
    | column n => exact word hk fun _ hd => Points.not_wordChar hd.points
  have := commaSeparated [p.row, p.column] (f := PivotKey.pieces) (c := fun _ => True)
    (by simpa using ⟨key _ hr, key _ hc⟩)
  exact this.congr (by simp)

/-- Items with spaces between, of which only the first may be an expression. -/
theorem spaceSeparated {first : List Piece} {others : List (List Piece)}
    (h : Scanned c I first Breaks Anywhere)
    (h' : ∀ ps ∈ others, Scanned True Anywhere ps Breaks Anywhere) :
    Scanned c I ([Piece.space].intercalate (first :: others)) Breaks Anywhere := by
  induction others generalizing c I first with
  | nil =>
    rw [List.intercalate_singleton]
    exact h
  | cons ps others ih =>
    rw [List.forall_mem_cons] at h'
    rw [List.intercalate_cons_cons, List.append_assoc]
    exact (h.append (cons (space (E := fun _ => True)) (ih h'.1 h'.2) fun _ _ => trivial)
      fun _ _ => breaks_space _ _).congr (iff_of_eq (and_true c))

theorem dated {k : Keyword} (hk : (Token.keyword k k.spelling).endsOperand = false) {d : Date}
    (h : 0 ≤ d.year ∧ d.year ≤ 9999) :
    Scanned True Anywhere
      [Piece.keyword k, Piece.space, Piece.keyword .on, Piece.space, Piece.token (.date d.text)]
      Breaks Anywhere :=
  cons (keyword (O := Outside) hk) (cons (space (E := fun _ => True)) (cons (keyword (O := Outside) rfl)
    (cons (space (E := fun _ => True)) (date h) fun _ _ => trivial) fun _ _ => breaks_space _ _)
    fun _ _ => trivial) fun _ _ => breaks_space _ _

theorem entryFilter {f : EntryFilter} {c : Expr → Prop} (hf : f.Writable)
    (h : ∀ x ∈ f.expression, Scanned (c x) Outside x.pieces x.Follow Anywhere) :
    Scanned (∀ x ∈ f.expression, c x) Outside f.pieces Breaks Anywhere := by
  obtain ⟨expression, openOn, close, clear⟩ := f
  obtain ⟨hopen, hclose⟩ := hf
  have hrest : ∀ ps ∈ (openOn.map openingPieces).toList ++ ((close.map Closing.pieces).toList ++
      (if clear then [[Piece.keyword .clear]] else [])),
      Scanned True Anywhere ps Breaks Anywhere := by
    intro ps hps
    simp only [List.mem_append, Option.mem_toList, Option.map_eq_some_iff] at hps
    rcases hps with ⟨d, hd, rfl⟩ | ⟨k, hk, rfl⟩ | hps
    · exact dated rfl (hopen d hd)
    · cases k with
      | default => exact keyword trivial
      | on d => exact dated rfl (hclose d hk)
    · cases clear with
      | false => simp at hps
      | true =>
        obtain rfl : ps = [Piece.keyword .clear] := by simpa using hps
        exact keyword trivial
  rw [EntryFilter.pieces_eq, List.append_assoc, List.append_assoc]
  cases expression with
  | none =>
    simp only [Option.map_none, Option.toList_none, List.nil_append]
    refine congr (c := True) ?_ (by simp)
    cases hitems : (openOn.map openingPieces).toList ++ ((close.map Closing.pieces).toList ++
        (if clear then [[Piece.keyword .clear]] else [])) with
    | nil => exact nil fun _ _ => trivial
    | cons ps items =>
      rw [hitems, List.forall_mem_cons] at hrest
      exact spaceSeparated hrest.1.outside hrest.2
  | some e =>
    have he := (h e rfl).before fun _ => e.follow_of_breaks
    exact (spaceSeparated he hrest).congr (by simp)

end

end Scanned

/-! ## Trees -/

theorem Expr.allApart_iff {e : Expr} :
    e.AllApart ↔ e.Apart ∧ (∀ x ∈ e.parts, x.AllApart) ∧ ∀ s, e = .subselect s → s.AllApart :=
  Expr.all_iff

theorem Select.allApart_iff {s : Select} :
    s.AllApart ↔ (∀ x ∈ s.parts, x.AllApart) ∧ ∀ s', s.source = some (.query s') → s'.AllApart := by
  rw [Select.AllApart, Select.all_iff, true_and]
  rfl

/-- Whether the written form of an expression is scanned as it should be. -/
def Expr.Scans (e : Expr) : Prop := Scanned e.AllApart Outside e.pieces e.Follow Anywhere

/-- Whether the written form of a query is scanned as it should be. -/
def Select.Scans (s : Select) : Prop := Scanned s.AllApart Outside s.pieces Breaks Anywhere

open Scanned

theorem head?_parenthesised (ps : List Piece) (ds : List Char) :
    (chars (Piece.parenthesised ps) ++ ds).head? = some '(' := by
  rw [Piece.parenthesised, List.cons_append, chars_cons]
  rfl

theorem Expr.scans {e : Expr} (hw : e.Writable) (hp : ∀ x ∈ e.parts, x.Writable)
    (ih : ∀ x ∈ e.parts, x.Scans) (hq : ∀ s, e = .subselect s → s.Scans) : e.Scans := by
  -- the condition for the tree is the one for its parts, but for attributes
  have hc := Expr.allApart_iff (e := e)
  cases e with
  | wildcard => exact (symbol (by simp) trivial).congr (by simp [hc, Expr.Apart, Expr.parts])
  | column n =>
    exact (word hw fun _ => Points.not_wordChar).congr (by simp [hc, Expr.Apart, Expr.parts])
  | constant value => exact (Scanned.constant hw).congr (by simp [hc, Expr.Apart, Expr.parts])
  | placeholder p =>
    refine (token hw (fun ds hd => Points.ends hd (by simp)) trivial fun _ _ => id).congr ?_
    simp [hc, Expr.Apart, Expr.parts]
  | function n args =>
    have hargs := commaSeparated args (f := Expr.pieces) (c := Expr.AllApart)
      fun a ha => (ih a ha).before fun _ => a.follow_of_breaks
    have hcall := cons (I := Outside) (E := fun ds => ∀ d ∈ ds.head?, isWordChar d = false)
      (word hw.1 fun _ hd => hd) (hargs.parenthesised (I := Anywhere) (E := Points)) fun ds _ d hd => by
        obtain rfl : '(' = d := Option.some.inj ((head?_parenthesised _ ds).symm.trans hd)
        rfl
    rw [← Expr.pieces_function] at hcall
    exact hcall.congr (by simp [hc, Expr.Apart, Expr.parts])
  | «attribute» x n =>
    by_cases hx : ∃ m, x = .literal (.integer m)
    · obtain ⟨m, rfl⟩ := hx
      have hm : 0 ≤ m.toInt := hp (.literal (.integer m)) (by simp [Expr.parts])
      exact (attribute_integer hm hw.1).congr ⟨False.elim, fun h => (hc.mp h).1 m rfl⟩
    · have hn : ∀ m, x ≠ .literal (.integer m) := fun m he => hx ⟨m, he⟩
      have hx := suffixed hn (ih x (by simp [Expr.parts]))
      refine (hx.append (pointed hw.1) fun ds _ d hd => ?_).congr (by simp [hc, Expr.Apart, Expr.parts, hn])
      rw [chars_cons] at hd
      obtain rfl : '.' = d := Option.some.inj hd
      simp
  | subscript x key =>
    have hx := Scanned.guarded 8 (ih x (by simp [Expr.parts]))
    have hkey : Scanned True Anywhere
        [Piece.symbol .leftBracket, Piece.token (.string (.enclosing key)), Piece.symbol .rightBracket]
        Points Anywhere :=
      cons (symbol (E := fun _ => True) (O := Anywhere) (by simp) trivial)
        (cons (quoted (E := fun _ => True) hw.1) (symbol (by simp) trivial) fun _ _ => trivial)
        fun _ _ => trivial
    refine (hx.append hkey fun _ _ => ?_).congr (by simp [hc, Expr.Apart, Expr.parts])
    rw [chars_cons]
    exact breaks_of_mem '[' (by simp)
  | unary op x =>
    have hx := fun least => Scanned.guarded least (ih x (by simp [Expr.parts]))
    have hcx : x.AllApart ↔ (Expr.unary op x).AllApart := by simp [hc, Expr.Apart, Expr.parts]
    cases op with
    | not =>
      exact (cons (keyword (O := Outside) rfl) (cons (space (E := fun _ => True)) (hx 3) fun _ _ => trivial)
        fun _ _ => breaks_space _ _).congr hcx |>.before fun ds hd => hd
    | neg =>
      exact (cons (symbol (E := fun _ => True) (O := Outside) (by simp) rfl) (hx 7)
        fun _ _ => trivial).congr hcx
    | isNull | isNotNull =>
      exact (((hx 5).append (cons (space (E := fun _ => True)) nullTest fun _ _ => trivial)
        fun _ _ => breaks_space _ _).congr (iff_of_eq (and_true _))).congr hcx
  | binary left op right =>
    have hl := fun least => Scanned.guarded least (ih left (by simp [Expr.parts]))
    have hr := fun least => Scanned.guarded least (ih right (by simp [Expr.parts]))
    have hop := (hl (if (Expr.binary left op right).strength = 4 then 5
        else (Expr.binary left op right).strength)).append
      (cons (space (E := fun _ => True)) (operator op) fun _ _ => trivial) fun _ _ => breaks_space _ _
    have hall := hop.append (cons (space (E := fun _ => True))
      (hr ((Expr.binary left op right).strength + 1)) fun _ _ => trivial) fun _ _ => breaks_space _ _
    refine (hall.before fun ds hd => ?_).congr (by simp [hc, Expr.Apart, Expr.parts])
    have hs : (Expr.binary left op right).strength ≠ 8 := by cases op <;> simp [Expr.strength]
    simpa [Expr.Follow, hs] using hd
  | bool op args =>
    have hargs := intercalate (s := [Piece.space, Piece.keyword op.key, Piece.space]) args
      (f := fun e => LedgerQuery.guarded e.strength ((Expr.bool op args).strength + 1) e.pieces)
      (c := Expr.AllApart)
      (cons (space (E := fun _ => True)) (cons (keyword (O := Outside) (by cases op <;> rfl))
        (space (E := fun _ => True)) fun _ _ => breaks_space _ _) fun _ _ => trivial)
      (fun _ => breaks_space _ _) fun a ha => Scanned.guarded _ (ih a ha)
    rw [← Expr.guardedPiecesOfList_eq_map] at hargs
    refine (hargs.before fun ds hd => ?_).congr (by simp [hc, Expr.Apart, Expr.parts])
    have hs : (Expr.bool op args).strength ≠ 8 := by cases op <;> simp [Expr.strength]
    simpa [Expr.Follow, hs] using hd
  | between x lower upper =>
    have hx := Scanned.guarded 5 (ih x (by simp [Expr.parts]))
    have hl := Scanned.guarded 5 (ih lower (by simp [Expr.parts]))
    have hu := Scanned.guarded 5 (ih upper (by simp [Expr.parts]))
    have hall := Scanned.between (k := .and) rfl (Scanned.between (k := .between) rfl hx hl) hu
    exact hall.congr (by simp [hc, Expr.Apart, Expr.parts, and_assoc])
  | subselect s =>
    exact (hq s rfl).parenthesised.congr (by simp [hc, Expr.Apart, Expr.parts])

theorem Select.scans {s : Select} (hw : s.Writable) (ih : ∀ x ∈ s.parts, x.Scans)
    (hq : ∀ s', s.source = some (.query s') → s'.Scans) : s.Scans := by
  obtain ⟨ht, hs, hg, ho, hp, -⟩ := hw
  obtain ⟨iht, ihs, ihc, ihg, iho⟩ := Select.forall_parts.mp ⟨ih, hq⟩
  have targets : Scanned (∀ x ∈ s.targets.parts, x.AllApart) Outside s.targets.pieces Breaks Anywhere := by
    cases htargets : s.targets with
    | all => exact (symbol (by simp) trivial).congr (by simp [Targets.parts])
    | list items =>
      rw [htargets] at ht iht
      rw [Targets.pieces_list]
      have hitems := commaSeparated items (f := Target.pieces)
        (c := fun t => t.expr.AllApart) fun t hm => Scanned.target (iht t.expr (List.mem_map_of_mem hm)) (ht.2 t hm)
      exact hitems.congr (by simp [Targets.parts])
  have distinct : Scanned True Outside (if s.distinct then [Piece.keyword .distinct, Piece.space] else [])
      (fun _ => True) Outside := by
    split
    · exact cons (keyword (O := Outside) rfl) (space (E := fun _ => True)) fun _ _ => breaks_space _ _
    · exact nil fun _ h => h
  have source : Follows (∀ a ∈ s.source, (∀ x ∈ a.parts, x.AllApart) ∧ ∀ s', a = .query s' → s'.AllApart)
      (ofOption (fun a => Piece.clause .from a.pieces) s.source) := by
    refine Follows.ofOption fun a ha => .clause rfl ?_
    cases a with
    | table n =>
      refine (token (t := .table n) (hs _ ha) (fun _ hd => hd.ends _) trivial (by simp [isPlaceholder])).congr ?_
      simp [Source.parts]
    | query s' => exact ((ihs _ ha).2 s' rfl).parenthesised.congr (by simp [Source.parts])
    | entries f =>
      have hf := Scanned.entryFilter (c := Expr.AllApart) (hs _ ha) fun x hx =>
        (ihs _ ha).1 x (by simpa [Source.parts, EntryFilter.parts] using hx)
      exact hf.congr (by simp [Source.parts, EntryFilter.parts])
  have condition : Follows (∀ x ∈ s.condition, x.AllApart)
      (ofOption (fun e => Piece.clause .where e.pieces) s.condition) :=
    Follows.ofOption fun x hx => .clause rfl ((ihc x hx).before fun _ => x.follow_of_breaks)
  have groupBy : Follows (∀ g ∈ s.groupBy, ∀ x ∈ g.parts, x.AllApart)
      (ofOption (fun g => Piece.clauseBy .group g.pieces) s.groupBy) :=
    Follows.ofOption fun g hg => .clauseBy rfl (Scanned.groupBy (ihg g hg))
  have orderBy : Follows (∀ keys ∈ s.orderBy, ∀ k ∈ keys, ∀ x ∈ k.column.parts, x.AllApart)
      (ofOption (fun keys => Piece.clauseBy .order (Piece.commaSeparated (keys.map SortKey.pieces)))
        s.orderBy) :=
    Follows.ofOption fun keys hk => .clauseBy rfl (commaSeparated keys fun k hm => sortKey (iho keys hk k hm))
  have pivotBy : Follows True (ofOption (fun p => Piece.clauseBy .pivot p.pieces) s.pivotBy) :=
    Follows.optional fun p hm => .clauseBy rfl (Scanned.pivotBy (hp p hm).1 (hp p hm).2)
  have limit : Follows True (ofOption (fun n => Piece.clause .limit [Piece.number n]) s.limit) :=
    Follows.optional fun n _ => .clause rfl number
  have clauses := (((((distinct.append targets fun _ _ => trivial).followed source).followed
    condition).followed groupBy).followed orderBy).followed pivotBy |>.followed limit
  have hall := cons (I := Outside) (keyword (k := .select) (O := Outside) rfl)
    (cons (space (E := fun _ => True)) clauses fun _ _ => trivial) fun _ _ => breaks_space _ _
  rw [← Select.pieces_eq] at hall
  refine hall.congr ?_
  rw [Select.allApart_iff, Select.forall_parts]
  simp only [true_and, and_true, and_assoc]

theorem scans_inductive : Inductive (fun e => e.WellFormed → e.Scans) (fun s => s.WellFormed → s.Scans) where
  expr e ih hq h := by
    obtain ⟨hw, hp, hs⟩ := Expr.all_iff.mp h
    exact Expr.scans hw (fun x hx => (Expr.all_iff.mp (hp x hx)).1) (fun x hx => ih x hx (hp x hx))
      fun s he => hq s he (hs s he)
  select s ih hq h := by
    obtain ⟨hw, hp, hs⟩ := Select.all_iff.mp h
    exact Select.scans hw (fun x hx => ih x hx (hp x hx)) fun s' he => hq s' he (hs s' he)

/-- The written form of a well-formed expression is scanned as it should be. -/
theorem Expr.WellFormed.scans {e : Expr} (h : e.WellFormed) : e.Scans := scans_inductive.all.1 e h

/-- The written form of a well-formed query is scanned as it should be. -/
theorem Select.WellFormed.scans {s : Select} (h : s.WellFormed) : s.Scans := scans_inductive.all.2 s h

/-! ## Statements -/

theorem shorthandSource_follows {o : Option EntryFilter} (h : ∀ f ∈ o, f.WellFormed) :
    Follows (∀ f ∈ o, ∀ e ∈ f.expression, e.AllApart) (shorthandSourcePieces o) :=
  Follows.ofOption fun f hf => .clause rfl
    (entryFilter (h f hf).1 fun e he => ((h f hf).2 e he).2.scans)

theorem summary_follows {o : Option String} (h : ∀ n ∈ o, IsName n) : Follows True (summaryPieces o) :=
  Follows.optional fun n hn => .clause rfl (word (h n hn) fun _ hd => Points.not_wordChar hd.points)

/-- The written form of a well-formed statement is scanned as its tokens, or else as fewer. -/
theorem Statement.WellFormed.scanned {t : Statement} (h : t.WellFormed) :
    Scanned t.AllApart Outside t.pieces Breaks Anywhere := by
  cases t with
  | select s => exact Select.WellFormed.scans h
  | balances b =>
    obtain ⟨hs, hf, hc⟩ := h
    have condition : Follows (∀ e ∈ b.condition, e.AllApart)
        (ofOption (fun e => Piece.clause .where e.pieces) b.condition) :=
      Follows.ofOption fun e he => .clause rfl ((hc e he).2.scans.before fun _ => e.follow_of_breaks)
    have hall := (keyword (I := Outside) (O := Anywhere) (k := .balances) trivial).followed
      (((summary_follows hs).append (shorthandSource_follows hf)).append condition)
    exact hall.congr (by simp [Statement.AllApart])
  | journal j =>
    obtain ⟨ha, hs, hf⟩ := h
    have account : Follows True
        ((j.account.map fun account => [Piece.space, Piece.token (.string (.enclosing account))]).getD []) :=
      Follows.optional fun value hv => ⟨cons (space (E := fun _ => True)) (quoted (ha value hv))
        fun _ _ => trivial, fun _ _ => breaks_space _ _⟩
    have hall := (keyword (I := Outside) (O := Anywhere) (k := .journal) trivial).followed
      ((account.append (summary_follows hs)).append (shorthandSource_follows hf))
    exact hall.congr (by simp [Statement.AllApart])
  | print p =>
    have hall := (keyword (I := Outside) (O := Anywhere) (k := .print) trivial).followed
      (shorthandSource_follows h)
    exact hall.congr (by simp [Statement.AllApart])

/-- The written form of a well-formed statement is a text of tokens: those it was written with, if no
integer has an attribute, and fewer otherwise. -/
theorem Statement.scan_text {t : Statement} (h : t.WellFormed) :
    ∃ lexemes, scan t.text = .ok lexemes ∧
      Shrinks t.AllApart (lexemes.map Lexeme.token) (Piece.tokens t.pieces) := by
  obtain ⟨us, hus, hs⟩ := h.scanned
  have hscan := hs [] [] (by simp [Breaks]) (fun _ _ => Scans.nil) false rfl
  rw [List.append_nil, List.append_nil] at hscan
  obtain ⟨lexemes, hl, hts⟩ := scan_of_scans hscan
  exact ⟨lexemes, hl, hts ▸ hus⟩

end LedgerQuery
