import LedgerQuery.Proofs.Reading.LookaheadSelect
import LedgerQuery.Proofs.Reading.Window

/-!
# First steps of readers

What a reader does first depends on the tokens at the front of its input.  Here is, for each of them, the reader
in which it goes on after these tokens.
-/

namespace LedgerQuery

open Token

/-- An input at whose front some more items were tried. -/
def Input.trying (s : Input) (es : List Expected) : Input := { s with tried := es ++ s.tried }

namespace Parser

variable {α β : Type} {p : Parser α} {f : α → Parser β} {s t : Input} {a : α} {stop : Stop} {x : Terminal}
  {l m : Lexeme} {rest : List Lexeme}

theorem bind_of_ok (h : p s = .ok (a, t)) : (p >>= f) s = f a t := by
  show (p s >>= fun x => f x.1 x.2) = _
  rw [h]
  rfl

theorem bind_of_error (h : p s = .error stop) : (p >>= f) s = .error stop := by
  show (p s >>= fun x => f x.1 x.2) = _
  rw [h]
  rfl

theorem bind_congr {q : Parser α} (h : p s = q t) : (p >>= f) s = (q >>= f) t := by
  show (p s >>= fun x => f x.1 x.2) = _
  rw [h]
  rfl

theorem advance_hit (hs : s.rest = l :: rest) : advance s = .ok ((), ⟨rest, [], l.span⟩) := by
  obtain ⟨_, tried, last⟩ := s
  obtain rfl := hs
  rfl

/-- A terminal that is next is the first lexeme that remains. -/
theorem exists_cons_of_is (h : (nextOf rest).is x = true) : ∃ l rest', rest = l :: rest' ∧ l.token.is x = true := by
  cases rest with
  | nil => cases h
  | cons l rest => exact ⟨l, rest, rfl, h⟩

/-- The next token is that of the first lexeme that remains, unless it is the end of the input. -/
theorem exists_cons_of_next {t : Token} (h : nextOf rest = t) (ht : t ≠ .eof) :
    ∃ l rest', rest = l :: rest' ∧ l.token = t := by
  cases rest with
  | nil => exact absurd h.symm ht
  | cons l rest => exact ⟨l, rest, rfl, h⟩

/-! ## Terminals -/

theorem acceptQuietly_hit (hs : s.rest = l :: rest) (hl : l.token.is x = true) :
    acceptQuietly x s = .ok (true, ⟨rest, [], l.span⟩) := by
  obtain ⟨_, tried, last⟩ := s
  obtain rfl := hs
  unfold acceptQuietly
  rw [peek_bind, nextOf, firstOf_cons, if_pos hl]
  rfl

theorem acceptQuietly_miss (hx : (nextOf s.rest).is x = false) : acceptQuietly x s = .ok (false, s) := by
  unfold acceptQuietly
  rw [peek_bind, if_neg (by simp [hx])]
  rfl

theorem accept_hit (hs : s.rest = l :: rest) (hl : l.token.is x = true) :
    accept x s = .ok (true, ⟨rest, [], l.span⟩) := bind_of_ok (acceptQuietly_hit hs hl)

theorem accept_miss (hx : (nextOf s.rest).is x = false) :
    accept x s = .ok (false, { s with tried := .terminal x :: s.tried }) := bind_of_ok (acceptQuietly_miss hx)

theorem expect_hit (hs : s.rest = l :: rest) (hl : l.token.is x = true) :
    expect x s = .ok ((), ⟨rest, [], l.span⟩) := bind_of_ok (accept_hit hs hl)

/-! ## Repetition -/

/-- A loop is its first round and the loop again. -/
theorem many_eq {p : Parser (Option α)} (hm : MovesOnSome p) : many p = p >>= fun
    | none => Pure.pure []
    | some a => many p >>= fun as => Pure.pure (a :: as) := by
  funext s
  show (p >>= _) s = _
  cases h : p s with
  | error stop => rw [bind_of_error h, bind_of_error h]
  | ok x =>
    obtain ⟨o, t⟩ := x
    rw [bind_of_ok h, bind_of_ok h]
    cases o with
    | none => rfl
    | some a =>
      have hlt := hm s a t h
      show (repeatUpTo p s.rest.length t >>= _) = (repeatUpTo p (t.rest.length + 1) t >>= _)
      rw [Tracks.repeatUpTo_eq hm (Nat.lt_succ_self _) hlt]

/-! ## Values -/

/-- Whether a reader takes the value of the next token, or else goes on without it where some more items were
tried. -/
def TakesOr {γ : Type} (value : Token → Option (Except Fault γ)) (found : γ → α) (es : List Expected)
    (p k : Parser α) : Prop :=
  ∀ s, p s = match value (nextOf s.rest) with
    | some r => (found <$> take r) s
    | none => k (s.trying es)

section
variable {γ : Type} {value : Token → Option (Except Fault γ)} {found : γ → α} {es : List Expected} {p k : Parser α}

theorem TakesOr.hit {c : γ} (h : TakesOr value found es p k) (hs : s.rest = l :: rest)
    (hl : value l.token = some (.ok c)) : p s = .ok (found c, ⟨rest, [], l.span⟩) := by
  rw [h, hs, nextOf, firstOf_cons, hl]
  exact map_eq_ok.mpr ⟨c, take_ok_of_cons hs c, rfl⟩

theorem TakesOr.refused {f : Fault} (h : TakesOr value found es p k)
    (hs : value (nextOf s.rest) = some (.error f)) : p s = .error ⟨f, s.rest⟩ := by
  rw [h, hs]
  rfl

theorem TakesOr.miss (h : TakesOr value found es p k) (hs : value (nextOf s.rest) = none) :
    p s = k (s.trying es) := by
  rw [h, hs]

/-- Such a reader finds the same before any text that resumes alike. -/
theorem TakesOr.sees {w : Prop} (h : TakesOr value found es p k) (hk : Sees w Eq k k) (heof : value .eof = none)
    (hclose : w → value (.symbol .rightParen) = none) :
    Sees w Eq p p := by
  intro s a t hp
  cases hv : value (nextOf s.rest) with
  | none =>
    rw [h.miss hv] at hp
    obtain ⟨hu, hrun⟩ := hk _ a t hp
    refine ⟨hu, fun s' rest' hb hr => ?_⟩
    have hnone : value (nextOf s'.rest) = none := by
      by_cases hs : s.rest = t.rest
      · rw [hb.nil hs]
        rcases hr with ⟨hnext, -⟩ | ⟨rfl | ⟨hw, hn⟩, -⟩
        · rwa [hnext, ← hs]
        · exact heof
        · rw [hn]
          exact hclose hw
      · rwa [hb.next hs]
    rw [h.miss hnone]
    exact hrun (s'.trying es) rest' hb hr
  | some r =>
    cases r with
    | error f => cases (h.refused hv).symm.trans hp
    | ok c =>
      obtain ⟨rest, tried, last⟩ := s
      cases rest with
      | nil => exact absurd (heof.symm.trans hv) (by simp)
      | cons l rest =>
        obtain ⟨rfl, rfl⟩ := Prod.mk.inj (Except.ok.inj ((h.hit rfl hv).symm.trans hp))
        refine ⟨⟨[l], rfl⟩, fun s' rest' hb _ => ?_⟩
        obtain ⟨l', v, hs', hl', hv'⟩ := hb.cons (v := []) rfl
        obtain rfl : v = [] := by simpa using hv'
        exact ⟨_, _, h.hit hs' (hl' ▸ hv), rfl, rfl⟩

end

/-- A reader is itself with its value unchanged. -/
theorem map_self (p : Parser α) (s : Input) : ((fun a => a) <$> p) s = p s := by
  show (p s >>= fun x => Except.ok (x.1, x.2)) = p s
  cases p s <;> rfl

theorem literal?_takesOr : TakesOr Token.literal? some [] literal? (pure none) := by
  intro s
  unfold literal?
  rw [peek_bind]
  cases (nextOf s.rest).literal? <;> rfl

theorem name_takesOr : TakesOr (fun t => t.name?.map .ok) (fun n => n) [.identifier] name unexpected := by
  intro s
  unfold name
  rw [peek_bind]
  dsimp only
  cases (nextOf s.rest).name? with
  | none => rfl
  | some n => exact (map_self _ s).symm

/-- The value of a date. -/
def dateValue : Token → Option (Except Fault Date)
  | .date written => some (dateOf written)
  | _ => none

theorem date_takesOr : TakesOr dateValue (fun d => d) [.date] date unexpected := by
  intro s
  unfold date
  rw [peek_bind]
  cases nextOf s.rest <;> first | rfl | exact (map_self _ s).symm

/-- The value of a string. -/
def textValue : Token → Option (Except Fault String)
  | .string s => some (.ok s.value)
  | _ => none

theorem stringValue_takesOr : TakesOr textValue (fun v => v) [.string] stringValue unexpected := by
  intro s
  unfold stringValue
  rw [peek_bind]
  cases nextOf s.rest <;> first | rfl | exact (map_self _ s).symm

theorem accountPattern_takesOr : TakesOr textValue some [.string] accountPattern (pure none) := by
  rintro ⟨rest, tried, last⟩
  unfold accountPattern
  rw [peek_bind]
  rcases rest with _ | ⟨⟨t, span⟩, rest⟩
  · rfl
  · cases t <;> rfl

/-- The value of a number. -/
def numberValue : Token → Option (Except Fault UInt64)
  | .integer digits => some (countOf digits)
  | _ => none

theorem count_takesOr : TakesOr numberValue (fun n => n) [.integer] count unexpected := by
  intro s
  unfold count
  rw [peek_bind]
  cases nextOf s.rest <;> first | rfl | exact (map_self _ s).symm

theorem pivotKey_takesOr :
    TakesOr numberValue PivotKey.index [.integer] pivotKey (do return .column (← name)) := by
  intro s
  unfold pivotKey
  rw [peek_bind]
  cases nextOf s.rest <;> rfl

/-- A reader that takes a literal, or else goes on without it. -/
theorem takesOr_of_literal {found : Literal → α} {e : Expected} {p k : Parser α} (hp : ∀ s, p s = (do
      match ← literal? with
      | some value => return found value
      | none =>
        record e
        k) s) : TakesOr Token.literal? found [e] p k := by
  intro s
  rw [hp]
  cases hr : (nextOf s.rest).literal? with
  | none =>
    rw [bind_of_ok (literal?_takesOr.miss hr)]
    rfl
  | some r =>
    have hliteral : literal? s = (some <$> take r) s := by rw [literal?_takesOr, hr]
    show (literal? s >>= _) = _
    rw [hliteral]
    show ((take r s >>= _) >>= _) = (take r s >>= _)
    cases take r s <;> rfl

theorem literal?_hit {a : Literal} (hs : s.rest = l :: rest) (hl : l.token.literal? = some (.ok a)) :
    literal? s = .ok (some a, ⟨rest, [], l.span⟩) := literal?_takesOr.hit hs hl

theorem literal?_refused {f : Fault} (hs : (nextOf s.rest).literal? = some (.error f)) :
    literal? s = .error ⟨f, s.rest⟩ := literal?_takesOr.refused hs

theorem name_hit {n : String} (hs : s.rest = l :: rest) (hl : l.token.name? = some n) :
    name s = .ok (n, ⟨rest, [], l.span⟩) := name_takesOr.hit hs (by rw [hl]; rfl)

theorem listItem_takesOr : TakesOr Token.literal? some [.literal] listItem (pure none) :=
  takesOr_of_literal fun _ => rfl

/-! ## Atoms -/

/-- A list of literals after its parenthesis. -/
def literalListAfter : Parser Expr := do
  match ← literal? with
  | some first =>
    let others ← many (after (.symbol .comma) listItem)
    expect (.symbol .rightParen)
    return .constant (.list (first :: others.reduceOption))
  | none => missing .literal

/-- The first literal of a list, which may not be left out. -/
def firstLiteral : Parser Literal := do
  match ← literal? with
  | some first => return first
  | none => missing .literal

theorem firstLiteral_takesOr : TakesOr Token.literal? (fun a => a) [.literal] firstLiteral unexpected :=
  takesOr_of_literal fun _ => rfl

theorem literalListAfter_eq : literalListAfter = (do
    let first ← firstLiteral
    let others ← many (after (.symbol .comma) listItem)
    expect (.symbol .rightParen)
    return .constant (.list (first :: others.reduceOption)) : Parser Expr) := by
  unfold literalListAfter firstLiteral
  rw [bind_assoc]
  refine congrArg (literal? >>= ·) (funext fun o => ?_)
  cases o with
  | none => rfl
  | some first => rw [pure_bind]

theorem literalList_hit (hs : s.rest = l :: rest) (hl : l.token.is (.symbol .leftParen) = true) :
    literalList s = literalListAfter ⟨rest, [], l.span⟩ := bind_of_ok (expect_hit hs hl)

/-- A list of literals after its first comma. -/
def literalListTail (first : Literal) : Parser Expr := do
  let second ← listItem
  let others ← many (after (.symbol .comma) listItem)
  expect (.symbol .rightParen)
  return .constant (.list (first :: (second :: others).reduceOption))

/-- The arguments of a call after the parenthesis. -/
def argumentsAfter (K : Nested) : Parser (List Expr) := do
  if ← accept (.symbol .star) then
    expect (.symbol .rightParen)
    return [.wildcard]
  else if ← accept (.symbol .rightParen) then return []
  else
    let args ← commaList K.expr
    expect (.symbol .rightParen)
    return args

/-- The call of a function after its name and the parenthesis. -/
def callAfter (K : Nested) (n : String) : Parser Expr := do
  let args ← argumentsAfter K
  return .function n args

theorem nameOrCall_call {n : String} (K : Nested) (hs : s.rest = l :: m :: rest) (hl : l.token.name? = some n)
    (hm : m.token.is (.symbol .leftParen) = true) : nameOrCall K s = callAfter K n ⟨rest, [], m.span⟩ := by
  have hnth : (s.nth 1).is (.symbol .leftParen) = true := by rwa [nth_one, hs]
  show (name >>= fun n => if (s.nth 1).is (.symbol .leftParen) = true
    then (do return .function n (← arguments K)) else (return .column n : Parser Expr)) s = _
  rw [bind_of_ok (name_hit hs hl), if_pos hnth]
  have hargs : arguments K ⟨m :: rest, [], l.span⟩ = argumentsAfter K ⟨rest, [], m.span⟩ :=
    bind_of_ok (expect_hit rfl hm)
  show (arguments K ⟨m :: rest, [], l.span⟩ >>= _) = (argumentsAfter K ⟨rest, [], m.span⟩ >>= _)
  rw [hargs]

theorem nameOrCall_column {n : String} (K : Nested) (hs : s.rest = l :: rest) (hl : l.token.name? = some n)
    (hcall : (nextOf rest).is (.symbol .leftParen) = false) :
    nameOrCall K s = .ok (.column n, ⟨rest, [], l.span⟩) := by
  have hnth : (s.nth 1).is (.symbol .leftParen) = false := by rwa [nth_one, hs]
  show (name >>= fun n => if (s.nth 1).is (.symbol .leftParen) = true
    then (do return .function n (← arguments K)) else (return .column n : Parser Expr)) s = _
  rw [bind_of_ok (name_hit hs hl), if_neg (by simp [hnth])]
  rfl

/-- A literal, where an atom has to be. -/
def literalAtom : Parser Expr := do
  match ← literal? with
  | some value => return .literal value
  | none => missing .expression

theorem literalAtom_takesOr : TakesOr Token.literal? Expr.literal [.expression] literalAtom unexpected :=
  takesOr_of_literal fun _ => rfl

theorem atom_select (K : Nested) (hs : (nextOf s.rest).is (.keyword .select) = true) :
    atom K s = (do return .subselect (← K.select) : Parser Expr) s := by
  unfold atom
  rw [peek_bind, if_pos hs]

theorem atom_name (K : Nested) (hs : (nextOf s.rest).isName = true) : atom K s = nameOrCall K s := by
  unfold atom
  have hselect : (nextOf s.rest).is (.keyword .select) = false := by
    rw [← Bool.not_eq_true]
    intro h
    obtain ⟨w, hw⟩ := is_keyword_iff.mp h
    rw [hw] at hs
    cases hs
  rw [peek_bind, if_neg (by simp [hselect]), if_pos hs]

theorem atom_placeholder {pl : Placeholder} (K : Nested) (hs : s.rest = l :: rest) (hl : l.token = .placeholder pl) :
    atom K s = .ok (.placeholder pl, ⟨rest, [], l.span⟩) := by
  unfold atom
  rw [peek_bind, hs, nextOf, firstOf_cons, hl]
  exact take_ok_of_cons hs _

theorem atom_leftParen (K : Nested) (hs : nextOf s.rest = .symbol .leftParen) : atom K s = literalList s := by
  unfold atom
  rw [peek_bind, hs]
  rfl

theorem atom_other (K : Nested) (hselect : (nextOf s.rest).is (.keyword .select) = false)
    (hname : (nextOf s.rest).isName = false) (hplaceholder : ∀ pl, nextOf s.rest ≠ .placeholder pl)
    (hparen : nextOf s.rest ≠ .symbol .leftParen) : atom K s = literalAtom s := by
  unfold atom
  rw [peek_bind, if_neg (by simp [hselect]), if_neg (by simp [hname])]
  cases hn : nextOf s.rest with
  | placeholder pl => exact absurd hn (hplaceholder pl)
  | symbol y => cases y <;> first | rfl | exact absurd hn hparen
  | _ => rfl

/-! ## Factors -/

/-- An operand and its suffixes. -/
def suffixed (p : Parser Expr) : Parser Expr := do
  let operand ← p
  return (← many suffix?).foldl Suffix.apply operand

theorem suffixed_congr {p q : Parser Expr} (h : p s = q t) : suffixed p s = suffixed q t := by
  show (p s >>= _) = (q t >>= _)
  rw [h]

/-- Whether a list of literals is next. -/
def listNext (s : Input) : Bool :=
  (s.nth 0).is (.symbol .leftParen) && (s.nth 1).isLiteral && (s.nth 2).is (.symbol .comma)

/-- The next tokens, where a list of literals is next. -/
theorem exists_of_listNext (h : listNext s = true) : ∃ l m n rest, s.rest = l :: m :: n :: rest ∧
    l.token.is (.symbol .leftParen) = true ∧ m.token.isLiteral = true ∧ n.token.is (.symbol .comma) = true := by
  obtain ⟨rest, tried, last⟩ := s
  simp only [listNext, Bool.and_eq_true] at h
  obtain ⟨⟨hl, hm⟩, hn⟩ := h
  rcases rest with _ | ⟨l, _ | ⟨m, _ | ⟨n, rest⟩⟩⟩
  · cases hl
  · cases hm
  · cases hn
  · exact ⟨l, m, n, rest, rfl, hl, hm, hn⟩

theorem listNext_of_cons {n : Lexeme} (hs : s.rest = l :: m :: n :: rest) : listNext s =
    (l.token.is (.symbol .leftParen) && m.token.isLiteral && n.token.is (.symbol .comma)) := by
  obtain ⟨_, tried, last⟩ := s
  obtain rfl := hs
  rfl

/-- No list of literals is next where no literal follows the parenthesis. -/
theorem listNext_of_not_literal (hs : s.rest = l :: m :: rest) (hm : m.token.isLiteral = false) :
    listNext s = false := by
  obtain ⟨_, tried, last⟩ := s
  obtain rfl := hs
  show (_ && m.token.isLiteral && _) = false
  rw [hm, Bool.and_false, Bool.false_and]

theorem factor_list (K : Nested) (h : listNext s = true) : factor K s = primary K s := by
  obtain ⟨l, m, n, rest, hs, hl, -⟩ := exists_of_listNext h
  unfold factor
  rw [peek_bind, hs, nextOf, firstOf_cons, is_symbol_iff.mp hl]
  show (atList >>= _) s = _
  rw [bind_of_ok (Sees.atList_eq s)]
  exact congrFun (if_pos h) s

/-- An expression and a right parenthesis. -/
def group (K : Nested) : Parser Expr := do
  let e ← K.expr
  expect (.symbol .rightParen)
  return e

theorem factor_group (K : Nested) (h : listNext s = false) (hs : s.rest = l :: rest)
    (hl : l.token = .symbol .leftParen) : factor K s = group K ⟨rest, [], l.span⟩ := by
  unfold factor
  rw [peek_bind, hs, nextOf, firstOf_cons, hl]
  show (atList >>= _) s = _
  rw [bind_of_ok (Sees.atList_eq s)]
  exact (congrFun (if_neg (Bool.eq_false_iff.mp h)) s).trans (bind_of_ok (advance_hit hs))

theorem factor_minus (K : Nested) (hs : s.rest = l :: rest) (hl : l.token = .symbol .minus) :
    factor K s = (do return .unary .neg (← K.factor) : Parser Expr) ⟨rest, [], l.span⟩ := by
  unfold factor
  rw [peek_bind, hs, nextOf, firstOf_cons, hl]
  exact bind_of_ok (advance_hit hs)

theorem factor_plus (K : Nested) (hs : s.rest = l :: rest) (hl : l.token = .symbol .plus) :
    factor K s = K.factor ⟨rest, [], l.span⟩ := by
  unfold factor
  rw [peek_bind, hs, nextOf, firstOf_cons, hl]
  exact bind_of_ok (advance_hit hs)

theorem factor_other (K : Nested) (hs : nextOf s.rest ∉ [Token.symbol .leftParen, .symbol .minus, .symbol .plus]) :
    factor K s = primary K s := by
  unfold factor
  rw [peek_bind]
  cases hn : nextOf s.rest with
  | symbol y =>
    rw [hn] at hs
    cases y <;> first | rfl | exact absurd (by decide) hs
  | _ => rfl

/-- A list of literals goes on after its first comma. -/
theorem primary_list {n : Lexeme} {v : Literal} (K : Nested) (hs : s.rest = l :: m :: n :: rest)
    (hl : l.token.is (.symbol .leftParen) = true) (hm : m.token.literal? = some (.ok v))
    (hn : n.token.is (.symbol .comma) = true) :
    primary K s = suffixed (literalListTail v) ⟨rest, [], n.span⟩ := by
  refine suffixed_congr ?_
  rw [atom_leftParen K (by rw [hs]; exact is_symbol_iff.mp hl), literalList_hit hs hl, literalListAfter,
    bind_of_ok (literal?_hit rfl hm)]
  show (many (after (.symbol .comma) listItem) ⟨n :: rest, [], m.span⟩ >>= _) = _
  have hafter : after (.symbol .comma) listItem ⟨n :: rest, [], m.span⟩ = (some <$> listItem) ⟨rest, [], n.span⟩ :=
    bind_of_ok (accept_hit rfl hn)
  rw [many_eq (Sees.listItem (w := False)).after_moves, literalListTail]
  show ((after (.symbol .comma) listItem ⟨n :: rest, [], m.span⟩ >>= _) >>= _) = (listItem ⟨rest, [], n.span⟩ >>= _)
  rw [hafter]
  show (((listItem ⟨rest, [], n.span⟩ >>= _) >>= _) >>= _) = _
  cases listItem ⟨rest, [], n.span⟩ with
  | error stop => rfl
  | ok y =>
    obtain ⟨o, t⟩ := y
    show ((many (after (.symbol .comma) listItem) t >>= _) >>= _) = (many (after (.symbol .comma) listItem) t >>= _)
    cases many (after (.symbol .comma) listItem) t <;> rfl

/-- A list of literals stops at a first literal that is out of range. -/
theorem primary_refused {f : Fault} (K : Nested) (hs : s.rest = l :: m :: rest)
    (hl : l.token.is (.symbol .leftParen) = true) (hm : m.token.literal? = some (.error f)) :
    primary K s = .error ⟨f, m :: rest⟩ := by
  refine bind_of_error ?_
  rw [atom_leftParen K (by rw [hs]; exact is_symbol_iff.mp hl), literalList_hit hs hl]
  exact bind_of_error (literal?_refused hm)

/-! ## Operators -/

theorem operation?_hit {y : Symbol} {op : BinaryOp} {family : Symbol → Option BinaryOp} (p : Parser Expr)
    (hs : s.rest = l :: rest) (hl : l.token = .symbol y) (hop : family y = some op) :
    operation? family p s = (do return some (op, ← p) : Parser _) ⟨rest, [], l.span⟩ := by
  unfold operation?
  rw [peek_bind, hs, nextOf, firstOf_cons, hl]
  dsimp only
  rw [hop]
  exact bind_of_ok (advance_hit hs)

theorem operation?_miss {family : Symbol → Option BinaryOp} (p : Parser Expr)
    (hs : ¬ ∃ y op, nextOf s.rest = .symbol y ∧ family y = some op) : operation? family p s = .ok (none, s) := by
  unfold operation?
  rw [peek_bind]
  cases hn : nextOf s.rest with
  | symbol y =>
    dsimp only
    cases hy : family y with
    | some op => exact absurd ⟨y, op, hn, hy⟩ hs
    | none => rfl
  | _ => rfl

/-! ## Comparisons -/

theorem comparison?_miss (h : compares s.rest = false) : comparison? s = .ok (none, s) := by
  unfold comparison?
  unfold compares at h
  rw [peek_bind]
  cases hn : nextOf s.rest with
  | symbol y =>
    rw [hn] at h
    dsimp only at h ⊢
    cases hy : BinaryOp.ofComparison? y with
    | some op => rw [hy] at h; cases h
    | none => rfl
  | keyword k written =>
    rw [hn] at h
    cases k with
    | not => exact congrFun (if_neg (by rw [nth_one]; exact Bool.eq_false_iff.mp h)) s
    | «in» | is | between => cases h
    | _ => rfl
  | _ => rfl

/-- Whether a comparison begins with some tokens, and how it is read after them. -/
inductive ComparisonBegins : List Token → Parser (Option Comparison) → Prop
  /-- An operator. -/
  | symbol {y : Symbol} {op : BinaryOp} (h : BinaryOp.ofComparison? y = some op) :
    ComparisonBegins [.symbol y] (pure (some (.binary op)))
  /-- A test for an element. -/
  | isIn {w : String} : ComparisonBegins [.keyword .in w] (pure (some (.binary .isIn)))
  /-- A negated test for an element. -/
  | notIn {w v : String} : ComparisonBegins [.keyword .not w, .keyword .in v] (pure (some (.binary .notIn)))
  /-- A test for null. -/
  | is {w : String} : ComparisonBegins [.keyword .is w] (some <$> nullTest)
  /-- A test for a range. -/
  | between {w : String} : ComparisonBegins [.keyword .between w] (pure (some .between))

theorem exists_comparisonBegins (h : compares s.rest = true) :
    ∃ u rest p, s.rest = u ++ rest ∧ u ≠ [] ∧ ComparisonBegins (u.map Lexeme.token) p := by
  obtain ⟨rest, tried, last⟩ := s
  rcases rest with _ | ⟨⟨t, _⟩, rest⟩
  · cases h
  cases t with
  | symbol y =>
    cases hy : BinaryOp.ofComparison? y with
    | some op => exact ⟨[_], rest, _, rfl, List.cons_ne_nil _ _, .symbol hy⟩
    | none =>
      replace h : (BinaryOp.ofComparison? y).isSome = true := h
      rw [hy] at h
      cases h
  | keyword k w =>
    cases k with
    | «in» => exact ⟨[_], rest, _, rfl, List.cons_ne_nil _ _, .isIn⟩
    | is => exact ⟨[_], rest, _, rfl, List.cons_ne_nil _ _, .is⟩
    | between => exact ⟨[_], rest, _, rfl, List.cons_ne_nil _ _, .between⟩
    | not =>
      rcases rest with _ | ⟨⟨t, _⟩, rest⟩
      · cases h
      obtain ⟨v, rfl⟩ := is_keyword_iff.mp (show t.is (.keyword .in) = true from h)
      exact ⟨[_, _], rest, _, rfl, List.cons_ne_nil _ _, .notIn⟩
    | _ => cases h
  | _ => cases h

theorem comparison?_hit {ts : List Token} {v : List Lexeme} {p : Parser (Option Comparison)}
    (h : ComparisonBegins ts p) (hs : s.rest = v ++ rest) (hv : v.map Lexeme.token = ts) :
    ∃ span, comparison? s = p ⟨rest, [], span⟩ := by
  obtain ⟨_, tried, last⟩ := s
  obtain rfl := hs
  cases h with
  | symbol h =>
    obtain ⟨⟨t, span⟩, rfl, rfl⟩ := List.map_eq_singleton_iff.mp hv
    refine ⟨span, ?_⟩
    unfold comparison?
    rw [peek_bind]
    simp only [List.singleton_append, nextOf, firstOf_cons, h]
    rfl
  | isIn | is | between =>
    obtain ⟨⟨t, span⟩, rfl, rfl⟩ := List.map_eq_singleton_iff.mp hv
    exact ⟨span, rfl⟩
  | notIn =>
    obtain ⟨⟨t, span⟩, v, rfl, rfl, hv'⟩ := List.map_eq_cons_iff.mp hv
    obtain ⟨⟨t, span'⟩, rfl, rfl⟩ := List.map_eq_singleton_iff.mp hv'
    exact ⟨span', rfl⟩

/-- The rest of a comparison after its operator, which no other comparison may follow. -/
def comparedWith (K : Nested) (left : Expr) (c : Comparison) : Parser Expr := do
  let e ← compared K left c
  if ← atComparison then fail .chainedComparison
  else return e

/-- The rest of a comparison after its operator, if it has one. -/
def comparisonEnd (K : Nested) (left : Expr) : Option Comparison → Parser Expr
  | none => return left
  | some c => comparedWith K left c

/-- A comparison after its left operand. -/
def comparisonRest (K : Nested) (left : Expr) : Parser Expr := do
  let c ← comparison?
  comparisonEnd K left c

/-- What was found, unless a comparison follows. -/
theorem unlessComparison_eq {f : Fault} {c : α} :
    (do if ← atComparison then fail f else return c : Parser α) s =
      if compares s.rest = true then .error ⟨f, s.rest⟩ else .ok (c, s) := by
  show (atComparison >>= _) s = _
  rw [bind_of_ok (atComparison_eq s)]
  split <;> rfl

/-- A literal that is out of range is refused where it begins an expression. -/
theorem disjunction_refused (K : Nested) {f : Fault} (h : (nextOf s.rest).literal? = some (.error f)) :
    disjunction K s = .error ⟨f, s.rest⟩ := by
  have hkind : ∃ t, nextOf s.rest = t ∧ ((∃ d, t = .integer d) ∨ (∃ d, t = .decimal d) ∨ ∃ d, t = .date d) := by
    refine ⟨_, rfl, ?_⟩
    cases hn : nextOf s.rest with
    | keyword k w =>
      rw [hn] at h
      cases k <;> cases h
    | integer d => exact .inl ⟨d, rfl⟩
    | decimal d => exact .inr (.inl ⟨d, rfl⟩)
    | date d => exact .inr (.inr ⟨d, rfl⟩)
    | _ => rw [hn] at h; cases h
  obtain ⟨t, ht, hkind⟩ := hkind
  have hatom : atom K s = .error ⟨f, s.rest⟩ := by
    rw [atom_other K]
    · exact bind_of_error (literal?_refused h)
    all_goals rw [ht]; obtain ⟨d, rfl⟩ | ⟨d, rfl⟩ | ⟨d, rfl⟩ := hkind <;> simp [is, terminal?, isName, name?]
  have hfactor : factor K s = .error ⟨f, s.rest⟩ := by
    rw [factor_other K]
    · exact bind_of_error hatom
    · rw [ht]
      obtain ⟨d, rfl⟩ | ⟨d, rfl⟩ | ⟨d, rfl⟩ := hkind <;> simp
  have hcomparison : comparison K s = .error ⟨f, s.rest⟩ := bind_of_error (bind_of_error (bind_of_error hfactor))
  have hinversion : inversion K s = .error ⟨f, s.rest⟩ := by
    refine (bind_of_ok (acceptQuietly_miss ?_)).trans hcomparison
    rw [ht]
    obtain ⟨d, rfl⟩ | ⟨d, rfl⟩ | ⟨d, rfl⟩ := hkind <;> rfl
  exact bind_of_error (bind_of_error hinversion)

theorem integerOf_eq_error {digits : String} {f : Fault} (h : integerOf digits = .error f) :
    f = .invalidNumber digits := by
  simp only [integerOf] at h
  split at h <;> cases h
  rfl

/-! ## Keys -/

/-- A key that is the number of a target. -/
theorem columnKey_index (K : Nested) {digits : String} {n : UInt64} (hs : s.rest = l :: rest)
    (hl : l.token = .integer digits) (hn : countOf digits = .ok n) (hc : (nextOf rest).continuesExpression = false) :
    columnKey K s = .ok (.index n, ⟨rest, [], l.span⟩) := by
  rw [Sees.columnKey_integer K (show nextOf s.rest = .integer digits by rw [hs]; exact hl), if_neg (by rw [nth_one, hs]; simp [hc]), hn]
  exact bind_of_ok (take_ok_of_cons hs n)

/-- A key that is an expression and begins with an integer. -/
theorem columnKey_expression (K : Nested) {digits : String} (hs : s.rest = l :: rest) (hl : l.token = .integer digits)
    (hc : (nextOf rest).continuesExpression = true) :
    columnKey K s = (do return ColumnKey.expr (← K.expr) : Parser ColumnKey) s := by
  rw [Sees.columnKey_integer K (show nextOf s.rest = .integer digits by rw [hs]; exact hl), if_pos (by rw [nth_one, hs]; exact hc)]

/-! ## Pivots and sources -/

theorem pivotEnd_hit (row column : PivotKey) (hc : (nextOf s.rest).is (.symbol .comma) = true) :
    pivotEnd row column s = .error ⟨.pivotArity, s.rest⟩ := by
  unfold pivotEnd
  rw [peek_bind, if_pos hc]
  rfl

theorem pivotEnd_miss (row column : PivotKey) (hc : (nextOf s.rest).is (.symbol .comma) = false) :
    pivotEnd row column s = .ok (⟨row, column⟩, s) := by
  unfold pivotEnd
  rw [peek_bind, if_neg (by simp [hc])]
  rfl

theorem pivotRest_hit (row : PivotKey) (hs : s.rest = l :: rest) (hl : l.token.is (.symbol .comma) = true) :
    pivotRest row s = (pivotKey >>= pivotEnd row) ⟨rest, [], l.span⟩ := by
  unfold pivotRest
  rw [peek_bind, hs, nextOf, firstOf_cons, if_pos hl]
  exact bind_of_ok (advance_hit hs)

theorem pivotRest_miss (row : PivotKey) (hc : (nextOf s.rest).is (.symbol .comma) = false) :
    pivotRest row s = .error ⟨.pivotArity, s.rest⟩ := by
  unfold pivotRest
  rw [peek_bind, if_neg (by simp [hc])]
  rfl

/-- A query in parentheses, after the first of them. -/
def querySource (K : Nested) : Parser Source := do
  let query ← K.select
  expect (.symbol .rightParen)
  return .query query

theorem source_table (K : Nested) {n : String} (hs : s.rest = l :: rest) (hl : l.token = .table n) :
    source K s = .ok (.table n, ⟨rest, [], l.span⟩) := by
  unfold source
  rw [peek_bind, hs, nextOf, firstOf_cons, hl]
  exact take_ok_of_cons hs _

theorem source_query (K : Nested) (hs : s.rest = l :: rest) (hl : l.token.is (.symbol .leftParen) = true)
    (hm : (nextOf rest).is (.keyword .select) = true) : source K s = querySource K ⟨rest, [], l.span⟩ := by
  rw [Sees.source_other K (by rw [hs, nextOf, firstOf_cons, is_symbol_iff.mp hl]; exact fun _ => nofun), if_pos]
  · exact bind_of_ok (advance_hit hs)
  · rw [nth_zero, nth_one, hs, nextOf, firstOf_cons, hl]
    exact hm

/-- A source that is no table and no query is a filter on entries. -/
theorem source_entries (K : Nested) (htable : ∀ n, nextOf s.rest ≠ .table n)
    (hquery : ((s.nth 0).is (.symbol .leftParen) && (s.nth 1).is (.keyword .select)) = false) :
    source K s = (do return Source.entries (← entryFilter K) : Parser Source)
      { s with tried := .table :: s.tried } := by
  rw [Sees.source_other K htable, if_neg (by rw [hquery]; exact Bool.false_ne_true)]
  rfl

/-! ## Statements -/

theorem statement_select (K : Nested) (hs : (nextOf s.rest).is (.keyword .select) = true) :
    statement K s = (do return Statement.select (← K.select) : Parser Statement) s := by
  obtain ⟨w, hw⟩ := is_keyword_iff.mp hs
  unfold statement
  rw [peek_bind, hw]

theorem statement_balances (K : Nested) (hs : (nextOf s.rest).is (.keyword .balances) = true) :
    statement K s = (do return Statement.balances (← balances K) : Parser Statement) s := by
  obtain ⟨w, hw⟩ := is_keyword_iff.mp hs
  unfold statement
  rw [peek_bind, hw]

theorem statement_journal (K : Nested) (hs : (nextOf s.rest).is (.keyword .journal) = true) :
    statement K s = (do return Statement.journal (← journal K) : Parser Statement) s := by
  obtain ⟨w, hw⟩ := is_keyword_iff.mp hs
  unfold statement
  rw [peek_bind, hw]

theorem statement_print (K : Nested) (hs : (nextOf s.rest).is (.keyword .print) = true) :
    statement K s = (do return Statement.print (← print K) : Parser Statement) s := by
  obtain ⟨w, hw⟩ := is_keyword_iff.mp hs
  unfold statement
  rw [peek_bind, hw]

/-- Where no statement begins, all four keywords are missed. -/
theorem statement_other (K : Nested) (hs : ∀ k ∈ statementStarts, (nextOf s.rest).is (.keyword k) = false) :
    statement K s = unexpected { s with
      tried := statementStarts.reverse.map (fun k => Expected.terminal (.keyword k)) ++ s.tried } := by
  unfold statement
  rw [peek_bind]
  cases hn : nextOf s.rest with
  | keyword k w =>
    rw [hn] at hs
    have hk : k ∉ statementStarts := fun hk => absurd (hs k hk) (by simp [is, terminal?])
    cases k <;> first | rfl | exact absurd (by decide) hk
  | _ => rfl

end Parser

end LedgerQuery
