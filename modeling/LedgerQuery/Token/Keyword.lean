/-!
# Keywords

The words with a meaning in the grammar.  They are recognised in upper and
lower case alike.  Most are reserved.  The six contextual ones are keywords
only where the grammar asks for them, and names elsewhere.

The order of the constructors is the order in which error messages list them.
-/

namespace LedgerQuery

/-- A word with a meaning in the grammar. -/
inductive Keyword where
  | select
  | distinct
  | «from»
  | «where»
  | group
  | «by»
  | having
  | order
  | asc
  | desc
  | pivot
  | limit
  | as
  | and
  | or
  | not
  | «in»
  | is
  | null
  | true
  | false
  | balances
  | journal
  | print
  | between
  | «at»
  | «open»
  | close
  | clear
  | on
deriving DecidableEq, Repr, Inhabited

namespace Keyword

/-- Every keyword, in order. -/
def all : List Keyword :=
  [.select, .distinct, .from, .where, .group, .by, .having, .order, .asc, .desc, .pivot,
   .limit, .as, .and, .or, .not, .in, .is, .null, .true, .false, .balances, .journal, .print,
   .between, .at, .open, .close, .clear, .on]

/-- The written form, in upper case. -/
def spelling : Keyword → String
  | .select => "SELECT"
  | .distinct => "DISTINCT"
  | .from => "FROM"
  | .where => "WHERE"
  | .group => "GROUP"
  | .by => "BY"
  | .having => "HAVING"
  | .order => "ORDER"
  | .asc => "ASC"
  | .desc => "DESC"
  | .pivot => "PIVOT"
  | .limit => "LIMIT"
  | .as => "AS"
  | .and => "AND"
  | .or => "OR"
  | .not => "NOT"
  | .in => "IN"
  | .is => "IS"
  | .null => "NULL"
  | .true => "TRUE"
  | .false => "FALSE"
  | .balances => "BALANCES"
  | .journal => "JOURNAL"
  | .print => "PRINT"
  | .between => "BETWEEN"
  | .at => "AT"
  | .open => "OPEN"
  | .close => "CLOSE"
  | .clear => "CLEAR"
  | .on => "ON"

/-- The keywords that may also be names. -/
def contextual : List Keyword := [.between, .at, .open, .close, .clear, .on]

/-- Whether the word can never be a name. -/
def isReserved (k : Keyword) : Bool := !contextual.contains k

/-- The keyword of a word, whatever the case of its letters `a` to `z`. -/
def lookup? (word : String) : Option Keyword :=
  all.find? fun k => k.spelling.toList = word.toList.map Char.toUpper

/-- The place of a keyword in the order. -/
def index (k : Keyword) : Nat := all.idxOf k

theorem mem_all (k : Keyword) : k ∈ all := by
  cases k <;> decide

/-- A keyword is the one of its own spelling. -/
theorem lookup?_spelling (k : Keyword) : lookup? k.spelling = some k := by
  cases k <;> decide

/-- A keyword found for a word is spelled by the word in upper case. -/
theorem spelling_of_lookup? {word : String} {k : Keyword} (h : lookup? word = some k) :
    k.spelling.toList = word.toList.map Char.toUpper := by
  simpa using List.find?_some h

end Keyword

end LedgerQuery
