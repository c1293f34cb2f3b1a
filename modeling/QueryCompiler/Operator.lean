import QueryCompiler.Value.Order
import QueryCompiler.Text.Replace

/-!
# Operators

The operators of a comparison between a stored value and a value of the condition: their names,
their SQL templates and their meaning in memory.
-/

namespace QueryCompiler

/-- A comparison operator. -/
inductive Operator where
  | contains
  | endsWith
  | eq
  | eqOrIn
  | gt
  | gte
  | isIn
  | isBlank
  | isNotBlank
  | isNotNull
  | isNull
  | like
  | lt
  | lte
  | ne
  | notIn
  | startsWith
  deriving DecidableEq, Repr

namespace Operator

/-- The operator's name. -/
def name : Operator → String
  | .contains => "contains"
  | .endsWith => "endsWith"
  | .eq => "eq"
  | .eqOrIn => "eqOrIn"
  | .gt => "gt"
  | .gte => "gte"
  | .isIn => "in"
  | .isBlank => "isBlank"
  | .isNotBlank => "isNotBlank"
  | .isNotNull => "isNotNull"
  | .isNull => "isNull"
  | .like => "like"
  | .lt => "lt"
  | .lte => "lte"
  | .ne => "ne"
  | .notIn => "notIn"
  | .startsWith => "startsWith"

/-- All operators. -/
def all : List Operator :=
  [.contains, .endsWith, .eq, .eqOrIn, .gt, .gte, .isIn, .isBlank, .isNotBlank, .isNotNull, .isNull,
    .like, .lt, .lte, .ne, .notIn, .startsWith]

/-- The operator of this name. -/
def ofName? (s : String) : Option Operator :=
  all.find? fun op => op.name == s

/-- The predicate's text, where `$COL` stands for the column and `EXPR` for the path of the value.
Operators on collections have no fixed text. -/
def template? : Operator → Option String
  | .eq => some "$COL = #\x7bEXPR\x7d"
  | .ne => some "$COL != #\x7bEXPR\x7d"
  | .lt => some "$COL < #\x7bEXPR\x7d"
  | .lte => some "$COL <= #\x7bEXPR\x7d"
  | .gt => some "$COL > #\x7bEXPR\x7d"
  | .gte => some "$COL >= #\x7bEXPR\x7d"
  | .like => some "$COL LIKE #\x7bEXPR\x7d"
  | .contains => some "$COL LIKE CONCAT(CONCAT('%', #\x7bEXPR\x7d), '%')"
  | .startsWith => some "$COL LIKE CONCAT(#\x7bEXPR\x7d, '%')"
  | .endsWith => some "$COL LIKE CONCAT('%', #\x7bEXPR\x7d)"
  | .isNull => some "$COL IS NULL"
  | .isNotNull => some "$COL IS NOT NULL"
  | .isBlank => some "($COL IS NULL OR $COL = '')"
  | .isNotBlank => some "($COL IS NOT NULL AND $COL != '')"
  | .isIn | .notIn | .eqOrIn => none

/-- Whether the operator reads the value of the condition. -/
def needsValue : Operator → Bool
  | .isNull | .isNotNull | .isBlank | .isNotBlank => false
  | _ => true

/-! ## Meaning in memory -/

/-- The two values are comparable and their order passes the test. -/
def orderHolds (data test : Value) (p : Ordering → Bool) : Bool :=
  (data.strictOrder? test).any p

/-- Both values are texts and pass the test. -/
def textHolds (data test : Value) (p : String → String → Bool) : Bool :=
  match data.text?, test.text? with
  | some d, some t => p d t
  | _, _ => false

/-- The collection has an item equal to the value; a scalar is a collection of itself. -/
def isMember (collection data : Value) : Bool :=
  match collection with
  | .list items => items.any fun item => item.looseEq data
  | .null => false
  | scalar => scalar.looseEq data

/-- Whether the stored value `data` meets the operator with the condition's value `test`. A stored
null meets no comparison. -/
def holds (op : Operator) (data test : Value) : Bool :=
  match op with
  | .eq => !data.isNull && data.looseEq test
  | .ne => !data.isNull && !data.looseEq test
  | .lt => orderHolds data test (· == .lt)
  | .lte => orderHolds data test (· != .gt)
  | .gt => orderHolds data test (· == .gt)
  | .gte => orderHolds data test (· != .lt)
  | .like | .contains => textHolds data test Text.contains
  | .startsWith => textHolds data test Text.startsWith
  | .endsWith => textHolds data test Text.endsWith
  | .isNull => data.isNull
  | .isNotNull => !data.isNull
  | .isBlank => data.isNull || data.text? == some ""
  | .isNotBlank => !data.isNull && data.text? != some ""
  | .isIn => !data.isNull && isMember test data
  | .notIn => !data.isNull && !isMember test data
  | .eqOrIn =>
    match test with
    | .list [single] => !data.isNull && data.looseEq single
    | .list items => !data.isNull && isMember (.list items) data
    | scalar => !data.isNull && data.looseEq scalar

end Operator
end QueryCompiler
