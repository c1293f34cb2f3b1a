import QueryCompiler.Condition.Basic

/-!
# Matching rows in memory

A condition is decided on a row with one of three verdicts. A condition that says nothing about the
row is absent, and an absent member has no influence on its group.
-/

namespace QueryCompiler

/-- The verdict of a condition on a row. -/
inductive Verdict where
  | holds
  | fails
  | absent
  deriving DecidableEq, Repr, Inhabited

namespace Verdict

/-- The verdict of a decided condition. -/
def ofBool (b : Bool) : Verdict :=
  if b then .holds else .fails

/-- The verdict of the negation. -/
def negate : Verdict → Verdict
  | .holds => .fails
  | .fails => .holds
  | .absent => .absent

/-- Whether the condition says nothing. -/
def isAbsent : Verdict → Bool
  | .absent => true
  | _ => false

/-- The verdict of a group: absent members are left out, and a group of which nothing is left is
absent. -/
def combine (k : Connective) (vs : List Verdict) : Verdict :=
  match k, vs.filter fun v => !v.isAbsent with
  | _, [] => .absent
  | .and, present => ofBool (present.all (· == .holds))
  | .or, present => ofBool (present.any (· == .holds))

end Verdict

/-! ## Rows -/

/-- A row, by its fields. -/
abbrev Row := String → Option Value

/-- A record as a row; other values have no fields. -/
def Value.row (v : Value) : Row := fun name => v.field? name

/-- Named values as a row. -/
def Row.ofFields (fields : List (String × Value)) : Row := fun name => Keyed.get? name fields

/-- A JSON tree as a row; only objects have fields. -/
def Json.row (j : Json) : Row := fun name => (j.member? name).map Value.ofJson

/-- The value at a dotted path of a row. What is missing reads as null. -/
def Row.read (row : Row) (path : String) : Value :=
  match Path.splitFirst path with
  | (first, none) => (row first).getD .null
  | (first, some rest) => ((row first).bind (Value.at? rest)).getD .null

/-! ## Verdicts -/

namespace Condition

/-- Some related row passes the test, or none does if negated; without a list of related rows the
verdict is negative either way. -/
def relatedVerdict (related : Value) (negated : Bool) (test : Row → Bool) : Verdict :=
  match related.items? with
  | some items => .ofBool ((items.any fun item => test item.row) != negated)
  | none => .fails

mutual

/-- The verdict of a condition on a row. SQL and full-text search are not decided in memory. -/
def verdict : Condition → Row → Verdict
  | .compare path op value skipEmpty, row =>
    if comparesNothing path op value skipEmpty then .absent
    else .ofBool (op.holds (row.read path) value)
  | .group k members, row => .combine k (verdicts members row)
  | .negate inner, row => (inner.verdict row).negate
  | .related path none _ negated, row => relatedVerdict (row.read path) negated fun _ => true
  | .related path (some inner) _ negated, row =>
    relatedVerdict (row.read path) negated fun item => inner.verdict item == .holds
  | .custom _ _ _, _ => .absent
  | .search _ _ _, _ => .absent

/-- The verdicts of the members of a group. -/
def verdicts : List Condition → Row → List Verdict
  | [], _ => []
  | c :: cs, row => c.verdict row :: verdicts cs row

end
end Condition
end QueryCompiler
