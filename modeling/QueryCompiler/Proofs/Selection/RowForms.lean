import QueryCompiler.Condition.Match
import QueryCompiler.Proofs.JoinTree.Walk

/-!
# Rows in three forms

A row to be decided on is a JSON tree, a value, or the fields of a record. Only its first segment is
looked up in the row itself; what stands behind it is followed in the value that was found there, and
related rows are values whatever the row was. The forms agree all the same, since reading JSON as a
value commutes with looking up a field, at each depth (`Value.follow?_ofJson`). So a condition has one
verdict on all of them (`Condition.verdict_forms`).
-/

namespace QueryCompiler

/-! ## Following names -/

namespace Value

theorem at?_eq_follow? (path : String) (v : Value) : v.at? path = v.follow? (Path.all path) :=
  rfl

theorem follow?_append (before after : List String) (v : Value) :
    v.follow? (before ++ after) = (v.follow? before).bind (follow? after) := by
  induction before generalizing v with
  | nil => rfl
  | cons name before ih =>
    rw [List.cons_append, follow?, follow?, Option.bind_assoc]
    congr 1
    funext w
    exact ih w

/-- Only a record leads on, and only over a field that it has. -/
theorem field?_eq_none_iff {name : String} {v : Value} :
    v.field? name = none ↔ ∀ fields, v = .record fields → Keyed.get? name fields = none := by
  cases v with
  | record fields =>
    constructor
    · rintro h _ ⟨⟩
      exact h
    · intro h
      exact h fields rfl
  | _ => exact iff_of_true rfl nofun

end Value

/-- Follows names through nested objects. -/
def Json.follow? : List String → Json → Option Json
  | [], j => some j
  | name :: names, j => (j.member? name).bind (follow? names)

/-- Follows names from a row on. A row by itself is no value, so no names lead nowhere. -/
def Row.follow? (row : Row) : List String → Option Value
  | [] => none
  | name :: names => (row name).bind (Value.follow? names)

/-- The first segment is looked up in the row, and the others are followed from there: together that
is following all segments. -/
theorem Row.read_eq (row : Row) (path : String) :
    row.read path = (row.follow? (Path.all path)).getD .null := by
  rcases hsplit : Path.splitFirst path with ⟨first, _ | rest⟩
  · rw [Path.all_of_splitFirst_eq_none hsplit, Row.read, hsplit]
    cases hfirst : row first with
    | none => simp [Row.follow?, hfirst]
    | some v => simp [Row.follow?, hfirst, Value.follow?]
  · rw [Path.all_of_splitFirst_eq_some hsplit, Row.read, hsplit]
    rfl

theorem Value.row_read (v : Value) (path : String) : v.row.read path = (v.at? path).getD .null := by
  rw [Row.read_eq]
  rfl

/-- Nothing is read behind a value that is no record, or that lacks the next field. -/
theorem Value.row_read_eq_null {v w : Value} {path name : String} {before after : List String}
    (hpath : Path.all path = before ++ name :: after) (hbefore : v.follow? before = some w)
    (hstuck : ∀ fields, w = .record fields → Keyed.get? name fields = none) :
    v.row.read path = .null := by
  have hnone : v.at? path = none := by
    rw [Value.at?_eq_follow?, hpath, Value.follow?_append, hbefore]
    simp [Value.follow?, Value.field?_eq_none_iff.2 hstuck]
  rw [Value.row_read, hnone]
  rfl

/-! ## JSON as values -/

namespace Value

theorem get?_ofJsonMembers (name : String) (members : List (String × Json)) :
    Keyed.get? name (ofJsonMembers members) = (Keyed.get? name members).map ofJson := by
  induction members with
  | nil => rfl
  | cons member members ih =>
    obtain ⟨name', j⟩ := member
    rw [ofJsonMembers, Keyed.get?, Keyed.get?]
    by_cases hname : name = name'
    · rw [if_pos hname, if_pos hname]
      rfl
    · rw [if_neg hname, if_neg hname, ih]

theorem ofJsonItems_eq_map (items : List Json) : ofJsonItems items = items.map ofJson := by
  induction items with
  | nil => rfl
  | cons item items ih => rw [ofJsonItems, ih, List.map_cons]

/-- Looking up a field commutes with reading JSON as a value. -/
theorem field?_ofJson (name : String) (j : Json) :
    (ofJson j).field? name = (j.member? name).map ofJson := by
  cases j with
  | object members => exact get?_ofJsonMembers name members
  | natural n =>
    rw [ofJson]
    split <;> rfl
  | _ => rfl

/-- So does following names, at each depth. -/
theorem follow?_ofJson (names : List String) (j : Json) :
    (ofJson j).follow? names = (j.follow? names).map ofJson := by
  induction names generalizing j with
  | nil => rfl
  | cons name names ih =>
    rw [follow?, Json.follow?, field?_ofJson]
    cases j.member? name with
    | none => rfl
    | some member => exact ih member

end Value

theorem Json.row_eq (j : Json) : j.row = (Value.ofJson j).row := by
  funext name
  exact (Value.field?_ofJson name j).symm

/-- What a JSON row has at a path is what the tree has there. -/
theorem Json.row_read (j : Json) (path : String) :
    j.row.read path = ((j.follow? (Path.all path)).map Value.ofJson).getD .null := by
  rw [Json.row_eq, Value.row_read, Value.at?_eq_follow?, Value.follow?_ofJson]

/-! ## Verdicts -/

namespace Condition

/-- The related rows of a JSON row are the items of an array, each as a JSON row of its own. -/
theorem verdict_related_array {j : Json} {path : String} {items : List Json}
    (hitems : j.follow? (Path.all path) = some (.array items)) (inner : Condition)
    (joins : List Join) (negated : Bool) :
    (related path (some inner) joins negated).verdict j.row =
      .ofBool ((items.any fun item => inner.verdict item.row == .holds) != negated) := by
  have hread : j.row.read path = .list (items.map Value.ofJson) := by
    rw [Json.row_read, hitems, ← Value.ofJsonItems_eq_map]
    rfl
  rw [verdict, hread]
  simp only [relatedVerdict, Value.items?, List.any_map, Function.comp_def, Json.row_eq]

/-- A condition has one verdict on a JSON tree, on its value and, for an object, on the fields; what
it reads at a path is what the tree has there, and its related rows are those of the tree. A dotted
path of a record is read as the value at the whole path, and as null where a segment is missing or
what stands in front of it is no record. -/
theorem verdict_forms (c : Condition) (j : Json) :
    c.verdict j.row = c.verdict (Value.ofJson j).row ∧
    (∀ members, j = .object members →
      c.verdict j.row = c.verdict (Row.ofFields (Value.ofJsonMembers members))) ∧
    (∀ path, j.row.read path = ((j.follow? (Path.all path)).map Value.ofJson).getD .null) ∧
    (∀ path items inner joins negated, j.follow? (Path.all path) = some (.array items) →
      (related path (some inner) joins negated).verdict j.row =
        .ofBool ((items.any fun item => inner.verdict item.row == .holds) != negated)) ∧
    ∀ (fields : List (String × Value)) (path : String),
      (Value.record fields).row.read path = ((Value.record fields).at? path).getD .null ∧
      ∀ before name after w, Path.all path = before ++ name :: after →
        (Value.record fields).follow? before = some w →
        (∀ inside, w = .record inside → Keyed.get? name inside = none) →
        (Value.record fields).row.read path = .null := by
  refine ⟨by rw [Json.row_eq], ?_, Json.row_read j, ?_, ?_⟩
  · rintro members rfl
    rw [Json.row_eq]
    rfl
  · intro path items inner joins negated hitems
    exact verdict_related_array hitems inner joins negated
  · intro fields path
    refine ⟨Value.row_read _ path, ?_⟩
    intro before name after w hpath hbefore hstuck
    exact Value.row_read_eq_null hpath hbefore hstuck

/-- A team with its company and two members. -/
def rosterTree : Json :=
  .object [("company", .object [("name", .text "acme")]),
    ("members", .array [.object [("grade", .natural 2)], .object [("grade", .negative (-3))]])]

/-- The team is of the company `acme`, and a member has a grade below 0. -/
def ofAcmeBelowZero : Condition :=
  .group .and [.compare "company.name" .eq (.text "acme") false,
    .related "members" (some (.compare "grade" .lt (.uint 0) false)) [] false]

/-- The three forms of the team are decided on alike. There is nothing behind the name of the company,
for it is no record. -/
theorem rosterTree_forms : ∃ fields,
    ofAcmeBelowZero.verdict rosterTree.row = .holds ∧
    ofAcmeBelowZero.verdict (Value.ofJson rosterTree).row = .holds ∧
    ofAcmeBelowZero.verdict (Row.ofFields fields) = .holds ∧
    (related "members" (some (.compare "grade" .lt (.uint 0) false)) [] false).verdict
      rosterTree.row = .holds ∧
    (Value.record fields).row.read "company.name.first" = .null := by
  obtain ⟨hvalue, hfields, -, hrelated, hread⟩ := verdict_forms ofAcmeBelowZero rosterTree
  have hholds : ofAcmeBelowZero.verdict rosterTree.row = .holds := by decide
  refine ⟨_, hholds, hvalue ▸ hholds, hfields _ rfl ▸ hholds, ?_, ?_⟩
  · exact hrelated "members" _ _ [] false rfl
  · exact (hread _ _).2 ["company", "name"] "first" [] (.text "acme") rfl rfl nofun

end Condition
end QueryCompiler
