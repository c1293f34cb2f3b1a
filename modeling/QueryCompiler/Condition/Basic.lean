import QueryCompiler.Error
import QueryCompiler.Text.Fragment

/-!
# Conditions

A condition says which rows are wanted. It is resolved to SQL against tables, and decided in memory
against a row. Paths name fields from the model that the condition is about; a condition over
related rows has an inner condition about the model at the other end.
-/

namespace QueryCompiler

/-- An explicit join of the relationship at a path, with a further condition that joined rows
meet. -/
structure JoinOf (α : Type) where
  path : String
  type : JoinType := .left
  condition : Option α := none
  /-- Rows that are marked as deleted are joined too. -/
  ignoreDeleted : Bool := false

/-- A condition on rows. -/
inductive Condition where
  /-- The field compares with the value. With `skipEmpty`, an empty value drops the comparison. -/
  | compare (path : String) (op : Operator) (value : Value) (skipEmpty : Bool)
  | group (connective : Connective) (members : List Condition)
  | negate (inner : Condition)
  /-- A related row exists (or none does) that meets the inner condition. -/
  | related (path : String) (inner : Option Condition) (joins : List (JoinOf Condition))
      (negated : Bool)
  /-- SQL with slots for columns and for the path of a value. -/
  | custom (template : String) (paths : List String) (value : Option Value)
  /-- The field matches a full-text search. -/
  | search (path : String) (value : Value) (mode : SearchMode)

/-- An explicit join. -/
abbrev Join := JoinOf Condition

namespace Condition

instance : Inhabited Condition := ⟨.group .and []⟩

/-- The conjunction of the conditions that are given. -/
def both? : Option Condition → Option Condition → Option Condition
  | some a, some b => some (.group .and [a, b])
  | some a, none => some a
  | none, b => b

/-- A comparison that says nothing: it names no field, or its value is empty and may be left out. -/
def comparesNothing (path : String) (op : Operator) (value : Value) (skipEmpty : Bool) : Bool :=
  path.isEmpty || (skipEmpty && op.needsValue && value.isEmpty)

/-! ## Paths in a condition -/

mutual

/-- The paths whose columns the condition names, outside its conditions over related rows. -/
def columnPaths : Condition → List String
  | .compare path _ _ _ => if path.isEmpty then [] else [path]
  | .group _ members => columnPathsOf members
  | .negate inner => inner.columnPaths
  | .related _ _ _ _ => []
  | .custom _ paths _ => paths
  | .search path _ _ => [path]

/-- The column paths of the members of a group. -/
def columnPathsOf : List Condition → List String
  | [] => []
  | c :: cs => c.columnPaths ++ columnPathsOf cs

end

mutual

/-- The paths of the relationships whose rows the condition asks for, inner conditions excepted. -/
def relatedPaths : Condition → List String
  | .related path _ _ _ => if path.isEmpty then [] else [path]
  | .group _ members => relatedPathsOf members
  | .negate inner => inner.relatedPaths
  | .compare _ _ _ _ | .custom _ _ _ | .search _ _ _ => []

/-- The relationship paths of the members of a group. -/
def relatedPathsOf : List Condition → List String
  | [] => []
  | c :: cs => c.relatedPaths ++ relatedPathsOf cs

end

/-- The paths that have to be joined before the condition is resolved: those of its columns, and
those of the owners of its relationships. -/
def joinPaths (c : Condition) : List String :=
  c.columnPaths ++ c.relatedPaths.filterMap Path.owner?

mutual

/-- How many conditions over related rows stand in a condition, those in its joins included. -/
def relatedCount : Condition → Nat
  | .compare _ _ _ _ | .custom _ _ _ | .search _ _ _ => 0
  | .group _ members => relatedCountOf members
  | .negate inner => inner.relatedCount
  | .related _ inner joins _ => 1 + relatedCountOpt inner + relatedCountJoins joins

/-- `relatedCount` of a list. -/
def relatedCountOf : List Condition → Nat
  | [] => 0
  | c :: cs => c.relatedCount + relatedCountOf cs

/-- `relatedCount` of a condition that may be missing. -/
def relatedCountOpt : Option Condition → Nat
  | none => 0
  | some c => c.relatedCount

/-- `relatedCount` of the conditions of joins. -/
def relatedCountJoins : List (JoinOf Condition) → Nat
  | [] => 0
  | ⟨_, _, c, _⟩ :: js => relatedCountOpt c + relatedCountJoins js

end
end Condition
end QueryCompiler
