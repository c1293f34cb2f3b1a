import QueryCompiler.Model.Basic
import QueryCompiler.Condition.Basic

/-!
# Access to models

A caller may be restricted to some fields of a model, and to the rows that meet a condition. The key
of a model is open to every caller.
-/

namespace QueryCompiler

/-- What a caller may see of a model. -/
structure Permission where
  /-- The fields that may be named; if missing, all of them. -/
  fields : Option (List String) := none
  /-- The condition that rows have to meet. -/
  rows : Option Condition := none

/-- Whether a field is among those that may be named. -/
def Permission.allows (p : Permission) (name : String) : Bool :=
  p.fields.all fun names => names.contains name

/-- The permissions of a caller by model. A model without one is not restricted. -/
abbrev Permissions := List (String × Permission)

/-- A model, as far as a caller may see it. -/
structure Access where
  model : Model
  permission : Option Permission

/-- The condition that a row is not marked as deleted. -/
def notDeleted : Condition :=
  .compare deleteFlag .eq (.bool false) false

namespace Access

/-- Whether a field may be named. -/
def permits (a : Access) (name : String) : Bool :=
  a.model.isKey name || a.permission.all (·.allows name)

/-- Looks up a field. A field that the caller names (`checked`) has to be permitted. -/
def field (a : Access) (name : String) (checked : Bool) : Except CompileError Field :=
  match a.model.field? name with
  | none => .error (.field a.model.name name .unknown)
  | some f =>
    if checked && !a.permits name then .error (.field a.model.name name .notPermitted) else .ok f

/-- The fields that may be named, in their order. -/
def permittedFields (a : Access) : List Field :=
  a.model.fields.filter fun f => a.permits f.name

/-- The condition on rows that the caller is held to. -/
def rows? (a : Access) : Option Condition :=
  a.permission.bind (·.rows)

/-- The condition that every read of the model is held to: rows marked as deleted are left out
unless they are asked for, and only the caller's rows are seen. -/
def enforced? (a : Access) (ignoreDeleted : Bool) : Option Condition :=
  Condition.both? (if !ignoreDeleted && a.model.marksDeleted then some notDeleted else none) a.rows?

end Access
end QueryCompiler
