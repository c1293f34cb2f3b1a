import QueryCompiler.Model.Access
import QueryCompiler.Settings

/-!
# Catalogs

All that statements are compiled against: the registered models, the permissions of the caller and
the settings.
-/

namespace QueryCompiler

/-- What statements are compiled against. -/
structure Catalog where
  models : Registry := []
  permissions : Permissions := []
  settings : Settings := {}

namespace Catalog

/-- The dialect that statements are written in. -/
def dialect (c : Catalog) : Dialect :=
  c.settings.dialect

/-- The caller's access to a model. -/
def access (c : Catalog) (name : String) : Except CompileError Access :=
  match c.models.model? name with
  | some m => .ok ⟨m, Keyed.get? m.name c.permissions⟩
  | none => .error (.unknownModel name)

/-- The caller's access to the model at the other end of a relationship. -/
def target (c : Catalog) (owner : Model) (field : String) (r : Relation) :
    Except CompileError Access :=
  match c.access r.target with
  | .ok a => .ok a
  | .error _ => .error (.unregistered owner.name field r.target)

/-- How many conditions over related rows the caller is held to in all. -/
def relatedCount (c : Catalog) : Nat :=
  c.permissions.foldr (fun p n => Condition.relatedCountOpt p.2.rows + n) 0

end Catalog
end QueryCompiler
