import QueryCompiler.Error
import QueryCompiler.Text.SnakeCase

/-!
# Models

A model is a table with its fields. A field is a column, a group of columns, or a relationship to
another model. Models are registered by name.
-/

namespace QueryCompiler

/-- A field that is one column. -/
structure BasicField where
  name : String
  column : String
  /-- Whether it is selected by default. -/
  selected : Bool := true
  deriving DecidableEq, Repr

/-- A field of several columns, each addressed by the field's name and its own. -/
structure GroupField where
  fields : List BasicField
  selected : Bool := true
  deriving DecidableEq, Repr

/-- The member of this name. -/
def GroupField.member? (g : GroupField) (name : String) : Option BasicField :=
  g.fields.find? fun b => b.name == name

/-- How many rows stand at the other end of a relationship. -/
inductive Cardinality where
  | one
  | many
  deriving DecidableEq, Repr

/-- A relationship. To one row, the fields `on` are of this model and pair with the target's key; to
many rows, they are of the target and pair with this model's key. -/
structure Relation where
  cardinality : Cardinality
  target : String
  on : List String
  deriving DecidableEq, Repr

/-- What a field is. -/
inductive FieldKind where
  | basic (field : BasicField)
  | group (group : GroupField)
  | relation (relation : Relation)
  deriving DecidableEq, Repr

/-- A field of a model. -/
structure Field where
  name : String
  kind : FieldKind
  deriving DecidableEq, Repr

namespace BasicField

/-- The column of a field follows from its name if it is not given. -/
def make (name : String) (column : Option String) (selected : Bool) : BasicField :=
  ⟨name, column.getD (Text.snakeCase name), selected⟩

end BasicField

namespace Field

/-- A field that is one column. -/
def ofBasic (b : BasicField) : Field :=
  ⟨b.name, .basic b⟩

/-- A group of columns; the name of the group goes before each of them. -/
def ofGroup (name : String) (members : List BasicField) (selected : Bool) : Field :=
  let mark := Text.snakeCase name
  ⟨name, .group ⟨members.map fun b => { b with column := mark ++ "_" ++ b.column }, selected⟩⟩

/-- The column of a field that is one. -/
def basic? (f : Field) : Option BasicField :=
  match f.kind with
  | .basic b => some b
  | _ => none

/-- The group of a field that is one. -/
def group? (f : Field) : Option GroupField :=
  match f.kind with
  | .group g => some g
  | _ => none

/-- The relationship of a field that is one. -/
def relation? (f : Field) : Option Relation :=
  match f.kind with
  | .relation r => some r
  | _ => none

/-- Whether the field is a relationship. -/
def isRelation (f : Field) : Bool :=
  f.relation?.isSome

/-- Whether the field is a relationship to many rows. -/
def isToMany (f : Field) : Bool :=
  f.relation?.any fun r => r.cardinality == .many

/-- Whether the field is selected by default. -/
def isSelected (f : Field) : Bool :=
  match f.kind with
  | .basic b => b.selected
  | .group g => g.selected
  | .relation _ => false

end Field

/-- A table with its fields. The key is a list of names of fields. -/
structure Model where
  name : String
  schema : Option String := none
  table : String
  key : List String := ["id"]
  fields : List Field := []
  deriving DecidableEq, Repr

/-- The field by which rows are marked as deleted. -/
def deleteFlag : String := "delete_flag"

namespace Model

/-- The table's name, with that of its schema if it has one. -/
def qualifiedTable (m : Model) : String :=
  match m.schema with
  | some schema => schema ++ "." ++ m.table
  | none => m.table

/-- The first field of this name. -/
def field? (m : Model) (name : String) : Option Field :=
  m.fields.find? fun f => f.name == name

/-- The column of the first field of this name, if that is one. -/
def basicField? (m : Model) (name : String) : Option BasicField :=
  (m.field? name).bind Field.basic?

/-- Whether a field belongs to the key. -/
def isKey (m : Model) (name : String) : Bool :=
  m.key.contains name

/-- Whether rows are marked as deleted and not removed. -/
def marksDeleted (m : Model) : Bool :=
  (m.basicField? deleteFlag).isSome

/-- The columns of fields given by name. -/
def basicFields (m : Model) (names : List String) : Except CompileError (List BasicField) :=
  names.mapM fun name =>
    match m.basicField? name with
    | some b => .ok b
    | none => .error (.field m.name name .notBasic)

/-- The columns of the key, in its order. -/
def keyFields (m : Model) : Except CompileError (List BasicField) :=
  m.basicFields m.key

/-- The relationship of the model to itself, if there is exactly one of this cardinality. -/
def selfRelation? (m : Model) (cardinality : Cardinality) : Option Relation :=
  match m.fields.filterMap (fun f => f.relation?.filter fun r =>
      r.cardinality == cardinality && r.target == m.name) with
  | [r] => some r
  | _ => none

/-- The columns by which a row of a hierarchy names its parent: those of the relationship to the
parent, or else of the relationship to the children. -/
def parentFields (m : Model) : Except CompileError (List BasicField) :=
  match m.selfRelation? .one with
  | some r => m.basicFields r.on
  | none =>
    match m.selfRelation? .many with
    | some r => m.basicFields r.on
    | none => .error (.notHierarchical m.name)

end Model

/-! ## Registered models -/

/-- The registered models in the order of their names. -/
abbrev Registry := List (String × Model)

namespace Registry

/-- Registers a model in place of an earlier one of its name. -/
def register (r : Registry) (m : Model) : Registry :=
  Keyed.insert m.name m r

/-- The model of this name. -/
def model? (r : Registry) (name : String) : Option Model :=
  Keyed.get? name r

/-- Registers models one after the other. -/
def ofList (models : List Model) : Registry :=
  models.foldl register []

end Registry
end QueryCompiler
