import QueryCompiler.Compile.Request

/-!
# Plain requests

A request is plain if all SQL in its statement is written here: it brings no templates of its own, and
no name in it or in the catalog could be read as a placeholder or as the slot of a path.
-/

namespace QueryCompiler

/-- Whether a name neither opens a placeholder nor holds the slot of a path. The slot of a column may
stand in it, as what is put into a slot is not searched for columns. -/
def Text.isPlain (s : String) : Bool :=
  !contains s "#\x7b" && !contains s "EXPR"

/-- Whether the names of a field and of its columns are plain. -/
def Field.isPlain (f : Field) : Bool :=
  Text.isPlain f.name &&
    match f.kind with
    | .basic b => Text.isPlain b.column
    | .group g => g.fields.all fun b => Text.isPlain b.name && Text.isPlain b.column
    | .relation _ => true

/-- Whether the names of a model's table and of its fields are plain. -/
def Model.isPlain (m : Model) : Bool :=
  m.schema.all Text.isPlain && Text.isPlain m.table && m.fields.all Field.isPlain

namespace Condition

mutual

/-- Whether no template stands in a condition, in the conditions of its joins included. -/
def isPlain : Condition → Bool
  | .compare _ _ _ _ | .search _ _ _ => true
  | .group _ members => arePlain members
  | .negate inner => inner.isPlain
  | .related _ inner joins _ => isPlainOpt inner && arePlainJoins joins
  | .custom _ _ _ => false

/-- `isPlain` of a list. -/
def arePlain : List Condition → Bool
  | [] => true
  | c :: cs => c.isPlain && arePlain cs

/-- `isPlain` of a condition that may be missing. -/
def isPlainOpt : Option Condition → Bool
  | none => true
  | some c => c.isPlain

/-- `isPlain` of the conditions of joins. -/
def arePlainJoins : List (JoinOf Condition) → Bool
  | [] => true
  | ⟨_, _, c, _⟩ :: js => isPlainOpt c && arePlainJoins js

end

end Condition

/-- Whether the models of a catalog are plain, and the conditions that rows are held to. -/
def Catalog.isPlain (catalog : Catalog) : Bool :=
  catalog.models.all (fun e => e.2.isPlain) &&
    catalog.permissions.all fun e => Condition.isPlainOpt e.2.rows

/-- Whether a query is plain. -/
def Query.isPlain (q : Query) : Bool :=
  Condition.isPlainOpt q.condition && Condition.arePlainJoins q.joins && q.computed.isEmpty &&
    q.order.all fun o => o.template.isNone

/-- Whether a request is plain. The bound of a search for nearest neighbours is a condition by a
template, so a plain search has none. -/
def Request.isPlain : Request → Bool
  | .query _ q => q.isPlain
  | .count _ c joins _ | .existence _ c joins _ =>
    Condition.isPlainOpt c && Condition.arePlainJoins joins
  | .aggregate _ q =>
    Condition.isPlainOpt q.condition && Condition.arePlainJoins q.joins &&
      q.order.all (fun o => o.template.isNone) &&
      q.items.all fun i => i.template.isNone && Text.isPlain i.resultName
  | .deleteWhere _ c _ => c.isPlain
  | .recursive _ q | .recursiveCount _ q => Condition.isPlainOpt q.start && q.query.isPlain
  | .vectorSearch _ q =>
    Condition.isPlainOpt q.condition && q.maxDistance.isNone && q.distanceName.all Text.isPlain

end QueryCompiler
