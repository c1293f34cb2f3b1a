import QueryCompiler.JoinTree.Path
import QueryCompiler.Sql.Result

/-!
# Selection

Which fields of which tables are selected, and the result columns that follow from it. The key of a
table is selected wherever a selected path leads through the table.
-/

namespace QueryCompiler

namespace Table

/-- Chooses fields. -/
def choose (t : Table) (choices : List (String × Choice)) : Table :=
  { t with chosen := t.chosen ++ choices }

/-- Whether a field is chosen. -/
def isChosen (t : Table) (field : String) : Bool :=
  t.chosen.any fun c => c.1 == field

/-- Whether a member of a group is chosen. -/
def isMemberChosen (t : Table) (group member : String) : Bool :=
  t.chosen.any fun c => c.1 == group &&
    match c.2 with
    | .whole => true
    | .members names => names.contains member

/-- The fields that are selected unless a request says otherwise. -/
def defaultChoices (t : Table) : List (String × Choice) :=
  (t.access.permittedFields.filter Field.isSelected).map fun f =>
    (f.name, match f.kind with
      | .group g => .members ((g.fields.filter BasicField.selected).map BasicField.name)
      | _ => .whole)

/-- The fields of the key. -/
def keyChoices (t : Table) : List (String × Choice) :=
  t.access.model.key.map fun name => (name, .whole)

/-- What goes before the names of a table's fields in its columns. -/
def columnMark (path : TablePath) : String :=
  String.join (path.map (· ++ "."))

/-- The columns of a field. -/
def fieldLeaves (t : Table) (f : Field) : List Leaf :=
  if !t.isChosen f.name || (f.name == deleteFlag && !t.ignoreDeleted) then []
  else
    let mark := columnMark t.path ++ f.name
    match f.kind with
    | .basic b =>
      [{ expression := .column ⟨.table t.number, b.column⟩, property := mark,
         isKey := t.access.model.isKey f.name }]
    | .group g =>
      (g.fields.filter fun b => t.isMemberChosen f.name b.name).map fun b =>
        { expression := .column ⟨.table t.number, b.column⟩, property := mark ++ "." ++ b.name }
    | .relation _ => []

/-- The selected columns of a table, in the order of the model's fields. The mark of deleted rows is
shown only where such rows are read. -/
def leaves (t : Table) : List Leaf :=
  t.access.model.fields.flatMap t.fieldLeaves

end Table

namespace JoinTree

/-- What a selected path chooses on the table it leads to. -/
def choicesOf (t : Table) : Target → List (String × Choice)
  | .found (.field f) =>
    match f.kind with
    | .basic _ => [(f.name, .whole)]
    | .group g => [(f.name, .members (g.fields.map BasicField.name))]
    | .relation _ => t.defaultChoices
  | .found (.member f b) => [(f.name, .members [b.name])]
  | .wildcard => t.defaultChoices
  | .groupWildcard f =>
    [(f.name, .members ((f.group?.map fun g => g.fields.map BasicField.name).getD []))]

/-- Selects paths from the root, and says which tables they lead to. -/
def selectPaths (catalog : Catalog) :
    List String → JoinTree → Build (JoinTree × List TablePath)
  | [], tree => return (tree, [])
  | path :: paths, tree => do
    let (tree, t, target) ← tree.reach catalog tree.root path true true
    let (tree, touched) ← selectPaths catalog paths
      (tree.mapTable t.path fun table => table.choose (choicesOf table target))
    return (tree, t.path :: touched)

/-- Selects the keys of the tables on the way to the given ones. -/
def selectKeys (tree : JoinTree) (touched : List TablePath) : JoinTree :=
  tree.mapTables fun t =>
    if touched.any (fun p => t.path.isPrefixOf p) then t.choose t.keyChoices else t

/-- Selects the given paths; if they are missing, the default fields of every table. -/
def select (catalog : Catalog) (tree : JoinTree) : Option (List String) → Build JoinTree
  | none => return tree.mapTables fun t => t.choose t.defaultChoices
  | some paths => do
    let (tree, touched) ← selectPaths catalog paths tree
    return tree.selectKeys ([] :: touched)

/-! ## Result columns -/

/-- Groups the columns of a table with the groups that follow it below its path. A table without
columns leaves no group. -/
def groupBelow (j : Joined) (after : List (TablePath × ResultColumn)) :
    List (TablePath × ResultColumn) :=
  let inner := after.takeWhile fun e => j.path.isPrefixOf e.1
  let outer := after.dropWhile fun e => j.path.isPrefixOf e.1
  match j.toTable.leaves.map ResultColumn.leaf ++ inner.map (·.2) with
  | [] => outer
  | columns =>
    let property := Table.columnMark j.path.dropLast ++ j.link.name
    (j.path, .related j.link.relation.cardinality property columns) :: outer

/-- The result columns: those of the root, and then table by table, grouped by relationship if
`nested`. -/
def columns (tree : JoinTree) (nested : Bool) : List ResultColumn :=
  tree.root.leaves.map .leaf ++
    if nested then (tree.inOrder.foldr groupBelow []).map (·.2)
    else (tree.inOrder.flatMap fun j => j.toTable.leaves).map .leaf

end JoinTree
end QueryCompiler
