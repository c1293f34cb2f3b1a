import QueryCompiler.Compile.Select

/-!
# Hierarchies

The rows that are reached from given rows by a relationship of a model to itself. A growing table
takes the place of the model's table in an ordinary query; it has to carry the columns that the
query reads.
-/

namespace QueryCompiler

/-- The part of a request that the growing table is. -/
def hierarchyMark : String := "r_t0"

/-- The first segments of the paths that a query reads; missing if it reads every field. -/
def Query.heads? (q : Query) : Option (List String) :=
  match q.select with
  | none => none
  | some paths =>
    let ofCondition := match q.condition with
      | some c => c.columnPaths ++ c.relatedPaths
      | none => []
    let heads := (paths ++ ofCondition ++ q.order.filterMap OrderTerm.path ++
      q.joins.map JoinOf.path ++ q.computed.flatMap ComputedColumn.paths).map Path.head
    if heads.contains "*" then none else some heads

/-- The columns of the growing table, in the order of the model's fields: the key, the links to
parents, the permitted fields among those wanted, and the fields of wanted relationships to one
row. -/
def hierarchyColumns (access : Access) (keys parents : List BasicField)
    (wanted : Option (List String)) : List String :=
  let isWanted (name : String) : Bool := wanted.all fun names => names.contains name
  let isLink (name : String) : Bool :=
    (keys ++ parents).any (fun b => b.name == name) ||
      access.model.fields.any fun f => isWanted f.name &&
        f.relation?.any fun r => r.cardinality == .one && r.on.contains name
  access.model.fields.flatMap fun f =>
    match f.kind with
    | .basic b =>
      if isLink f.name || (isWanted f.name && access.permits f.name) then [b.column] else []
    | .group g =>
      if isWanted f.name && access.permits f.name then g.fields.map BasicField.column else []
    | .relation _ => []

/-- How a further row is tied to a row of the growing table: as its child going down, as its parent
going up. -/
def hierarchyLink (direction : Direction) (keys parents : List BasicField) : List Equality :=
  (keys.zip parents).map fun p =>
    match direction with
    | .down => ⟨⟨.row, p.2.column⟩, ⟨.table hierarchyAlias, p.1.column⟩⟩
    | .up => ⟨⟨.row, p.1.column⟩, ⟨.table hierarchyAlias, p.2.column⟩⟩

/-- The growing table that starts from the rows meeting `start`. -/
def HierarchyQuery.table (catalog : Catalog) (access : Access) (q : HierarchyQuery)
    (start : Predicate) : Build Hierarchy := do
  let model := access.model
  let names := Names.ofTable access .row
  let ignoreDeleted := q.query.ignoreDeleted
  let keys ← Build.ofExcept model.keyFields
  let parents ← Build.ofExcept model.parentFields
  if keys.length != parents.length then
    let parentNames := ",".intercalate (parents.map BasicField.name)
    Build.reject (.join model.name parentNames .parentColumnCounts)
  else
    let held ← Condition.resolve? catalog.dialect names (access.enforced? ignoreDeleted) false
      (hierarchyMark ++ "0")
    let step ←
      if model.marksDeleted && !ignoreDeleted then do
        let p ← notDeleted.resolve catalog.dialect names false (hierarchyMark ++ "2")
        pure (some p)
      else pure none
    return {
      columns := hierarchyColumns access keys parents q.query.heads?
      model
      anchor := ⟨held, start⟩
      step
      link := hierarchyLink q.direction keys parents }

/-- The rows that the growing table starts from. Without text, there is nothing to grow. -/
def HierarchyQuery.start? (catalog : Catalog) (access : Access) (q : HierarchyQuery) :
    Build Predicate :=
  Condition.resolve? catalog.dialect (Names.ofTable access .row) q.start true (hierarchyMark ++ "1")

/-- A query over a hierarchy. Without rows to start from, it is the query itself. -/
def HierarchyQuery.rows (catalog : Catalog) (names : Names Scope) (model : String)
    (q : HierarchyQuery) : Build Select := do
  let access ← Build.ofExcept (catalog.access model)
  let start ← q.start? catalog access
  if start.text.isEmpty then q.query.compile catalog names model none
  else
    let table ← q.table catalog access start
    q.query.compile catalog names model (some table)

/-- A count over a hierarchy. Without rows to start from, it is a count by the query's condition. -/
def HierarchyQuery.count (catalog : Catalog) (names : Names Scope) (model : String)
    (q : HierarchyQuery) : Build Select := do
  let access ← Build.ofExcept (catalog.access model)
  let start ← q.start? catalog access
  if start.text.isEmpty then
    countRows catalog names model q.query.condition q.query.joins q.query.ignoreDeleted
  else
    let table ← q.table catalog access start
    let tree ← JoinTree.ofDemand catalog model q.query.demand
    let tail ← tree.tail catalog names true q.query.condition [] [] none
    return { hierarchy := some table, list := .columns countColumns, tail }

end QueryCompiler
