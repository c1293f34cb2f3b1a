import QueryCompiler.Compile.Tables

/-!
# Queries over a join tree

Lists of rows, counts, checks for existence and aggregates. They differ in what they select; tables,
filters, order and paging are compiled alike.
-/

namespace QueryCompiler

/-- The part of a request that the filter of its root table is. -/
def rootMark : String := "c"

/-- The part of the result that a page is, within the largest page of the settings. -/
def Settings.limit? (s : Settings) (page : Option Page) : Option Limit :=
  match page with
  | some p =>
    if p.isUnbounded then none
    else
      let p : Page := ⟨p.current, s.pageSize p.size⟩
      some ⟨p.size, p.offset⟩
  | none => none

/-- The clauses behind the selected columns. A query over a growing table (`hierarchy`) starts from
that table, whose rows have been held to the root's condition already. -/
def JoinTree.tail (catalog : Catalog) (names : Names Scope) (tree : JoinTree) (hierarchy : Bool)
    (condition : Option Condition) (groupKeys : List Expression) (order : List OrderTerm)
    (page : Option Page) : Build Tail := do
  let joins ← tree.clauses catalog names
  let filter ←
    if hierarchy then do
      let asked ←
        Condition.resolve? catalog.dialect names condition tree.callerScope (rootMark ++ "1")
      pure ⟨.absent, asked⟩
    else tree.filter catalog names tree.root rootMark condition
  let order ← Build.ofExcept (tree.orderKeys names order)
  let model := if hierarchy then none else some tree.root.access.model
  return ⟨⟨model, tree.root.number, joins⟩, filter, groupKeys, order, catalog.settings.limit? page⟩

/-! ## Rows -/

/-- What a query asks of tables. -/
def Query.demand (q : Query) : Demand where
  condition := q.condition
  joins := q.joins
  order := q.order
  paths := q.computed.flatMap ComputedColumn.paths
  wanted := .paths q.select
  ignoreDeleted := q.ignoreDeleted

/-- The columns of a query: the selected ones, and then the computed ones with the values they
bind. -/
def Query.columns (catalog : Catalog) (names : Names Scope) (tree : JoinTree) (q : Query) :
    Except CompileError (List ResultColumn × List Binding) := do
  let selected := tree.columns (q.nested.getD catalog.settings.nested)
  let (computed, bindings) ← tree.computedColumns names q.computed
  return (selected ++ computed, bindings)

/-- A query over the tables that it asks for. -/
def Query.compile (catalog : Catalog) (names : Names Scope) (model : String) (q : Query)
    (hierarchy : Option Hierarchy) : Build Select := do
  let tree ← JoinTree.ofDemand catalog model q.demand
  let (columns, bindings) ← Build.ofExcept (q.columns catalog names tree)
  let tail ← tree.tail catalog names hierarchy.isSome q.condition [] q.order q.page
  return ⟨hierarchy, .columns columns, bindings, tail⟩

/-! ## Counts -/

/-- The column of a count. -/
def countColumns : List ResultColumn :=
  [.leaf ⟨.rowCount, "count", false, false⟩]

/-- A count of the rows that meet a condition. -/
def countRows (catalog : Catalog) (names : Names Scope) (model : String)
    (condition : Option Condition) (joins : List Join) (ignoreDeleted : Bool) : Build Select := do
  let tree ← JoinTree.ofDemand catalog model { condition, joins, ignoreDeleted }
  let tail ← tree.tail catalog names false condition [] [] none
  return { list := .columns countColumns, tail }

/-- A check whether a row meets a condition. -/
def checkExistence (catalog : Catalog) (names : Names Scope) (model : String)
    (condition : Option Condition) (joins : List Join) (ignoreDeleted : Bool) : Build Select := do
  let tree ← JoinTree.ofDemand catalog model
    { condition, joins, ignoreDeleted, place := some .existenceCheck }
  let tail ← tree.tail catalog names false condition [] [] (some ⟨1, 1⟩)
  return { list := .one, tail }

/-! ## Aggregates -/

/-- What an aggregate request asks of tables. -/
def AggregateQuery.demand (q : AggregateQuery) : Demand where
  condition := q.condition
  joins := q.joins
  order := q.order
  paths := (q.items.filter fun i => !i.countsRows).map AggregateItem.path
  ignoreDeleted := q.ignoreDeleted

/-- An aggregate request. Its plain columns are the keys of the grouping. -/
def AggregateQuery.compile (catalog : Catalog) (names : Names Scope) (model : String)
    (q : AggregateQuery) : Build Select := do
  let tree ← JoinTree.ofDemand catalog model q.demand
  let columns ← Build.ofExcept (q.items.mapM (tree.aggregateColumn catalog.dialect names))
  let groupKeys := ResultColumn.groupKeys columns
  let tail ← tree.tail catalog names false q.condition groupKeys q.order q.page
  return { list := .columns columns, tail }

end QueryCompiler
