import QueryCompiler.JoinTree.Selection
import QueryCompiler.JoinTree.Scope
import QueryCompiler.Sql.Command

/-!
# Tables of a request

Which tables a request joins: first its explicit joins, then the paths that it names in their order,
then the selected paths, and last the paths that are named by what the tables are held to.
-/

namespace QueryCompiler

/-- What is selected from the tables of a request. -/
inductive Wanted where
  /-- Nothing; the statement selects by itself. -/
  | nothing
  /-- These paths; if they are missing, the default fields. -/
  | paths (paths : Option (List String))

/-- The parts of a request that bear on the tables it joins. -/
structure Demand where
  condition : Option Condition := none
  joins : List Join := []
  order : List OrderTerm := []
  /-- Further paths that columns are computed from. -/
  paths : List String := []
  wanted : Wanted := .nothing
  ignoreDeleted : Bool := false
  place : Option JoinPlace := none

/-- The paths that a request names. -/
def Demand.namedPaths (d : Demand) : List String :=
  (d.condition.map Condition.joinPaths).getD [] ++ d.order.filterMap OrderTerm.path ++ d.paths

/-- The tables of a request about a model. -/
def JoinTree.ofDemand (catalog : Catalog) (model : String) (d : Demand) : Build JoinTree := do
  let access ← Build.ofExcept (catalog.access model)
  let tree ← JoinTree.single access
  let tree := { tree with
    root := { tree.root with ignoreDeleted := d.ignoreDeleted }, place := d.place }
  let tree ← tree.addJoins catalog d.joins
  let tree ← tree.addPaths catalog tree.root d.namedPaths true
  let tree ← match d.wanted with
    | .nothing => pure tree
    | .paths paths => tree.select catalog paths
  tree.addEnforcedPaths catalog

/-! ## Computed columns and order -/

namespace JoinTree

/-- The scope in which the caller's own paths are read. -/
def callerScope (tree : JoinTree) : Scope :=
  ⟨tree, tree.root, true⟩

/-- The value of a template, if it has one. -/
def templateBinding (base : String) (value : Option Value) : List Binding :=
  (value.map fun v => [⟨Params.valuePath base, v⟩]).getD []

/-- The computed columns of a query, and the values they bind. -/
def computedColumns (names : Names Scope) (tree : JoinTree) (computed : List ComputedColumn) :
    Except CompileError (List ResultColumn × List Binding) := do
  let columns ← computed.zipIdx.mapM fun (c, i) => do
    let base := "select[" ++ Nat.repr i ++ "]"
    let sql ← names.fill tree.callerScope c.template c.paths base
    return (ResultColumn.leaf ⟨.filled sql, c.name, false, false⟩, templateBinding base c.value)
  return (columns.map (·.1), columns.flatMap (·.2))

/-- The column of an aggregate item. -/
def aggregateColumn (d : Dialect) (names : Names Scope) (tree : JoinTree) (i : AggregateItem) :
    Except CompileError ResultColumn :=
  if i.countsRows then .ok (.leaf ⟨.rowCount, i.resultName, false, false⟩)
  else do
    let column ← names.column tree.callerScope i.path
    let isGroupKey := i.function.isGroupKey
    let expression := match i.template with
      | some template =>
        if isGroupKey then .groupKey template column else .aggregate i.function d column
      | none => .aggregate i.function d column
    return .leaf ⟨expression, i.resultName, false, isGroupKey⟩

/-- A term of the order, which is the one at place `i` of the request. A term that names nothing is
left out. -/
def orderKey? (names : Names Scope) (tree : JoinTree) (o : OrderTerm) (i : Nat) :
    Except CompileError (Option OrderKey) :=
  let base := "o" ++ Nat.repr i
  match o.template, o.path with
  | some template, path => do
    let sql ← names.fill tree.callerScope template path.toList base
    return some ⟨.filled sql, o.ascending, templateBinding base o.value⟩
  | none, some path => do
    let column ← names.column tree.callerScope path
    return some ⟨.column column, o.ascending, []⟩
  | none, none => return none

/-- The order of a query. -/
def orderKeys (names : Names Scope) (tree : JoinTree) (order : List OrderTerm) :
    Except CompileError (List OrderKey) := do
  let keys ← order.zipIdx.mapM fun (o, i) => tree.orderKey? names o i
  return keys.filterMap id

end JoinTree
end QueryCompiler
