import QueryCompiler.Condition.Basic
import QueryCompiler.Dialect.Syntax

/-!
# Requests

What a caller can ask for: rows of a model, counts, aggregates, hierarchies and nearest neighbours.
-/

namespace QueryCompiler

/-- A page of rows, counted from 1. A page of no size is the whole result. -/
structure Page where
  current : UInt32
  size : UInt32
  deriving DecidableEq, Repr

/-- Whether the page is the whole result. -/
def Page.isUnbounded (p : Page) : Bool :=
  p.size == 0

/-- How many rows stand before the page. Page 0 is read as page 1. -/
def Page.offset (p : Page) : UInt64 :=
  p.size.toUInt64 * (if p.current == 0 then 0 else p.current - 1).toUInt64

/-- A term to order by: a column, or an expression in a template over it. -/
structure OrderTerm where
  path : Option String
  ascending : Bool := true
  template : Option String := none
  value : Option Value := none

/-- A computed column, by a template over columns and a value. -/
structure ComputedColumn where
  name : String
  template : String
  paths : List String := []
  value : Option Value := none

/-- A request for rows of a model. -/
structure Query where
  condition : Option Condition := none
  joins : List Join := []
  /-- The paths to select; if missing, all fields that are permitted and selected by default. -/
  select : Option (List String) := none
  computed : List ComputedColumn := []
  order : List OrderTerm := []
  page : Option Page := none
  ignoreDeleted : Bool := false
  /-- Whether the columns of a relationship are grouped; if missing, as the settings say. -/
  nested : Option Bool := none

instance : Inhabited Query := ⟨{}⟩

/-! ## Aggregates -/

/-- How a column is aggregated. A plain column is a key of the grouping. -/
inductive AggregateFunction where
  | avg
  | count
  | countDistinct
  | jsonArray
  | jsonArrayDistinct
  | list
  | listDistinct
  | max
  | min
  | plain
  | sum
  deriving DecidableEq, Repr

/-- The expression of an aggregate over a column. -/
def AggregateFunction.write (f : AggregateFunction) (d : Dialect) (column : String) : String :=
  match f with
  | .plain => column
  | .count => "COUNT(" ++ column ++ ")"
  | .sum => "SUM(" ++ column ++ ")"
  | .avg => "AVG(" ++ column ++ ")"
  | .max => "MAX(" ++ column ++ ")"
  | .min => "MIN(" ++ column ++ ")"
  | .countDistinct => "COUNT(DISTINCT " ++ column ++ ")"
  | .list => d.listAggregate column false
  | .listDistinct => d.listAggregate column true
  | .jsonArray => d.jsonAggregate column false
  | .jsonArrayDistinct => d.jsonAggregate column true

/-- Whether the column is a key of the grouping. -/
def AggregateFunction.isGroupKey (f : AggregateFunction) : Bool :=
  f == .plain

/-- A column of an aggregate request. -/
structure AggregateItem where
  /-- The path of the column; `*` and `1` count rows. -/
  path : String
  function : AggregateFunction
  label : Option String := none
  /-- The expression of a group key, over its column. -/
  template : Option String := none

/-- Whether the item counts rows and not the values of a column. -/
def AggregateItem.countsRows (i : AggregateItem) : Bool :=
  i.function == .count && (i.path == "*" || i.path == "1")

/-- The name of the item's column in the result. -/
def AggregateItem.resultName (i : AggregateItem) : String :=
  i.label.getD i.path

/-- A request for aggregates over the rows of a model. -/
structure AggregateQuery where
  items : List AggregateItem := []
  condition : Option Condition := none
  joins : List Join := []
  order : List OrderTerm := []
  page : Option Page := none
  ignoreDeleted : Bool := false

/-! ## Hierarchies and neighbours -/

/-- Which way a hierarchy is followed. -/
inductive Direction where
  | down
  | up
  deriving DecidableEq, Repr, Inhabited

/-- The direction's name. -/
def Direction.name : Direction → String
  | .down => "down"
  | .up => "up"

/-- A request for the rows that are reached from the rows meeting `start`. -/
structure HierarchyQuery where
  query : Query := {}
  start : Option Condition := none
  direction : Direction := .down

/-- A request for the rows whose vectors are nearest to a given one. -/
structure NearestQuery where
  path : String
  vector : List Float32
  count : UInt32
  maxDistance : Option Float := none
  condition : Option Condition := none
  select : Option (List String) := none
  /-- The name of a column with the distance, if one is wanted. -/
  distanceName : Option String := none

end QueryCompiler
