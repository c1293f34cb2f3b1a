import QueryCompiler.Sql.Predicate
import QueryCompiler.Sql.Result

/-!
# Commands

The SQL commands that requests are compiled to. Text and bindings of a command are read off its
parts.
-/

namespace QueryCompiler

/-- The path of the number of rows of a page. -/
def rowsParam : String := "_rows"

/-- The path of the number of rows before a page. -/
def offsetParam : String := "_offset"

/-- The path of the value that marks rows as deleted. -/
def deleteFlagParam : String := "_delete_flag"

/-- A part of the result, as rows to pass over and rows to take. -/
structure Limit where
  rows : UInt32
  offset : UInt64
  deriving DecidableEq, Repr

/-- The paging clause. The offset is named only if rows are passed over. -/
def Limit.text (l : Limit) (d : Dialect) : String :=
  " " ++ d.limitClause rowsParam (if 0 < l.offset then some offsetParam else none)

/-- The values that the paging clause names. -/
def Limit.bindings (l : Limit) : List Binding :=
  ⟨rowsParam, .uint l.rows.toUInt64⟩ ::
    if 0 < l.offset then [⟨offsetParam, .uint l.offset⟩] else []

/-- A term of the order, with the value that it binds. -/
structure OrderKey where
  expression : Expression
  ascending : Bool
  bindings : List Binding

/-- The text of a term of the order. -/
def OrderKey.text (k : OrderKey) : String :=
  k.expression.text ++ if k.ascending then "" else " DESC"

/-- A table that grows from the rows meeting `anchor` by rows that `link` ties to rows it has. -/
structure Hierarchy where
  columns : List String
  model : Model
  anchor : Filter Predicate
  /-- What further rows are held to. -/
  step : Option Predicate
  link : List Equality

/-- The alias of the growing table, which takes the place of the first table of the query. -/
def hierarchyAlias : Nat := 0

/-- The text of the growing table. -/
def Hierarchy.text (h : Hierarchy) (d : Dialect) : String :=
  let row := ", ".intercalate (h.columns.map fun c => (Column.mk .row c).text)
  let source := h.model.qualifiedTable ++ " " ++ rowAlias
  let step := match h.step with
    | some p => p.text ++ " AND "
    | none => ""
  d.recursiveWith ++ " " ++ tableAlias hierarchyAlias ++ "(" ++ ", ".intercalate h.columns ++
    ") AS (SELECT " ++ row ++ " FROM " ++ source ++ " WHERE " ++ h.anchor.text ++
    " UNION ALL SELECT " ++ row ++ " FROM " ++ source ++ " JOIN " ++ tableAlias hierarchyAlias ++
    " ON " ++ step ++ Equality.texts h.link ++ ") "

/-- The values that the growing table binds. -/
def Hierarchy.bindings (h : Hierarchy) : List Binding :=
  h.anchor.requested.bindings ++ h.anchor.enforced.bindings ++
    (h.step.map Predicate.bindings).getD []

/-- What is selected: the number one, or columns. -/
inductive SelectList where
  | one
  | columns (columns : List ResultColumn)

/-- The text of what is selected. -/
def SelectList.text (d : Dialect) : SelectList → String
  | .one => "1"
  | .columns cs => ResultColumn.selectText d cs

/-- The table that a query starts from, and the joined ones. -/
structure From where
  /-- The model whose table it is; if missing, the query starts from its growing table. -/
  model : Option Model
  number : Nat
  joins : List (JoinClause Predicate)

/-- The text of the tables of a query. -/
def From.text (f : From) : String :=
  let first := match f.model with
    | some model => model.qualifiedTable ++ " AS " ++ tableAlias f.number
    | none => tableAlias hierarchyAlias
  " FROM " ++ first ++ Predicate.joinsText f.joins

/-- A clause that is left out if it says nothing. -/
def optionalClause (word s : String) : String :=
  if s.isEmpty then "" else word ++ s

/-- The clauses behind the selected columns. -/
structure Tail where
  source : From
  filter : Filter Predicate
  groupKeys : List Expression
  order : List OrderKey
  limit : Option Limit

/-- The text of the tables and of the filter. -/
def Tail.sourceText (t : Tail) : String :=
  t.source.text ++ optionalClause " WHERE " t.filter.text

/-- The text of the clauses behind the selected columns. -/
def Tail.text (t : Tail) (d : Dialect) : String :=
  t.sourceText ++
    (if t.groupKeys.isEmpty then ""
      else " GROUP BY " ++ ", ".intercalate (t.groupKeys.map Expression.text)) ++
    optionalClause " ORDER BY " (", ".intercalate (t.order.map OrderKey.text)) ++
    (match t.limit with
      | some l => l.text d
      | none => "")

/-- The values that the clauses behind the selected columns bind. -/
def Tail.bindings (t : Tail) : List Binding :=
  Predicate.joinsBindings t.source.joins ++ t.filter.bindings ++
    t.order.flatMap OrderKey.bindings ++ (t.limit.map Limit.bindings).getD []

/-- A query. -/
structure Select where
  hierarchy : Option Hierarchy := none
  list : SelectList
  /-- The values of the computed columns. -/
  listBindings : List Binding := []
  tail : Tail

/-- The text of a query. -/
def Select.text (s : Select) (d : Dialect) : String :=
  (match s.hierarchy with
    | some h => h.text d
    | none => "") ++
  "SELECT " ++ s.list.text d ++ s.tail.text d

/-- The values that a query binds. -/
def Select.bindings (s : Select) : List Binding :=
  (s.hierarchy.map Hierarchy.bindings).getD [] ++ s.listBindings ++ s.tail.bindings

/-- A command to the database. -/
inductive Command where
  | select (query : Select)
  /-- Marks the rows that pass the filter as deleted, in the column `flag`. -/
  | mark (model : Model) (flag : String) (filter : Filter Predicate)
  /-- Removes the rows that pass the filter. -/
  | remove (model : Model) (filter : Filter Predicate)

namespace Command

/-- The text of a command. -/
def text (d : Dialect) : Command → String
  | .select query => query.text d
  | .mark model flag filter =>
    "UPDATE " ++ model.qualifiedTable ++ " SET " ++ flag ++ " = " ++
      Params.placeholder deleteFlagParam ++ " WHERE " ++ filter.text
  | .remove model filter => "DELETE FROM " ++ model.qualifiedTable ++ " WHERE " ++ filter.text

/-- The values that a command binds. -/
def bindings : Command → List Binding
  | .select query => query.bindings
  | .mark _ _ filter => filter.bindings ++ [⟨deleteFlagParam, .bool true⟩]
  | .remove _ filter => filter.bindings

/-- The result columns of a command. -/
def columns : Command → List ResultColumn
  | .select query =>
    match query.list with
    | .one => []
    | .columns cs => cs
  | _ => []

end Command
end QueryCompiler
