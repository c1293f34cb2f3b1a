import QueryCompiler.Sql.Template
import QueryCompiler.Request
import QueryCompiler.Model.Basic

/-!
# Result columns

What a statement selects. A result column is a leaf, or the columns of a relationship grouped under
its path. A leaf carries its whole path as its name, so the selected text is the same with and
without grouping.
-/

namespace QueryCompiler

/-- A selected expression. -/
inductive Expression where
  | column (column : Column)
  | filled (sql : Filled)
  | aggregate (function : AggregateFunction) (dialect : Dialect) (column : Column)
  /-- A group key by a template over its column. -/
  | groupKey (template : String) (column : Column)
  | rowCount
  | raw (text : String)

/-- The text of an expression. -/
def Expression.text : Expression → String
  | .column c => c.text
  | .filled f => f.text
  | .aggregate f d c => f.write d c.text
  | .groupKey template c => Text.replace template "$COL" c.text
  | .rowCount => "COUNT(*)"
  | .raw s => s

/-- One column of the result. -/
structure Leaf where
  expression : Expression
  /-- The name of the column, which is the path of its field. -/
  property : String
  isKey : Bool := false
  isGroupKey : Bool := false

/-- A column of the result, or the columns of a relationship. -/
inductive ResultColumn where
  | leaf (leaf : Leaf)
  | related (cardinality : Cardinality) (property : String) (columns : List ResultColumn)

namespace ResultColumn

instance : Inhabited ResultColumn := ⟨.related .one "" []⟩

/-- The path that a column or a relationship is named by. -/
def property : ResultColumn → String
  | .leaf l => l.property
  | .related _ property _ => property

mutual

/-- The leaves of a column. -/
def leavesOf : ResultColumn → List Leaf
  | .leaf l => [l]
  | .related _ _ columns => leaves columns

/-- The leaves of columns, in the order in which they are selected. -/
def leaves : List ResultColumn → List Leaf
  | [] => []
  | c :: cs => c.leavesOf ++ leaves cs

end

/-- The expressions by which rows are grouped. -/
def groupKeys (columns : List ResultColumn) : List Expression :=
  (leaves columns).filterMap fun l => if l.isGroupKey then some l.expression else none

/-- The selected expressions under their names; a star if there is none. -/
def selectText (d : Dialect) (columns : List ResultColumn) : String :=
  match leaves columns with
  | [] => "*"
  | ls => ", ".intercalate (ls.map fun l => l.expression.text ++ " AS " ++ d.quoteName l.property)

end ResultColumn
end QueryCompiler
