import QueryCompiler.Params
import QueryCompiler.Text.Replace

/-!
# Columns and templates

A column is named by itself or behind the alias of its table. A template is SQL with slots:
`$COL[n]` for the column at place `n`, `$COL` for the first column, and `EXPR` for the path of a
value.
-/

namespace QueryCompiler

/-- What stands before a column's name: nothing, the row of a recursive table, or a numbered
table. -/
inductive Qualifier where
  | bare
  | row
  | table (number : Nat)
  deriving DecidableEq, Repr

/-- The alias of a numbered table. -/
def tableAlias (n : Nat) : String :=
  "t" ++ Nat.repr n

/-- The alias of the row inside a recursive table. -/
def rowAlias : String := "t"

/-- A column as it is named in SQL. -/
structure Column where
  qualifier : Qualifier
  name : String
  deriving DecidableEq, Repr

/-- The text of a column. -/
def Column.text (c : Column) : String :=
  match c.qualifier with
  | .bare => c.name
  | .row => rowAlias ++ "." ++ c.name
  | .table n => tableAlias n ++ "." ++ c.name

/-- Two columns that have to be equal. -/
structure Equality where
  left : Column
  right : Column
  deriving DecidableEq, Repr

/-- The text of an equality. -/
def Equality.text (e : Equality) : String :=
  e.left.text ++ " = " ++ e.right.text

/-- The text of equalities that have to hold together. -/
def Equality.texts (es : List Equality) : String :=
  " AND ".intercalate (es.map Equality.text)

/-- The slot of the column at place `i`. -/
def columnSlot (i : Nat) : String :=
  "$COL[" ++ Nat.repr i ++ "]"

/-- Fills a template: the numbered slots from the last to the first, then the slot of the first
column, then the slot of the path. Each step reads all the text that the steps before it left. -/
def fillTemplate (template : String) (columns : List String) (path : String) : String :=
  let numbered := columns.zipIdx.foldr (fun p s => Text.replace s (columnSlot p.2) p.1) template
  let first := match columns with
    | [] => numbered
    | c :: _ => Text.replace numbered "$COL" c
  Text.replace first "EXPR" path

/-- A template with what goes into its slots. -/
structure Filled where
  template : String
  columns : List Column
  path : String

/-- The text of a filled template. -/
def Filled.text (f : Filled) : String :=
  fillTemplate f.template (f.columns.map Column.text) f.path

end QueryCompiler
