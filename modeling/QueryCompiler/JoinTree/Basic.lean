import QueryCompiler.Catalog
import QueryCompiler.Build

/-!
# Join trees

The tables of one query. A table is known by the path of relationships that leads to it from the
first table, the root, whose path is empty. There is one table a path, and each has an alias of its
own.
-/

namespace QueryCompiler

/-- The relationships that lead from the root to a table. -/
abbrev TablePath := List String

/-- What is selected of a field. -/
inductive Choice where
  | whole
  /-- These members of a group. -/
  | members (names : List String)
  deriving DecidableEq, Repr

/-- A table of a query. -/
structure Table where
  path : TablePath
  number : Nat
  access : Access
  /-- Rows that are marked as deleted are read too. -/
  ignoreDeleted : Bool := false
  /-- The selected fields. A field may be chosen several times, which adds up. -/
  chosen : List (String × Choice) := []

/-- The relationship by which a table hangs on another one. -/
structure Link where
  name : String
  relation : Relation
  parentNumber : Nat
  parentModel : Model

/-- A joined table. -/
structure Joined extends Table where
  link : Link
  type : JoinType := .left
  /-- What joined rows are asked to meet. -/
  condition : Option Condition := none

/-- The tables of a query, the joined ones in the order in which they were joined. -/
structure JoinTree where
  root : Table
  joined : List Joined := []
  /-- Set where joins that keep unmatched rows of the joined table have no place. -/
  place : Option JoinPlace := none

/-- What a path leads to. -/
inductive Found where
  /-- A field; that of a relationship on the table it leads to. -/
  | field (field : Field)
  | member (group : Field) (member : BasicField)

/-- Whether a path leads to a relationship. -/
def Found.isRelation : Found → Bool
  | .field f => f.isRelation
  | .member _ _ => false

/-- What a path leads to that may end in a wildcard. -/
inductive Target where
  | found (found : Found)
  | wildcard
  | groupWildcard (group : Field)

/-- Whether a path leads to a relationship. -/
def Target.isRelation : Target → Bool
  | .found f => f.isRelation
  | .wildcard | .groupWildcard _ => false

namespace JoinTree

/-- All tables, the root first. -/
def tables (t : JoinTree) : List Table :=
  t.root :: t.joined.map Joined.toTable

/-- The table at the other end of a relationship, if it is joined. -/
def child? (t : JoinTree) (parent : Table) (name : String) : Option Joined :=
  t.joined.find? fun j => j.path == parent.path ++ [name]

/-- Changes every table. -/
def mapTables (t : JoinTree) (f : Table → Table) : JoinTree :=
  { t with root := f t.root, joined := t.joined.map fun j => { j with toTable := f j.toTable } }

/-- Changes the table at a path. -/
def mapTable (t : JoinTree) (path : TablePath) (f : Table → Table) : JoinTree :=
  t.mapTables fun table => if table.path = path then f table else table

/-- Gives a joined table the type, the condition and the reading of deleted rows that a join asks
for. -/
def applyJoin (t : JoinTree) (path : TablePath) (join : Join) : JoinTree :=
  { t with joined := t.joined.map fun j =>
      if j.path = path then
        { j with
          ignoreDeleted := join.ignoreDeleted, type := join.type, condition := join.condition }
      else j }

/-! ## The order of joins -/

/-- Puts a table behind the last table below `parent`. -/
def placeBelow (parent : TablePath) (j : Joined) : List Joined → List Joined
  | [] => [j]
  | k :: ks =>
    if (k :: ks).any (fun x => parent.isPrefixOf x.path) then k :: placeBelow parent j ks
    else j :: k :: ks

/-- The joined tables as a query lists them: each behind the table that it hangs on and all that
were joined there before it. -/
def inOrder (t : JoinTree) : List Joined :=
  t.joined.foldl (fun order j => placeBelow j.path.dropLast j order) []

end JoinTree
end QueryCompiler
