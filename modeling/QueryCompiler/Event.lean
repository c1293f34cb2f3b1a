/-!
# Events

What a compilation reports while it runs.
-/

namespace QueryCompiler

/-- The kinds of statements. -/
inductive StatementKind where
  | aggregate
  | count
  | deleteWhere
  | existence
  | query
  | recursive
  | recursiveCount
  | vectorSearch
  deriving DecidableEq, Repr

/-- The kind's name. -/
def StatementKind.name : StatementKind → String
  | .aggregate => "Aggregate"
  | .count => "Count"
  | .deleteWhere => "DeleteWhere"
  | .existence => "Exists"
  | .query => "Query"
  | .recursive => "Recursive"
  | .recursiveCount => "RecursiveCount"
  | .vectorSearch => "VectorSearch"

/-- What a compilation reports. -/
inductive Event where
  /-- A statement about the model was compiled. -/
  | compiled (kind : StatementKind) (model : String)
  /-- A table of the model was joined. -/
  | joined (model : String)
  /-- A subquery over rows of the model was begun. -/
  | subquery (model : String)
  /-- A compilation was given up. -/
  | failed (kind : StatementKind)
  deriving DecidableEq, Repr

/-- The compilation is over with this event. -/
def Event.isFinal : Event → Bool
  | .compiled _ _ | .failed _ => true
  | .joined _ | .subquery _ => false

end QueryCompiler
