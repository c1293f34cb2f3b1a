import QueryCompiler.Compile.Delete
import QueryCompiler.Compile.Hierarchy
import QueryCompiler.Compile.Nearest
import QueryCompiler.Statement

/-!
# Compiling requests

Every request has its kind and its model, and is compiled to a statement or rejected. Either way the
events of its compilation end with one that tells which.
-/

namespace QueryCompiler

/-- A request to be compiled. -/
inductive Request where
  | query (model : String) (query : Query)
  | count (model : String) (condition : Option Condition) (joins : List Join) (ignoreDeleted : Bool)
  | existence (model : String) (condition : Option Condition) (joins : List Join)
      (ignoreDeleted : Bool)
  | aggregate (model : String) (query : AggregateQuery)
  | deleteWhere (model : String) (condition : Condition) (physical : Bool)
  | recursive (model : String) (query : HierarchyQuery)
  | recursiveCount (model : String) (query : HierarchyQuery)
  | vectorSearch (model : String) (query : NearestQuery)

namespace Request

/-- The kind of the statement that a request is compiled to. -/
def kind : Request → StatementKind
  | .query _ _ => .query
  | .count _ _ _ _ => .count
  | .existence _ _ _ _ => .existence
  | .aggregate _ _ => .aggregate
  | .deleteWhere _ _ _ => .deleteWhere
  | .recursive _ _ => .recursive
  | .recursiveCount _ _ => .recursiveCount
  | .vectorSearch _ _ => .vectorSearch

/-- The model that a request is about. -/
def model : Request → String
  | .query model _ => model
  | .count model _ _ _ => model
  | .existence model _ _ _ => model
  | .aggregate model _ => model
  | .deleteWhere model _ _ => model
  | .recursive model _ => model
  | .recursiveCount model _ => model
  | .vectorSearch model _ => model

/-- How many conditions over related rows stand in a request. -/
def relatedCount : Request → Nat
  | .query _ q => Condition.relatedCountOpt q.condition + Condition.relatedCountJoins q.joins
  | .count _ c joins _ => Condition.relatedCountOpt c + Condition.relatedCountJoins joins
  | .existence _ c joins _ => Condition.relatedCountOpt c + Condition.relatedCountJoins joins
  | .aggregate _ q => Condition.relatedCountOpt q.condition + Condition.relatedCountJoins q.joins
  | .deleteWhere _ c _ => c.relatedCount
  | .recursive _ q | .recursiveCount _ q =>
    Condition.relatedCountOpt q.query.condition + Condition.relatedCountJoins q.query.joins +
      Condition.relatedCountOpt q.start
  | .vectorSearch _ q => Condition.relatedCountOpt q.condition

/-- The command that a request is compiled to. -/
def build (catalog : Catalog) (names : Names Scope) : Request → Build Command
  | .query model q => .select <$> q.compile catalog names model none
  | .count model c joins ignoreDeleted =>
    .select <$> countRows catalog names model c joins ignoreDeleted
  | .existence model c joins ignoreDeleted =>
    .select <$> checkExistence catalog names model c joins ignoreDeleted
  | .aggregate model q => .select <$> q.compile catalog names model
  | .deleteWhere model c physical => QueryCompiler.deleteWhere catalog model c physical
  | .recursive model q => .select <$> q.rows catalog names model
  | .recursiveCount model q => .select <$> q.count catalog names model
  | .vectorSearch model q => .select <$> q.compile catalog names model

/-- Compiles a request with subqueries nested at most `depth` deep in what subqueries enforce, and
gives the events of the compilation. -/
def compileWithin (depth : Nat) (catalog : Catalog) (r : Request) :
    Except Stop Statement × List Event :=
  match (r.build catalog (.ofTree catalog depth)).run {} with
  | .ok command p =>
    (.ok ⟨r.kind, r.model, catalog.dialect, command⟩, p.events ++ [.compiled r.kind r.model])
  | .error stop p => (.error stop, p.events ++ [.failed r.kind])

/-- A depth that is enough wherever any depth is. A subquery follows from the condition it stands
for and from whether permissions are minded there, so a nest of more subqueries has no end. -/
def depthBound (catalog : Catalog) (r : Request) : Nat :=
  2 * (r.relatedCount + catalog.relatedCount) + 1

/-- Compiles a request, and gives the events of the compilation. -/
def compile (catalog : Catalog) (r : Request) : Except Stop Statement × List Event :=
  r.compileWithin (r.depthBound catalog) catalog

end Request
end QueryCompiler
