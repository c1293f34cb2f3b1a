import QueryCompiler.Compile.Select

/-!
# Nearest neighbours

A search for the rows whose vectors are nearest to a given one is a query that is ordered by the
distance and takes the first rows.
-/

namespace QueryCompiler

/-- Distances in SQL are written out in full, without an exponent and without a fraction of zero. -/
def distanceLayout : Decimal.Layout where
  tie := .upward
  positional _ := true
  wholeMark := ""
  nan := "NaN"
  infinity := "inf"

/-- The query that a search for nearest neighbours is. -/
def NearestQuery.toQuery (d : Dialect) (q : NearestQuery) : Except CompileError Query := do
  let ordering ← d.distanceTemplate true
  let distance ← d.distanceTemplate false
  let vector := Value.list (q.vector.map fun x => .float x.toFloat)
  let within := q.maxDistance.map fun bound =>
    .custom (distance ++ " <= " ++ distanceLayout.write bound) [q.path] (some vector)
  return {
    condition := Condition.both? q.condition within
    select := q.select
    order := [{ path := some q.path, template := some ordering, value := some vector }]
    page := some ⟨1, q.count⟩
    computed := q.distanceName.toList.map fun name =>
      { name, template := distance, paths := [q.path], value := some vector } }

/-- A search for nearest neighbours. -/
def NearestQuery.compile (catalog : Catalog) (names : Names Scope) (model : String)
    (q : NearestQuery) : Build Select := do
  let query ← Build.ofExcept (q.toQuery catalog.dialect)
  query.compile catalog names model none

end QueryCompiler
