import QueryCompiler.Compile.Select

/-!
# Deleting rows

Rows of one table are deleted by a condition that must say something. Where a model marks deleted
rows, they are marked, unless they are to be removed.
-/

namespace QueryCompiler

/-- The command that deletes the rows meeting a condition, among those the caller is held to. -/
def deleteWhere (catalog : Catalog) (model : String) (condition : Condition) (physical : Bool) :
    Build Command := do
  let access ← Build.ofExcept (catalog.access model)
  let names := Names.ofTable access .bare
  let asked ← condition.resolve catalog.dialect names true (rootMark ++ "1")
  if asked.text.isEmpty then Build.reject (.condition (.unfilteredDelete model))
  else
    let held ← Condition.resolve? catalog.dialect names access.rows? false (rootMark ++ "0")
    match access.model.basicField? deleteFlag with
    | some flag =>
      if physical then return .remove access.model ⟨held, asked⟩
      else return .mark access.model flag.column ⟨held, asked⟩
    | none => return .remove access.model ⟨held, asked⟩

end QueryCompiler
