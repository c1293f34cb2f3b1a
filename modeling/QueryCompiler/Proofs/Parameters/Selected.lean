import QueryCompiler.Proofs.Compile.Columns
import QueryCompiler.Proofs.Parameters.Clauses
import QueryCompiler.Proofs.Parameters.Commands
import QueryCompiler.Proofs.Parameters.Layout

/-!
# Columns and the order name what they bind

Columns of tables have plain names and bind nothing. Only templates over a value bind something, and
what plain requests have of them is the distance that nearest neighbours are searched by: it may be
the only term of the order and the only computed column.
-/

namespace QueryCompiler

open Build Params

variable {catalog : Catalog} {lo hi : Nat} {tree : JoinTree} {names : Names Scope}

/-! ## Selected columns -/

theorem ResultColumn.Marks.append {columns others : List ResultColumn} {paths more : List String}
    (h : ResultColumn.Marks columns paths) (h' : ResultColumn.Marks others more) :
    ResultColumn.Marks (columns ++ others) (paths ++ more) := by
  obtain ⟨pathss, hleaves, rfl⟩ := h
  obtain ⟨pathss', hleaves', rfl⟩ := h'
  refine ⟨pathss ++ pathss', ?_, List.flatten_append⟩
  rw [leaves_append]
  exact List.rel_append hleaves hleaves'

namespace JoinTree

section Plain

variable (hplain : catalog.isPlain = true) (htree : Ready catalog lo hi tree)
include hplain htree

end Plain

end JoinTree

/-! ## Templates over a value -/

/-- A query with at most one computed column and either no template in its order or only one term.
Each of the templates names its value once. -/
structure Query.Framed (q : Query) : Prop where
  condition : Condition.isPlainOpt q.condition = true
  joins : Condition.arePlainJoins q.joins = true
  computed : q.computed = [] ∨ ∃ c path, q.computed = [c] ∧ Text.isPlain c.name = true ∧
    NamesOnce c.template ∧ c.paths = [path] ∧ c.value.isSome = true
  order : (∀ o ∈ q.order, o.template = none) ∨ ∃ o path template, q.order = [o] ∧
    o.path = some path ∧ o.template = some template ∧ NamesOnce template ∧ o.value.isSome = true

section Framed

variable (hplain : catalog.isPlain = true) (hn : names.Marking (Scope.Sited catalog))
  (htree : tree.Ready catalog lo hi)
include hn htree

include hplain

end Framed

/-! ## Aggregates -/

end QueryCompiler
