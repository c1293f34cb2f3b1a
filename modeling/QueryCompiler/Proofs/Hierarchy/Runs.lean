import QueryCompiler.Proofs.Compile.Outcome
import QueryCompiler.Proofs.Compile.Parts
import QueryCompiler.Proofs.Hierarchy.Table

/-!
# The runs of hierarchies

Queries and counts over a hierarchy are compiled by the same steps, once there are rows to start from:
the growing table, the tables of the query around it, and the clauses of that query.
-/

namespace QueryCompiler

open Build

variable {catalog : Catalog} {model : String} {q : HierarchyQuery}

namespace HierarchyQuery

variable {names : Names Scope} {access : Access} {start : Predicate} {s : Select}
  {p p' r : Progress}

/-- The runs of a query or a count over a hierarchy. -/
theorem select_eq_ok (haccess : catalog.access model = .ok access)
    (hstart : (q.start? catalog access).run p = .ok start r) (htext : start.text.isEmpty = false)
    (h : (q.rows catalog names model).run p = .ok s p' ∨
      (q.count catalog names model).run p = .ok s p') :
    ∃ table tree q₁ q₂ order page, (q.table catalog access start).run r = .ok table q₁ ∧
      (JoinTree.ofDemand catalog model q.query.demand).run q₁ = .ok tree q₂ ∧
      order ⊆ q.query.order ∧
      (tree.tail catalog names true q.query.condition [] order page).run q₂ = .ok s.tail p' ∧
      s.hierarchy = some table ∧ (s.list = .columns countColumns ∨ ∃ columns bindings,
        q.query.columns catalog names tree = .ok (columns, bindings) ∧ s.list = .columns columns) := by
  rcases h with h | h
  · obtain ⟨access', start', _, haccess', hstart', h⟩ := rows_eq_ok h
    obtain rfl := Except.ok.inj (haccess.symm.trans haccess')
    obtain ⟨rfl, rfl⟩ := EStateM.Result.ok.inj (hstart.symm.trans hstart')
    rcases h with ⟨hempty, -⟩ | ⟨-, table, q₁, htable, h⟩
    · exact absurd (htext.symm.trans hempty) Bool.false_ne_true
    obtain ⟨tree, q₂, columns, htree, hcolumns, hlist, hsome, htail⟩ := Query.compile_run.1 h
    exact ⟨table, tree, q₁, q₂, _, _, htable, htree, List.Subset.refl _, htail, hsome,
      .inr ⟨columns, _, hcolumns, hlist⟩⟩
  · obtain ⟨access', start', _, haccess', hstart', h⟩ := count_run h
    obtain rfl := Except.ok.inj (haccess.symm.trans haccess')
    obtain ⟨rfl, rfl⟩ := EStateM.Result.ok.inj (hstart.symm.trans hstart')
    rcases h with ⟨hempty, -⟩ | ⟨-, table, tree, q₁, q₂, htable, htree, hlist, -, hsome, htail⟩
    · exact absurd (htext.symm.trans hempty) Bool.false_ne_true
    exact ⟨table, tree, q₁, q₂, [], none, htable, htree, List.nil_subset _, htail, hsome, .inl hlist⟩

end HierarchyQuery

/-- What a compiled request over a hierarchy selects, and the run that it comes from. -/
theorem Request.select_of_compile {r : Request} {statement : Statement} {events : List Event}
    (hr : r = .recursive model q ∨ r = .recursiveCount model q)
    (h : r.compile catalog = (.ok statement, events)) :
    ∃ s depth p, statement.command = .select s ∧ statement.dialect = catalog.dialect ∧
      ((q.rows catalog (.ofTree catalog depth) model).run {} = .ok s p ∨
        (q.count catalog (.ofTree catalog depth) model).run {} = .ok s p) := by
  obtain ⟨depth, p, hbuild, hdialect⟩ := Request.build_of_compile h
  rcases hr with rfl | rfl
  · obtain ⟨s, hs, hcommand⟩ := run_map_eq_ok.1 hbuild
    exact ⟨s, depth, p, hcommand.symm, hdialect, .inl hs⟩
  · obtain ⟨s, hs, hcommand⟩ := run_map_eq_ok.1 hbuild
    exact ⟨s, depth, p, hcommand.symm, hdialect, .inr hs⟩

end QueryCompiler
