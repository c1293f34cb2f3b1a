import QueryCompiler.Proofs.Enforcement.Rendering
import QueryCompiler.Proofs.Compile.Outcome
import QueryCompiler.Proofs.Compile.Parts

/-!
# Every table carries what it is held to

Whichever way a table comes into a compiled query, as its root, by a join or as the target of a
subquery, and at whatever depth, its rows are tied to the table it hangs on and held to what reads of
its model are held to.
-/

namespace QueryCompiler

open Build

/-- What a request asks of tables. Deletions and hierarchies start from a table that stands alone. -/
def Request.demand? (d : Dialect) : Request → Option Demand
  | .query _ q => some q.demand
  | .count _ condition joins ignoreDeleted => some { condition, joins, ignoreDeleted }
  | .existence _ condition joins ignoreDeleted =>
    some { condition, joins, ignoreDeleted, place := some .existenceCheck }
  | .aggregate _ q => some q.demand
  | .vectorSearch _ q => (q.toQuery d).toOption.map Query.demand
  | .deleteWhere _ _ _ | .recursive _ _ | .recursiveCount _ _ => none

/-- The clauses of a query carry what the tables of a tree are held to. -/
structure Tail.CarriesFor (catalog : Catalog) (a : Access) (d : Demand) (tree : JoinTree)
    (tail : Tail) : Prop where
  access : tree.root.access = a
  isTree : tree.IsTree
  serves : tree.Serves catalog d.ignoreDeleted (Keyed.sortBy JoinOf.path d.joins)
  model : tail.source.model = some a.model
  number : tail.source.number = tree.root.number
  joins : Carries catalog tree tree.inOrder tail.source.joins
  enforced : Enforces catalog tree tree.root tail.filter.enforced
  requested : RendersOpt catalog ⟨tree, tree.root, true⟩ d.condition tail.filter.requested

variable {catalog : Catalog} {names : Names Scope} {tree : JoinTree} {access : Access}
  {p p' : Progress}

theorem JoinTree.tail_carries (hn : names.Render catalog) {d : Demand} {n n' : Nat}
    (hmade : Made catalog true access d.joins n tree n')
    (hserves : tree.Serves catalog d.ignoreDeleted (Keyed.sortBy JoinOf.path d.joins))
    {keys : List Expression} {order : List OrderTerm} {page : Option Page} {t : Tail}
    (h : (tree.tail catalog names false d.condition keys order page).run p = .ok t p') :
    t.CarriesFor catalog access d tree := by
  obtain ⟨q, q', hclauses, henforced, hasked, -, -, hmodel, hnumber, -⟩ := JoinTree.tail_eq_ok h
  have hheld : (tree.enforced catalog names tree.root rootMark).run q = .ok t.filter.enforced q' := by
    rcases henforced with ⟨hgrown, -⟩ | ⟨-, hheld⟩
    · exact absurd hgrown Bool.false_ne_true
    · exact hheld
  have hw := hmade.walked
  have hroot := hmade.access_eq
  refine ⟨hroot, hmade.isTree, hserves, ?_, hnumber, ?_, ?_, ?_⟩
  · rw [hmodel, hroot]
    rfl
  · exact clauses_carry hn hw hmade.isTree hclauses
  · exact enforced_enforces hn ⟨hw, .root⟩ hheld
  · exact Condition.resolve?_renders hn ⟨hw, .root⟩ hasked

theorem Query.compile_carries (hn : names.Render catalog) {model : String} {q : Query} {s : Select}
    (h : (q.compile catalog names model none).run p = .ok s p') :
    s.hierarchy = none ∧ ∃ access tree, catalog.access model = .ok access ∧
      s.tail.CarriesFor catalog access q.demand tree := by
  obtain ⟨access, tree, columns, r, haccess, hmade, hserves, -, -, hnone, htail⟩ :=
    Query.compile_eq_ok h
  exact ⟨hnone, access, tree, haccess,
    JoinTree.tail_carries (d := q.demand) hn hmade hserves htail⟩

/-- A compiled request for rows, a count, a check for existence, an aggregate or nearest neighbours:
its joins are those of a tree of tables, and each of them, its root and every table of a subquery
carries what its table is held to. -/
theorem Request.statement_carries {r : Request} {statement : Statement} {events : List Event}
    (hkind : r.kind ∈ [.query, .count, .existence, .aggregate, .vectorSearch])
    (h : r.compile catalog = (.ok statement, events)) :
    ∃ d access s tree, r.demand? catalog.dialect = some d ∧ catalog.access r.model = .ok access ∧
      statement.command = .select s ∧ s.hierarchy = none ∧
      s.tail.CarriesFor catalog access d tree := by
  obtain ⟨depth, q', hbuild, -⟩ := Request.build_of_compile h
  have hn := Names.render_ofTree catalog depth
  cases r with
  | query model q =>
    obtain ⟨s, hs, hcommand⟩ := run_map_eq_ok.1 hbuild
    obtain ⟨hnone, access, tree, haccess, hcarries⟩ := Query.compile_carries hn hs
    exact ⟨q.demand, access, s, tree, rfl, haccess, hcommand.symm, hnone, hcarries⟩
  | count model condition joins ignoreDeleted =>
    obtain ⟨s, hs, hcommand⟩ := run_map_eq_ok.1 hbuild
    obtain ⟨access, tree, r, haccess, hmade, hserves, -, -, hnone, htail⟩ := countRows_eq_ok hs
    exact ⟨_, access, s, tree, rfl, haccess, hcommand.symm, hnone,
      JoinTree.tail_carries hn hmade hserves htail⟩
  | existence model condition joins ignoreDeleted =>
    obtain ⟨s, hs, hcommand⟩ := run_map_eq_ok.1 hbuild
    obtain ⟨access, tree, r, haccess, hmade, hserves, -, -, hnone, htail⟩ := checkExistence_eq_ok hs
    exact ⟨_, access, s, tree, rfl, haccess, hcommand.symm, hnone,
      JoinTree.tail_carries hn hmade hserves htail⟩
  | aggregate model q =>
    obtain ⟨s, hs, hcommand⟩ := run_map_eq_ok.1 hbuild
    obtain ⟨access, tree, columns, r, haccess, hmade, hserves, -, -, -, hnone, htail⟩ :=
      AggregateQuery.compile_eq_ok hs
    exact ⟨_, access, s, tree, rfl, haccess, hcommand.symm, hnone,
      JoinTree.tail_carries hn hmade hserves htail⟩
  | vectorSearch model q =>
    obtain ⟨s, hs, hcommand⟩ := run_map_eq_ok.1 hbuild
    obtain ⟨query, _, hrun, hs⟩ := run_bind_eq_ok.1 hs
    obtain ⟨hquery, rfl⟩ := run_ofExcept_eq_ok.1 hrun
    obtain ⟨hnone, access, tree, haccess, hcarries⟩ := Query.compile_carries hn hs
    refine ⟨query.demand, access, s, tree, ?_, haccess, hcommand.symm, hnone, hcarries⟩
    rw [demand?, hquery]
    rfl
  | deleteWhere _ _ _ => exact absurd hkind (by simp [kind])
  | recursive _ _ => exact absurd hkind (by simp [kind])
  | recursiveCount _ _ => exact absurd hkind (by simp [kind])

/-- Employees of departments, both marked as deleted and held to a company; departments are only
seen where they have employees. -/
def companyStaff : Catalog where
  models := [
    ("Department",
      { name := "Department", table := "department"
        fields := [⟨"id", .basic ⟨"id", "id", true⟩⟩,
          ⟨"companyId", .basic ⟨"companyId", "company_id", true⟩⟩,
          ⟨"delete_flag", .basic ⟨"delete_flag", "delete_flag", false⟩⟩,
          ⟨"employees", .relation ⟨.many, "Employee", ["departmentId"]⟩⟩] }),
    ("Employee",
      { name := "Employee", table := "employee"
        fields := [⟨"id", .basic ⟨"id", "id", true⟩⟩, ⟨"name", .basic ⟨"name", "name", true⟩⟩,
          ⟨"departmentId", .basic ⟨"departmentId", "department_id", true⟩⟩,
          ⟨"delete_flag", .basic ⟨"delete_flag", "delete_flag", false⟩⟩,
          ⟨"department", .relation ⟨.one, "Department", ["departmentId"]⟩⟩] })]
  permissions := [("Department",
    { rows := some (.related "employees" (some (.compare "name" .isNotNull .null false)) []
        false) })]

/-- Employees with their departments, deleted ones too. -/
def withDepartments : Query where
  joins := [{ path := "department", condition := some (.compare "companyId" .eq (.text "1") false),
              ignoreDeleted := true }]
  select := some ["name"]

/-- The join carries the caller's rule and no mark, the root and the subquery of the rule carry the
mark. -/
theorem withDepartments_carries : ∃ statement events d access s tree,
    (Request.query "Employee" withDepartments).compile companyStaff = (.ok statement, events) ∧
    statement.command = .select s ∧ s.tail.CarriesFor companyStaff access d tree ∧
    s.tail.sourceText = " FROM employee AS t0 LEFT JOIN department AS t1 ON t1.id = t0.department_id" ++
      " AND (EXISTS (SELECT 1 FROM employee AS t2 WHERE t2.department_id = t1.id" ++
      " AND t2.delete_flag = #\x7bj20.v\x7d AND t2.name IS NOT NULL)" ++
      " AND t1.company_id = #\x7bj11.v\x7d) WHERE t0.delete_flag = #\x7bc0.v\x7d" := by
  obtain ⟨statement, events, hcompile⟩ : ∃ statement events,
      (Request.query "Employee" withDepartments).compile companyStaff = (.ok statement, events) :=
    ⟨_, _, rfl⟩
  obtain ⟨d, access, s, tree, -, -, hcommand, -, hcarries⟩ :=
    Request.statement_carries (by decide) hcompile
  refine ⟨statement, events, d, access, s, tree, hcompile, hcommand, hcarries, ?_⟩
  cases hcompile
  cases hcommand
  decide +kernel

end QueryCompiler
