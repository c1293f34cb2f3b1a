import QueryCompiler.Proofs.Access.Resolve
import QueryCompiler.Proofs.Hierarchy.Table
import QueryCompiler.Proofs.Compile.Columns
import QueryCompiler.Proofs.Compile.Outcome
import QueryCompiler.Proofs.Compile.Parts

/-!
# Statements name only what the caller may name

Whatever a compiled statement reads for the caller is what a path of the request leads to over fields
that the caller may name: the columns of conditions, of terms of the order, of computed columns and of
aggregates, the selected columns, and the relationships of joins and of subqueries.
-/

namespace QueryCompiler

open Build

/-! ## What the parts of a statement read -/

/-- An expression over the columns that paths lead to. -/
def Expression.ReadsPaths (catalog : Catalog) (v : View) (paths : List String) : Expression → Prop
  | .column c | .aggregate _ _ c | .groupKey _ c => List.Forall₂ (v.Reads catalog) paths [c]
  | .filled sql => List.Forall₂ (v.Reads catalog) paths sql.columns
  | .rowCount => True
  | .raw _ => False

/-- A selected column is that of a field that the caller may name, of a table that such fields lead
to. -/
def Leaf.SelectedFrom (catalog : Catalog) (a : Access) (tables : List Table) (l : Leaf) : Prop :=
  ∃ t ∈ tables, ∃ f ∈ t.access.model.fields, ∃ b : BasicField,
    catalog.walk? true a t.path = some t.access ∧ t.access.permits f.name = true ∧
    l.expression = .column ⟨.table t.number, b.column⟩ ∧
    (f.kind = .basic b ∧ l.property = Table.columnMark t.path ++ f.name ∨
      ∃ g, f.kind = .group g ∧ b ∈ g.fields ∧
        l.property = Table.columnMark t.path ++ f.name ++ "." ++ b.name)

/-- A predicate reads for a condition that may be missing. -/
def GroundedOption (catalog : Catalog) (v : View) : Option Condition → Predicate → Prop
  | none, p => p = .absent
  | some c, p => Grounded catalog v c p

/-- The clauses behind the selected columns read for a condition, explicit joins and an order. -/
structure Tail.ReadsFor (t : Tail) (catalog : Catalog) (a : Access) (condition : Option Condition)
    (joins : List Join) (order : List OrderTerm) (root : Table) (rest : List Table) : Prop where
  reachable : Reachable catalog a joins root rest
  number : t.source.number = root.number
  joins : GroundedJoins catalog (root :: rest) joins t.source.joins rest
  filter : GroundedOption catalog (.tables (root :: rest) root) condition t.filter.requested
  order : ∀ key ∈ t.order, ∃ o ∈ order,
    key.expression.ReadsPaths catalog (.tables (root :: rest) root) o.path.toList

/-- A statement over rows reads for a query. -/
structure Select.ReadsFor (s : Select) (catalog : Catalog) (a : Access) (q : Query) (root : Table)
    (rest : List Table) : Prop where
  tail : s.tail.ReadsFor catalog a q.condition q.joins q.order root rest
  groupKeys : s.tail.groupKeys = []
  columns : ∃ columns, s.list = .columns columns ∧ ∀ l ∈ ResultColumn.leaves columns,
    l.SelectedFrom catalog a (root :: rest) ∨
      ∃ c ∈ q.computed, l.property = c.name ∧
        l.expression.ReadsPaths catalog (.tables (root :: rest) root) c.paths

/-- A statement of aggregates reads for an aggregate request. -/
structure Select.ReadsForAggregate (s : Select) (catalog : Catalog) (a : Access)
    (q : AggregateQuery) (root : Table) (rest : List Table) : Prop where
  tail : s.tail.ReadsFor catalog a q.condition q.joins q.order root rest
  columns : ∃ columns, s.list = .columns columns ∧
    (∀ l ∈ ResultColumn.leaves columns, ∃ i ∈ q.items, l.property = i.resultName ∧
      l.expression.ReadsPaths catalog (.tables (root :: rest) root) [i.path]) ∧
    ∀ e ∈ s.tail.groupKeys, ∃ l ∈ ResultColumn.leaves columns, l.expression = e

/-- The growing table of a hierarchy, if there is one, reads for the condition on the rows that it
starts from. -/
def Select.StartsFor (s : Select) (catalog : Catalog) (a : Access) (q : HierarchyQuery) : Prop :=
  ∀ h ∈ s.hierarchy, GroundedOption catalog (.alone a .row) q.start h.anchor.requested

/-- A command reads for a request. -/
def Command.ReadsFor (catalog : Catalog) : Request → Command → Prop
  | .query model q, .select s => ∃ a root rest, catalog.access model = .ok a ∧
      s.ReadsFor catalog a q root rest
  | .count model condition joins _, .select s => ∃ a root rest, catalog.access model = .ok a ∧
      s.list = .columns countColumns ∧ s.tail.groupKeys = [] ∧
      s.tail.ReadsFor catalog a condition joins [] root rest
  | .existence model condition joins _, .select s => ∃ a root rest, catalog.access model = .ok a ∧
      s.list = .one ∧ s.tail.groupKeys = [] ∧
      s.tail.ReadsFor catalog a condition joins [] root rest
  | .aggregate model q, .select s => ∃ a root rest, catalog.access model = .ok a ∧
      s.ReadsForAggregate catalog a q root rest
  | .deleteWhere model condition _, .mark m _ filter => ∃ a, catalog.access model = .ok a ∧
      m = a.model ∧ Grounded catalog (.alone a .bare) condition filter.requested
  | .deleteWhere model condition _, .remove m filter => ∃ a, catalog.access model = .ok a ∧
      m = a.model ∧ Grounded catalog (.alone a .bare) condition filter.requested
  | .recursive model q, .select s => ∃ a root rest, catalog.access model = .ok a ∧
      s.StartsFor catalog a q ∧ s.ReadsFor catalog a q.query root rest
  | .recursiveCount model q, .select s => ∃ a root rest, catalog.access model = .ok a ∧
      s.StartsFor catalog a q ∧ s.list = .columns countColumns ∧ s.tail.groupKeys = [] ∧
      s.tail.ReadsFor catalog a q.query.condition q.query.joins [] root rest
  | .vectorSearch model q, .select s => ∃ query a root rest,
      q.toQuery catalog.dialect = .ok query ∧ catalog.access model = .ok a ∧
      s.ReadsFor catalog a query root rest
  | _, _ => False

/-! ## Selected columns -/

variable {catalog : Catalog} {a : Access} {joins : List Join} {tree : JoinTree} {p p' : Progress}

namespace JoinTree

/-- A selected column of a sound tree is one that the caller may read. -/
theorem Sound.selectedFrom (hsound : Sound catalog a joins tree) {t : Table} (ht : t ∈ tree.tables)
    {l : Leaf} (hl : l ∈ t.leaves) : l.SelectedFrom catalog a tree.listed := by
  obtain ⟨f, hf, b, hchosen, -, hexpression, hfield⟩ := Table.mem_leaves hl
  obtain ⟨c, hc, hname⟩ := List.any_eq_true.1 hchosen
  have hpermits : t.access.permits f.name = true := by
    rw [← beq_iff_eq.1 hname]
    exact hsound.settled.chosen t ht c hc
  have hwalk := hsound.chosen t ht (List.ne_nil_of_mem hc)
  exact ⟨t, tree.listed_perm.symm.subset ht, f, hf, b, hwalk, hpermits, hexpression, hfield⟩

end JoinTree

/-! ## Clauses -/

section Clauses

variable {names : Names Scope} (hn : names.Faithful catalog (Scope.Minded catalog) Scope.view)
  (hsound : tree.Sound catalog a joins)
include hn hsound

theorem Condition.resolve?_grounded {condition : Option Condition} {base : String} {r : Predicate}
    (h : (Condition.resolve? catalog.dialect names condition tree.callerScope base).run p =
      .ok r p') :
    GroundedOption catalog (.tables tree.listed tree.root) condition r := by
  cases condition with
  | none =>
    obtain ⟨rfl, -⟩ := run_pure_eq_ok.1 h
    rfl
  | some c => exact c.resolve_grounded hn (hsound.minded .root) h

theorem JoinTree.orderKeys_read {order : List OrderTerm} {keys : List OrderKey}
    (h : tree.orderKeys names order = .ok keys) : ∀ key ∈ keys, ∃ o ∈ order,
      key.expression.ReadsPaths catalog (.tables tree.listed tree.root) o.path.toList := by
  intro key hkey
  obtain ⟨o, i, ho, hterm⟩ := mem_orderKeys h hkey
  refine ⟨o, List.fst_mem_of_mem_zipIdx ho, ?_⟩
  rcases hterm with ⟨template, sql, -, hsql, rfl⟩ | ⟨path, column, -, hpath, hcolumn, rfl⟩
  · obtain ⟨columns, hcolumns, rfl⟩ := Condition.fill_reads hn (hsound.minded .root) hsql
    exact hcolumns
  · rw [hpath]
    exact .cons (hn.column (hsound.minded .root) hcolumn) .nil

theorem JoinTree.tail_readsFor {hierarchy : Bool} {condition : Option Condition}
    {keys : List Expression} {order : List OrderTerm} {page : Option Page} {t : Tail}
    (h : (tree.tail catalog names hierarchy condition keys order page).run p = .ok t p') :
    t.ReadsFor catalog a condition joins order tree.root (tree.inOrder.map Joined.toTable) ∧
      t.groupKeys = keys := by
  obtain ⟨_, _, hclauses, -, hasked, horder, hkeys, -, hnumber, -⟩ := JoinTree.tail_eq_ok h
  exact ⟨⟨hsound.reachable, hnumber, JoinTree.clauses_grounded hn hsound hclauses,
    Condition.resolve?_grounded hn hsound hasked, JoinTree.orderKeys_read hn hsound horder⟩, hkeys⟩

/-! ## Columns -/

theorem JoinTree.computedColumns_read {computed : List ComputedColumn} {columns : List ResultColumn}
    {bindings : List Binding} (h : tree.computedColumns names computed = .ok (columns, bindings)) :
    ∀ l ∈ ResultColumn.leaves columns, ∃ c ∈ computed, l.property = c.name ∧
      l.expression.ReadsPaths catalog (.tables tree.listed tree.root) c.paths := by
  intro l hl
  obtain ⟨column, hcolumn, hl⟩ := ResultColumn.mem_leaves.1 hl
  obtain ⟨⟨c, i⟩, hc, sql, hsql, rfl⟩ := forall₂_mem_right (computedColumns_eq_ok h).1 hcolumn
  obtain rfl := List.mem_singleton.1 hl
  obtain ⟨columns, hcolumns, rfl⟩ := Condition.fill_reads hn (hsound.minded .root) hsql
  exact ⟨c, List.fst_mem_of_mem_zipIdx hc, rfl, hcolumns⟩

theorem JoinTree.aggregateColumns_read {items : List AggregateItem} {columns : List ResultColumn}
    (h : items.mapM (tree.aggregateColumn catalog.dialect names) = .ok columns) :
    ∀ l ∈ ResultColumn.leaves columns, ∃ i ∈ items, l.property = i.resultName ∧
      l.expression.ReadsPaths catalog (.tables tree.listed tree.root) [i.path] := by
  intro l hl
  obtain ⟨column, hcolumn, hl⟩ := ResultColumn.mem_leaves.1 hl
  obtain ⟨i, hi, hrun⟩ := forall₂_mem_right (except_mapM_eq_ok.1 h) hcolumn
  rcases aggregateColumn_eq_ok hrun with ⟨-, rfl⟩ | ⟨c, e, hc, rfl, he⟩
  · obtain rfl := List.mem_singleton.1 hl
    exact ⟨i, hi, rfl, trivial⟩
  · obtain rfl := List.mem_singleton.1 hl
    have hreads : List.Forall₂ ((View.tables tree.listed tree.root).Reads catalog) [i.path] [c] :=
      .cons (hn.column (hsound.minded .root) hc) .nil
    refine ⟨i, hi, rfl, ?_⟩
    rcases he with rfl | ⟨template, -, rfl⟩
    · exact hreads
    · exact hreads

end Clauses

/-! ## Requests -/

section Requests

variable {names : Names Scope} (hn : names.Faithful catalog (Scope.Minded catalog) Scope.view)
include hn

theorem Query.compile_readsFor {model : String} {q : Query} {hierarchy : Option Hierarchy}
    {s : Select} (h : (q.compile catalog names model hierarchy).run p = .ok s p') :
    ∃ a root rest, catalog.access model = .ok a ∧ s.ReadsFor catalog a q root rest ∧
      s.hierarchy = hierarchy := by
  obtain ⟨a, tree, columns, r, hmodel, hmade, -, hcolumns, hlist, hhierarchy, htail⟩ :=
    Query.compile_eq_ok h
  obtain ⟨htail, hkeys⟩ := JoinTree.tail_readsFor hn hmade.sound htail
  refine ⟨a, tree.root, _, hmodel, ⟨htail, hkeys, columns, hlist, fun l hl => ?_⟩, hhierarchy⟩
  obtain ⟨⟨computed, bindings⟩, hcomputed, hcolumns⟩ := except_bind_eq_ok.1 hcolumns
  obtain ⟨rfl, -⟩ := Prod.mk.inj (Except.ok.inj hcolumns)
  rcases ResultColumn.mem_leaves_append.1 hl with hl | hl
  · obtain ⟨t, ht, hl⟩ := JoinTree.mem_leaves_columns hl
    exact .inl (hmade.sound.selectedFrom ht hl)
  · exact .inr (JoinTree.computedColumns_read hn hmade.sound hcomputed l hl)

theorem AggregateQuery.compile_readsFor {model : String} {q : AggregateQuery} {s : Select}
    (h : (q.compile catalog names model).run p = .ok s p') :
    (Command.select s).ReadsFor catalog (.aggregate model q) := by
  obtain ⟨a, tree, columns, r, hmodel, hmade, -, hcolumns, hlist, -, -, htail⟩ :=
    AggregateQuery.compile_eq_ok h
  obtain ⟨htail, hkeys⟩ := JoinTree.tail_readsFor hn hmade.sound htail
  refine ⟨a, tree.root, _, hmodel, htail, columns, hlist,
    JoinTree.aggregateColumns_read hn hmade.sound hcolumns, fun e he => ?_⟩
  rw [hkeys] at he
  exact ResultColumn.mem_groupKeys he

theorem countRows_readsFor {model : String} {condition : Option Condition} {joins : List Join}
    {ignoreDeleted : Bool} {s : Select}
    (h : (countRows catalog names model condition joins ignoreDeleted).run p = .ok s p') :
    (Command.select s).ReadsFor catalog (.count model condition joins ignoreDeleted) ∧
      s.hierarchy = none := by
  obtain ⟨a, tree, r, hmodel, hmade, -, hlist, -, hnone, htail⟩ := countRows_eq_ok h
  obtain ⟨htail, hkeys⟩ := JoinTree.tail_readsFor hn hmade.sound htail
  exact ⟨⟨a, tree.root, _, hmodel, hlist, hkeys, htail⟩, hnone⟩

theorem checkExistence_readsFor {model : String} {condition : Option Condition} {joins : List Join}
    {ignoreDeleted : Bool} {s : Select}
    (h : (checkExistence catalog names model condition joins ignoreDeleted).run p = .ok s p') :
    (Command.select s).ReadsFor catalog (.existence model condition joins ignoreDeleted) := by
  obtain ⟨a, tree, r, hmodel, hmade, -, hlist, -, -, htail⟩ := checkExistence_eq_ok h
  obtain ⟨htail, hkeys⟩ := JoinTree.tail_readsFor hn hmade.sound htail
  exact ⟨a, tree.root, _, hmodel, hlist, hkeys, htail⟩

omit hn in
theorem deleteWhere_readsFor {model : String} {condition : Condition} {physical : Bool}
    {command : Command}
    (h : (deleteWhere catalog model condition physical).run p = .ok command p') :
    command.ReadsFor catalog (.deleteWhere model condition physical) := by
  obtain ⟨a, filter, r, hmodel, hasked, -, hcommand⟩ := deleteWhere_eq_ok h
  have hreads : Grounded catalog (.alone a .bare) condition filter.requested :=
    condition.resolve_grounded (Names.faithful_ofTable a .bare) rfl hasked
  rcases hcommand with rfl | ⟨flag, -, rfl⟩
  · exact ⟨a, hmodel, rfl, hreads⟩
  · exact ⟨a, hmodel, rfl, hreads⟩

omit hn in
theorem HierarchyQuery.start?_grounded {q : HierarchyQuery} {start : Predicate}
    (h : (q.start? catalog a).run p = .ok start p') :
    GroundedOption catalog (.alone a .row) q.start start := by
  rw [HierarchyQuery.start?] at h
  cases hstart : q.start with
  | none =>
    rw [hstart] at h
    obtain ⟨rfl, -⟩ := run_pure_eq_ok.1 h
    rfl
  | some c =>
    rw [hstart] at h
    exact c.resolve_grounded (Names.faithful_ofTable a .row) rfl h

theorem HierarchyQuery.rows_readsFor {model : String} {q : HierarchyQuery} {s : Select}
    (h : (q.rows catalog names model).run p = .ok s p') :
    (Command.select s).ReadsFor catalog (.recursive model q) := by
  obtain ⟨a, start, r, hmodel, hstart, h⟩ := rows_eq_ok h
  rcases h with ⟨-, h⟩ | ⟨-, table, r', htable, h⟩
  · obtain ⟨a', root, rest, hmodel', hreads, hnone⟩ := Query.compile_readsFor hn h
    refine ⟨a', root, rest, hmodel', fun table htable => ?_, hreads⟩
    rw [hnone] at htable
    exact absurd htable nofun
  · obtain ⟨a', root, rest, hmodel', hreads, hsome⟩ := Query.compile_readsFor hn h
    obtain rfl := Except.ok.inj (hmodel.symm.trans hmodel')
    refine ⟨a, root, rest, hmodel, fun table' htable' => ?_, hreads⟩
    rw [hsome] at htable'
    obtain rfl := Option.some.inj htable'
    rw [HierarchyQuery.table_requested htable]
    exact start?_grounded hstart

theorem HierarchyQuery.count_readsFor {model : String} {q : HierarchyQuery} {s : Select}
    (h : (q.count catalog names model).run p = .ok s p') :
    (Command.select s).ReadsFor catalog (.recursiveCount model q) := by
  obtain ⟨a, start, r, hmodel, hstart, h⟩ := count_eq_ok h
  rcases h with ⟨-, h⟩ | ⟨-, table, tree, r₁, r₂, htable, hmade, hlist, -, hsome, htail⟩
  · obtain ⟨⟨a', root, rest, hmodel', hlist, hkeys, hreads⟩, hnone⟩ := countRows_readsFor hn h
    refine ⟨a', root, rest, hmodel', fun table htable => ?_, hlist, hkeys, hreads⟩
    rw [hnone] at htable
    exact absurd htable nofun
  · obtain ⟨htail, hkeys⟩ := JoinTree.tail_readsFor hn hmade.sound htail
    refine ⟨a, tree.root, _, hmodel, fun table' htable' => ?_, hlist, hkeys, htail⟩
    rw [hsome] at htable'
    obtain rfl := Option.some.inj htable'
    rw [HierarchyQuery.table_requested htable]
    exact start?_grounded hstart

end Requests

/-- Every compiled statement reads for its request: each column and each relationship in it that is
there for the caller is what a path of the request leads to, and the caller may name every field on
the way. -/
theorem Request.statement_readsFor {r : Request} {statement : Statement} {events : List Event}
    (h : r.compile catalog = (.ok statement, events)) : statement.command.ReadsFor catalog r := by
  obtain ⟨depth, q, hbuild, -⟩ := Request.build_of_compile h
  have hn : (Names.ofTree catalog depth).Faithful catalog (Scope.Minded catalog) Scope.view :=
    Names.faithful_ofTree depth
  cases r with
  | query model query =>
    obtain ⟨s, hs, hcommand⟩ := run_map_eq_ok.1 hbuild
    obtain ⟨a, root, rest, hmodel, hreads, -⟩ := Query.compile_readsFor hn hs
    exact hcommand ▸ ⟨a, root, rest, hmodel, hreads⟩
  | count model condition joins ignoreDeleted =>
    obtain ⟨s, hs, hcommand⟩ := run_map_eq_ok.1 hbuild
    exact hcommand ▸ (countRows_readsFor hn hs).1
  | existence model condition joins ignoreDeleted =>
    obtain ⟨s, hs, hcommand⟩ := run_map_eq_ok.1 hbuild
    exact hcommand ▸ checkExistence_readsFor hn hs
  | aggregate model query =>
    obtain ⟨s, hs, hcommand⟩ := run_map_eq_ok.1 hbuild
    exact hcommand ▸ AggregateQuery.compile_readsFor hn hs
  | deleteWhere model condition physical => exact deleteWhere_readsFor hbuild
  | recursive model query =>
    obtain ⟨s, hs, hcommand⟩ := run_map_eq_ok.1 hbuild
    exact hcommand ▸ HierarchyQuery.rows_readsFor hn hs
  | recursiveCount model query =>
    obtain ⟨s, hs, hcommand⟩ := run_map_eq_ok.1 hbuild
    exact hcommand ▸ HierarchyQuery.count_readsFor hn hs
  | vectorSearch model query =>
    obtain ⟨s, hs, hcommand⟩ := run_map_eq_ok.1 hbuild
    obtain ⟨q', _, hquery, hs⟩ := run_bind_eq_ok.1 hs
    obtain ⟨hquery, -⟩ := run_ofExcept_eq_ok.1 hquery
    obtain ⟨a, root, rest, hmodel, hreads, -⟩ := Query.compile_readsFor hn hs
    exact hcommand ▸ ⟨q', a, root, rest, hquery, hmodel, hreads⟩

/-- Employees in departments. The caller may name no link between them and no department's budget. -/
def staff : Catalog where
  models := [
    ("Department",
      { name := "Department", table := "department"
        fields := [⟨"id", .basic ⟨"id", "id", true⟩⟩, ⟨"name", .basic ⟨"name", "name", true⟩⟩,
          ⟨"budget", .basic ⟨"budget", "budget", true⟩⟩] }),
    ("Employee",
      { name := "Employee", table := "employee"
        fields := [⟨"id", .basic ⟨"id", "id", true⟩⟩, ⟨"name", .basic ⟨"name", "name", true⟩⟩,
          ⟨"departmentId", .basic ⟨"departmentId", "department_id", true⟩⟩,
          ⟨"department", .relation ⟨.one, "Department", ["departmentId"]⟩⟩] })]
  permissions := [("Department", { fields := some ["name"] }),
    ("Employee", { fields := some ["name", "department"] })]

/-- The employees of a department by its name, and the permitted columns of both. -/
def employeesOfSales : Request :=
  .query "Employee"
    { condition := some (.compare "department.name" .eq (.text "Sales") false)
      select := some ["*", "department"] }

/-- The column that links an employee to the department is read, but not for the caller. -/
theorem employeesOfSales_readsFor : ∃ statement events,
    employeesOfSales.compile staff = (.ok statement, events) ∧
    statement.sql = "SELECT t0.id AS `id`, t0.name AS `name`, t1.id AS `department.id`, " ++
      "t1.name AS `department.name` FROM employee AS t0 LEFT JOIN department AS t1 " ++
      "ON t1.id = t0.department_id WHERE t1.name = #\x7bc1.v\x7d" ∧
    statement.command.ReadsFor staff employeesOfSales := by
  obtain ⟨statement, events, hcompile⟩ : ∃ statement events,
      employeesOfSales.compile staff = (.ok statement, events) := ⟨_, _, rfl⟩
  have hreads := Request.statement_readsFor hcompile
  refine ⟨statement, events, hcompile, ?_, hreads⟩
  cases hcompile
  decide +kernel

end QueryCompiler
