import QueryCompiler.Compile.Request
import QueryCompiler.Proofs.JoinTree.Explicit

/-!
# What compiled queries are made of

One lemma for each function that compiles a part of a request: which parts a successful run leaves
behind, and from which runs each of them came.
-/

namespace QueryCompiler

open Build

variable {catalog : Catalog} {names : Names Scope} {model : String} {p p' : Progress} {s : Select}

theorem Command.columns_of_list {columns : List ResultColumn} (h : s.list = .columns columns) :
    (Command.select s).columns = columns := by
  simp only [Command.columns, h]

theorem Statement.columns_of_list {statement : Statement} {columns : List ResultColumn}
    (hcommand : statement.command = .select s) (hlist : s.list = .columns columns) :
    statement.columns = columns := by
  rw [Statement.columns, hcommand, Command.columns_of_list hlist]

/-- The clauses of a query. Over a growing table nothing is enforced; otherwise what is enforced is
resolved before what is requested. -/
theorem JoinTree.tail_eq_ok {tree : JoinTree} {hierarchy : Bool} {condition : Option Condition}
    {keys : List Expression} {order : List OrderTerm} {page : Option Page} {t : Tail}
    (h : (tree.tail catalog names hierarchy condition keys order page).run p = .ok t p') :
    ∃ q q', (tree.clauses catalog names).run p = .ok t.source.joins q ∧
      (hierarchy = true ∧ t.filter.enforced = .absent ∧ q' = q ∨ hierarchy = false ∧
        (tree.enforced catalog names tree.root rootMark).run q = .ok t.filter.enforced q') ∧
      (Condition.resolve? catalog.dialect names condition tree.callerScope (rootMark ++ "1")).run q' =
        .ok t.filter.requested p' ∧
      tree.orderKeys names order = .ok t.order ∧ t.groupKeys = keys ∧
      t.source.model = (if hierarchy then none else some tree.root.access.model) ∧
      t.source.number = tree.root.number ∧ t.limit = catalog.settings.limit? page := by
  rw [JoinTree.tail] at h
  obtain ⟨clauses, q, hclauses, h⟩ := run_bind_eq_ok.1 h
  cases hierarchy with
  | true =>
    obtain ⟨asked, q', hasked, h⟩ := run_bind_eq_ok.1 h
    obtain ⟨filter, _, hfilter, h⟩ := run_bind_eq_ok.1 h
    obtain ⟨rfl, rfl⟩ := run_pure_eq_ok.1 hfilter
    obtain ⟨order, _, hrun, h⟩ := run_bind_eq_ok.1 h
    obtain ⟨horder, rfl⟩ := run_ofExcept_eq_ok.1 hrun
    obtain ⟨rfl, rfl⟩ := run_pure_eq_ok.1 h
    exact ⟨q, q, hclauses, .inl ⟨rfl, rfl, rfl⟩, hasked, horder, rfl, rfl, rfl, rfl⟩
  | false =>
    obtain ⟨filter, _, hfilter, h⟩ := run_bind_eq_ok.1 h
    obtain ⟨held, q', hheld, hfilter⟩ := run_bind_eq_ok.1 hfilter
    obtain ⟨asked, _, hasked, hfilter⟩ := run_bind_eq_ok.1 hfilter
    obtain ⟨rfl, rfl⟩ := run_pure_eq_ok.1 hfilter
    obtain ⟨order, _, hrun, h⟩ := run_bind_eq_ok.1 h
    obtain ⟨horder, rfl⟩ := run_ofExcept_eq_ok.1 hrun
    obtain ⟨rfl, rfl⟩ := run_pure_eq_ok.1 h
    exact ⟨q, q', hclauses, .inr ⟨rfl, hheld⟩, hasked, horder, rfl, rfl, rfl, rfl⟩

/-- A query is compiled exactly if its tables can be joined and then all of its parts resolved. -/
theorem Query.compile_run {q : Query} {hierarchy : Option Hierarchy} :
    (q.compile catalog names model hierarchy).run p = .ok s p' ↔ ∃ tree r columns,
      (JoinTree.ofDemand catalog model q.demand).run p = .ok tree r ∧
      q.columns catalog names tree = .ok (columns, s.listBindings) ∧
      s.list = .columns columns ∧ s.hierarchy = hierarchy ∧
      (tree.tail catalog names hierarchy.isSome q.condition [] q.order q.page).run r =
        .ok s.tail p' := by
  rw [Query.compile]
  constructor
  · intro h
    obtain ⟨tree, r, htree, h⟩ := run_bind_eq_ok.1 h
    obtain ⟨⟨columns, bindings⟩, _, hrun, h⟩ := run_bind_eq_ok.1 h
    obtain ⟨hcolumns, rfl⟩ := run_ofExcept_eq_ok.1 hrun
    obtain ⟨tail, _, htail, h⟩ := run_bind_eq_ok.1 h
    obtain ⟨rfl, rfl⟩ := run_pure_eq_ok.1 h
    exact ⟨tree, r, columns, htree, hcolumns, rfl, rfl, htail⟩
  · rintro ⟨tree, r, columns, htree, hcolumns, hlist, hhierarchy, htail⟩
    refine run_bind_eq_ok.2 ⟨tree, r, htree, run_bind_eq_ok.2 ⟨_, r,
      run_ofExcept_eq_ok.2 ⟨hcolumns, rfl⟩, run_bind_eq_ok.2 ⟨_, p', htail, ?_⟩⟩⟩
    refine run_pure_eq_ok.2 ⟨?_, rfl⟩
    cases s
    simp only at hlist hhierarchy ⊢
    rw [hlist, hhierarchy]

theorem Query.compile_eq_ok {q : Query} {hierarchy : Option Hierarchy}
    (h : (q.compile catalog names model hierarchy).run p = .ok s p') :
    ∃ access tree columns r, catalog.access model = .ok access ∧
      JoinTree.Made catalog true access q.joins p.nextNumber tree r.nextNumber ∧
      tree.Serves catalog q.ignoreDeleted (Keyed.sortBy JoinOf.path q.joins) ∧
      q.columns catalog names tree = .ok (columns, s.listBindings) ∧
      s.list = .columns columns ∧ s.hierarchy = hierarchy ∧
      (tree.tail catalog names hierarchy.isSome q.condition [] q.order q.page).run r =
        .ok s.tail p' := by
  obtain ⟨tree, r, columns, htree, hcolumns, hlist, hhierarchy, htail⟩ := Query.compile_run.1 h
  obtain ⟨access, hmodel, hmade⟩ := JoinTree.ofDemand_made htree
  have hserves := JoinTree.ofDemand_serves htree
  exact ⟨access, tree, columns, r, hmodel, hmade, hserves, hcolumns, hlist, hhierarchy, htail⟩

theorem countRows_run {condition : Option Condition} {joins : List Join} {ignoreDeleted : Bool}
    (h : (countRows catalog names model condition joins ignoreDeleted).run p = .ok s p') :
    ∃ tree r, (JoinTree.ofDemand catalog model { condition, joins, ignoreDeleted }).run p =
        .ok tree r ∧
      (tree.tail catalog names false condition [] [] none).run r = .ok s.tail p' ∧
      s = { list := .columns countColumns, tail := s.tail } := by
  rw [countRows] at h
  obtain ⟨tree, r, htree, h⟩ := run_bind_eq_ok.1 h
  obtain ⟨tail, _, htail, h⟩ := run_bind_eq_ok.1 h
  obtain ⟨rfl, rfl⟩ := run_pure_eq_ok.1 h
  exact ⟨tree, r, htree, htail, rfl⟩

theorem countRows_eq_ok {condition : Option Condition} {joins : List Join} {ignoreDeleted : Bool}
    (h : (countRows catalog names model condition joins ignoreDeleted).run p = .ok s p') :
    ∃ access tree r, catalog.access model = .ok access ∧
      JoinTree.Made catalog true access joins p.nextNumber tree r.nextNumber ∧
      tree.Serves catalog ignoreDeleted (Keyed.sortBy JoinOf.path joins) ∧
      s.list = .columns countColumns ∧ s.listBindings = [] ∧ s.hierarchy = none ∧
      (tree.tail catalog names false condition [] [] none).run r = .ok s.tail p' := by
  obtain ⟨tree, r, htree, htail, hs⟩ := countRows_run h
  obtain ⟨access, hmodel, hmade⟩ := JoinTree.ofDemand_made htree
  have hserves := JoinTree.ofDemand_serves htree
  exact ⟨access, tree, r, hmodel, hmade, hserves, hs ▸ rfl, hs ▸ rfl, hs ▸ rfl, htail⟩

theorem checkExistence_eq_ok {condition : Option Condition} {joins : List Join}
    {ignoreDeleted : Bool}
    (h : (checkExistence catalog names model condition joins ignoreDeleted).run p = .ok s p') :
    ∃ access tree r, catalog.access model = .ok access ∧
      JoinTree.Made catalog true access joins p.nextNumber tree r.nextNumber ∧
      tree.Serves catalog ignoreDeleted (Keyed.sortBy JoinOf.path joins) ∧
      s.list = .one ∧ s.listBindings = [] ∧ s.hierarchy = none ∧
      (tree.tail catalog names false condition [] [] (some ⟨1, 1⟩)).run r = .ok s.tail p' := by
  rw [checkExistence] at h
  obtain ⟨tree, r, htree, h⟩ := run_bind_eq_ok.1 h
  obtain ⟨tail, _, htail, h⟩ := run_bind_eq_ok.1 h
  obtain ⟨rfl, rfl⟩ := run_pure_eq_ok.1 h
  obtain ⟨access, hmodel, hmade⟩ := JoinTree.ofDemand_made htree
  have hserves := JoinTree.ofDemand_serves htree
  exact ⟨access, tree, r, hmodel, hmade, hserves, rfl, rfl, rfl, htail⟩

theorem AggregateQuery.compile_eq_ok {q : AggregateQuery}
    (h : (q.compile catalog names model).run p = .ok s p') :
    ∃ access tree columns r, catalog.access model = .ok access ∧
      JoinTree.Made catalog true access q.joins p.nextNumber tree r.nextNumber ∧
      tree.Serves catalog q.ignoreDeleted (Keyed.sortBy JoinOf.path q.joins) ∧
      q.items.mapM (tree.aggregateColumn catalog.dialect names) = .ok columns ∧
      s.list = .columns columns ∧ s.listBindings = [] ∧ s.hierarchy = none ∧
      (tree.tail catalog names false q.condition (ResultColumn.groupKeys columns) q.order
        q.page).run r = .ok s.tail p' := by
  rw [AggregateQuery.compile] at h
  obtain ⟨tree, r, htree, h⟩ := run_bind_eq_ok.1 h
  obtain ⟨columns, _, hrun, h⟩ := run_bind_eq_ok.1 h
  obtain ⟨hcolumns, rfl⟩ := run_ofExcept_eq_ok.1 hrun
  obtain ⟨tail, _, htail, h⟩ := run_bind_eq_ok.1 h
  obtain ⟨rfl, rfl⟩ := run_pure_eq_ok.1 h
  obtain ⟨access, hmodel, hmade⟩ := JoinTree.ofDemand_made htree
  have hserves := JoinTree.ofDemand_serves htree
  exact ⟨access, tree, columns, r, hmodel, hmade, hserves, hcolumns, rfl, rfl, rfl, htail⟩

/-- A deletion, with a filter in which something is requested. What is requested is resolved before
what is enforced. -/
theorem deleteWhere_run {condition : Condition} {physical : Bool} {command : Command}
    (h : (deleteWhere catalog model condition physical).run p = .ok command p') :
    ∃ access filter r, catalog.access model = .ok access ∧
      (condition.resolve catalog.dialect (Names.ofTable access .bare) true (rootMark ++ "1")).run p =
        .ok filter.requested r ∧
      filter.requested.text ≠ "" ∧
      (Condition.resolve? catalog.dialect (Names.ofTable access .bare) access.rows? false
        (rootMark ++ "0")).run r = .ok filter.enforced p' ∧
      (∀ flag, access.model.basicField? deleteFlag = some flag → physical = false →
        command = .mark access.model flag.column filter) ∧
      (access.model.basicField? deleteFlag = none ∨ physical = true →
        command = .remove access.model filter) := by
  rw [deleteWhere] at h
  obtain ⟨access, _, hrun, h⟩ := run_bind_eq_ok.1 h
  obtain ⟨hmodel, rfl⟩ := run_ofExcept_eq_ok.1 hrun
  obtain ⟨asked, r, hasked, h⟩ := run_bind_eq_ok.1 h
  split at h
  · exact absurd h run_reject_ne_ok
  rename_i hempty
  obtain ⟨held, q, hheld, h⟩ := run_bind_eq_ok.1 h
  refine ⟨access, ⟨held, asked⟩, r, hmodel, hasked, fun htext => hempty (String.isEmpty_iff.2 htext), ?_⟩
  cases hflag : access.model.basicField? deleteFlag with
  | none =>
    rw [hflag] at h
    obtain ⟨rfl, rfl⟩ := run_pure_eq_ok.1 h
    exact ⟨hheld, nofun, fun _ => rfl⟩
  | some flag =>
    rw [hflag] at h
    cases physical with
    | false =>
      obtain ⟨rfl, rfl⟩ := run_pure_eq_ok.1 h
      exact ⟨hheld, fun f hf _ => by rw [Option.some.inj hf], nofun⟩
    | true =>
      obtain ⟨rfl, rfl⟩ := run_pure_eq_ok.1 h
      exact ⟨hheld, nofun, fun _ => rfl⟩

theorem deleteWhere_eq_ok {condition : Condition} {physical : Bool} {command : Command}
    (h : (deleteWhere catalog model condition physical).run p = .ok command p') :
    ∃ access filter r, catalog.access model = .ok access ∧
      (condition.resolve catalog.dialect (Names.ofTable access .bare) true (rootMark ++ "1")).run p =
        .ok filter.requested r ∧
      (Condition.resolve? catalog.dialect (Names.ofTable access .bare) access.rows? false
        (rootMark ++ "0")).run r = .ok filter.enforced p' ∧
      (command = .remove access.model filter ∨ ∃ flag,
        access.model.basicField? deleteFlag = some flag ∧
          command = .mark access.model flag.column filter) := by
  obtain ⟨access, filter, r, hmodel, hasked, -, hheld, hmarks, hremoves⟩ := deleteWhere_run h
  refine ⟨access, filter, r, hmodel, hasked, hheld, ?_⟩
  cases hflag : access.model.basicField? deleteFlag with
  | none => exact .inl (hremoves (.inl hflag))
  | some flag =>
    cases physical with
    | false => exact .inr ⟨flag, rfl, hmarks flag hflag rfl⟩
    | true => exact .inl (hremoves (.inr rfl))

namespace HierarchyQuery

variable {q : HierarchyQuery}

theorem rows_eq_ok (h : (q.rows catalog names model).run p = .ok s p') :
    ∃ access start r, catalog.access model = .ok access ∧
      (q.start? catalog access).run p = .ok start r ∧
      (start.text.isEmpty = true ∧ (q.query.compile catalog names model none).run r = .ok s p' ∨
        start.text.isEmpty = false ∧ ∃ table r',
          (q.table catalog access start).run r = .ok table r' ∧
          (q.query.compile catalog names model (some table)).run r' = .ok s p') := by
  rw [rows] at h
  obtain ⟨access, _, hrun, h⟩ := run_bind_eq_ok.1 h
  obtain ⟨hmodel, rfl⟩ := run_ofExcept_eq_ok.1 hrun
  obtain ⟨start, r, hstart, h⟩ := run_bind_eq_ok.1 h
  refine ⟨access, start, r, hmodel, hstart, ?_⟩
  split at h
  case isTrue hempty => exact .inl ⟨hempty, h⟩
  case isFalse hempty =>
    obtain ⟨table, r', htable, h⟩ := run_bind_eq_ok.1 h
    exact .inr ⟨Bool.eq_false_iff.2 hempty, table, r', htable, h⟩

theorem count_run (h : (q.count catalog names model).run p = .ok s p') :
    ∃ access start r, catalog.access model = .ok access ∧
      (q.start? catalog access).run p = .ok start r ∧
      (start.text.isEmpty = true ∧ (countRows catalog names model q.query.condition q.query.joins
          q.query.ignoreDeleted).run r = .ok s p' ∨
        start.text.isEmpty = false ∧ ∃ table tree r₁ r₂,
          (q.table catalog access start).run r = .ok table r₁ ∧
          (JoinTree.ofDemand catalog model q.query.demand).run r₁ = .ok tree r₂ ∧
          s.list = .columns countColumns ∧ s.listBindings = [] ∧ s.hierarchy = some table ∧
          (tree.tail catalog names true q.query.condition [] [] none).run r₂ = .ok s.tail p') := by
  rw [count] at h
  obtain ⟨access, _, hrun, h⟩ := run_bind_eq_ok.1 h
  obtain ⟨hmodel, rfl⟩ := run_ofExcept_eq_ok.1 hrun
  obtain ⟨start, r, hstart, h⟩ := run_bind_eq_ok.1 h
  refine ⟨access, start, r, hmodel, hstart, ?_⟩
  split at h
  case isTrue hempty => exact .inl ⟨hempty, h⟩
  case isFalse hempty =>
    obtain ⟨table, r₁, htable, h⟩ := run_bind_eq_ok.1 h
    obtain ⟨tree, r₂, htree, h⟩ := run_bind_eq_ok.1 h
    obtain ⟨tail, _, htail, h⟩ := run_bind_eq_ok.1 h
    obtain ⟨rfl, rfl⟩ := run_pure_eq_ok.1 h
    exact .inr ⟨Bool.eq_false_iff.2 hempty, table, tree, r₁, r₂, htable, htree, rfl, rfl, rfl, htail⟩

theorem count_eq_ok (h : (q.count catalog names model).run p = .ok s p') :
    ∃ access start r, catalog.access model = .ok access ∧
      (q.start? catalog access).run p = .ok start r ∧
      (start.text.isEmpty = true ∧ (countRows catalog names model q.query.condition q.query.joins
          q.query.ignoreDeleted).run r = .ok s p' ∨
        start.text.isEmpty = false ∧ ∃ table tree r₁ r₂,
          (q.table catalog access start).run r = .ok table r₁ ∧
          JoinTree.Made catalog true access q.query.joins r₁.nextNumber tree r₂.nextNumber ∧
          s.list = .columns countColumns ∧ s.listBindings = [] ∧ s.hierarchy = some table ∧
          (tree.tail catalog names true q.query.condition [] [] none).run r₂ = .ok s.tail p') := by
  obtain ⟨access, start, r, hmodel, hstart, h | ⟨hsome, table, tree, r₁, r₂, htable, htree, hs⟩⟩ :=
    count_run h
  · exact ⟨access, start, r, hmodel, hstart, .inl h⟩
  · obtain ⟨access', hmodel', hmade⟩ := JoinTree.ofDemand_made htree
    obtain rfl := Except.ok.inj (hmodel.symm.trans hmodel')
    exact ⟨access, start, r, hmodel, hstart, .inr ⟨hsome, table, tree, r₁, r₂, htable, hmade, hs⟩⟩

end HierarchyQuery
end QueryCompiler
