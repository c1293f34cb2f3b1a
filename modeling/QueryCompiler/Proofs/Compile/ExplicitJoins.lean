import QueryCompiler.Proofs.Compile.Outcome
import QueryCompiler.Proofs.Compile.Parts
import QueryCompiler.Proofs.Enforcement.Places
import QueryCompiler.Proofs.JoinTree.Forest

/-!
# The order of explicit joins

Explicit joins are sorted by their paths, and sorting is stable. So the order in which they are
listed matters only among joins of one path (`Request.compile_reordered`), and not at all if no two
have the same path (`Request.compile_perm`). Of the joins of one path the last one is in effect, with
its type and its condition; what the others ask of the joined rows is lost (`Request.explicit_joins`).
-/

namespace QueryCompiler

open Build

variable {catalog : Catalog} {names : Names Scope} {model : String} {js js' : List Join}

/-- The same joins, in an order that may differ between joins of different paths only. -/
def Reordered (js js' : List Join) : Prop :=
  ∀ path, js.filter (·.path == path) = js'.filter (·.path == path)

namespace Reordered

theorem sorted (h : Reordered js js') :
    Keyed.sortBy JoinOf.path js = Keyed.sortBy JoinOf.path js' :=
  Keyed.sortBy_congr h

theorem perm (h : Reordered js js') : js.Perm js' :=
  (Keyed.sortBy_perm JoinOf.path js).symm.trans (h.sorted ▸ Keyed.sortBy_perm JoinOf.path js')

/-- Joins of different paths may stand in any order. -/
theorem of_perm (h : js.Perm js') (hnodup : (js.map JoinOf.path).Nodup) : Reordered js js' := by
  intro path
  have hlength : (js.filter (·.path == path)).length ≤ 1 := by
    have hcount := List.nodup_iff_count_le_one.1 hnodup path
    rwa [List.count_eq_countP, List.countP_map, List.countP_eq_length_filter] at hcount
  have hperm := h.filter (·.path == path)
  generalize js.filter (·.path == path) = here at hlength hperm
  match here, hlength with
  | [], _ => exact hperm.nil_eq
  | [join], _ => exact (List.perm_singleton.1 hperm.symm).symm

end Reordered

/-! ## What does not depend on the order -/

theorem Condition.relatedCountJoins_perm (h : js.Perm js') :
    relatedCountJoins js = relatedCountJoins js' := by
  induction h with
  | nil => rfl
  | cons join _ ih => rw [relatedCountJoins, relatedCountJoins, ih]
  | swap join join' js =>
    simp only [relatedCountJoins]
    exact Nat.add_left_comm _ _ _
  | trans _ _ ih ih' => exact ih.trans ih'

theorem JoinTree.ofDemand_reordered (h : Reordered js js') (d : Demand) :
    JoinTree.ofDemand catalog model { d with joins := js } =
      JoinTree.ofDemand catalog model { d with joins := js' } := by
  simp only [JoinTree.ofDemand, JoinTree.addJoins, h.sorted]
  rfl

theorem Query.compile_reordered (h : Reordered js js') (q : Query) (hierarchy : Option Hierarchy) :
    Query.compile catalog names model { q with joins := js } hierarchy =
      Query.compile catalog names model { q with joins := js' } hierarchy :=
  congrArg (· >>= _) (JoinTree.ofDemand_reordered h q.demand)

theorem hierarchyColumns_congr (access : Access) (keys parents : List BasicField)
    {wanted wanted' : Option (List String)}
    (h : ∀ name, (wanted.all fun names => names.contains name) =
      wanted'.all fun names => names.contains name) :
    hierarchyColumns access keys parents wanted = hierarchyColumns access keys parents wanted' := by
  simp only [hierarchyColumns, h]

/-- Whether a name is among the first segments of what a query reads. -/
theorem Query.heads?_reordered (h : Reordered js js') (q : Query) (name : String) :
    ((heads? { q with joins := js }).all fun names => names.contains name) =
      (heads? { q with joins := js' }).all fun names => names.contains name := by
  have hcontains (ps qs : List String) (name : String) :
      ((ps ++ js.map JoinOf.path ++ qs).map Path.head).contains name =
        ((ps ++ js'.map JoinOf.path ++ qs).map Path.head).contains name := by
    have hperm := ((h.perm.map JoinOf.path).append_left ps |>.append_right qs).map Path.head
    rw [Bool.eq_iff_iff, List.contains_iff_mem, List.contains_iff_mem, hperm.mem_iff]
  cases q.select with
  | none => simp only [heads?]
  | some paths =>
    cases q.condition <;>
    · simp only [heads?]
      rw [hcontains _ _ "*"]
      split
      · rfl
      · exact hcontains _ _ name

namespace HierarchyQuery

variable (q : HierarchyQuery)

theorem table_reordered (h : Reordered js js') (access : Access) (start : Predicate) :
    table catalog access { q with query := { q.query with joins := js } } start =
      table catalog access { q with query := { q.query with joins := js' } } start := by
  simp only [table, hierarchyColumns_congr access _ _ (q.query.heads?_reordered h)]

theorem rows_reordered (h : Reordered js js') :
    rows catalog names model { q with query := { q.query with joins := js } } =
      rows catalog names model { q with query := { q.query with joins := js' } } := by
  simp only [rows, q.table_reordered h, Query.compile_reordered h]
  rfl

end HierarchyQuery

theorem countRows_reordered (h : Reordered js js') (condition : Option Condition)
    (ignoreDeleted : Bool) :
    countRows catalog names model condition js ignoreDeleted =
      countRows catalog names model condition js' ignoreDeleted :=
  congrArg (· >>= _) (JoinTree.ofDemand_reordered h { condition, ignoreDeleted })

theorem checkExistence_reordered (h : Reordered js js') (condition : Option Condition)
    (ignoreDeleted : Bool) :
    checkExistence catalog names model condition js ignoreDeleted =
      checkExistence catalog names model condition js' ignoreDeleted :=
  congrArg (· >>= _) (JoinTree.ofDemand_reordered h
    { condition, ignoreDeleted, place := some .existenceCheck })

theorem AggregateQuery.compile_reordered (h : Reordered js js') (q : AggregateQuery) :
    AggregateQuery.compile catalog names model { q with joins := js } =
      AggregateQuery.compile catalog names model { q with joins := js' } :=
  congrArg (· >>= _) (JoinTree.ofDemand_reordered h q.demand)

theorem HierarchyQuery.count_reordered (h : Reordered js js') (q : HierarchyQuery) :
    count catalog names model { q with query := { q.query with joins := js } } =
      count catalog names model { q with query := { q.query with joins := js' } } := by
  have htree : JoinTree.ofDemand catalog model (Query.demand { q.query with joins := js }) =
      JoinTree.ofDemand catalog model (Query.demand { q.query with joins := js' }) :=
    JoinTree.ofDemand_reordered h q.query.demand
  simp only [count, q.table_reordered h, countRows_reordered h, htree]
  rfl

namespace Request

/-- The explicit joins of a request. Deletions and searches for nearest neighbours have none. -/
def joins : Request → List Join
  | .query _ q => q.joins
  | .count _ _ js _ => js
  | .existence _ _ js _ => js
  | .aggregate _ q => q.joins
  | .recursive _ q | .recursiveCount _ q => q.query.joins
  | .deleteWhere _ _ _ | .vectorSearch _ _ => []

/-- A request with other explicit joins. -/
def withJoins (js : List Join) : Request → Request
  | .query model q => .query model { q with joins := js }
  | .count model c _ ignoreDeleted => .count model c js ignoreDeleted
  | .existence model c _ ignoreDeleted => .existence model c js ignoreDeleted
  | .aggregate model q => .aggregate model { q with joins := js }
  | .recursive model q => .recursive model { q with query := { q.query with joins := js } }
  | .recursiveCount model q => .recursiveCount model { q with query := { q.query with joins := js } }
  | .deleteWhere model c physical => .deleteWhere model c physical
  | .vectorSearch model q => .vectorSearch model q

theorem withJoins_joins (r : Request) : r.withJoins r.joins = r := by
  cases r <;> rfl

theorem build_reordered (h : Reordered js js') (r : Request) :
    (r.withJoins js).build catalog names = (r.withJoins js').build catalog names := by
  cases r with
  | query model q => exact congrArg (Command.select <$> ·) (q.compile_reordered h none)
  | count model c _ ignoreDeleted =>
    exact congrArg (Command.select <$> ·) (countRows_reordered h c ignoreDeleted)
  | existence model c _ ignoreDeleted =>
    exact congrArg (Command.select <$> ·) (checkExistence_reordered h c ignoreDeleted)
  | aggregate model q => exact congrArg (Command.select <$> ·) (q.compile_reordered h)
  | recursive model q => exact congrArg (Command.select <$> ·) (q.rows_reordered h)
  | recursiveCount model q => exact congrArg (Command.select <$> ·) (q.count_reordered h)
  | deleteWhere | vectorSearch => rfl

theorem depthBound_reordered (h : Reordered js js') (r : Request) :
    (r.withJoins js).depthBound catalog = (r.withJoins js').depthBound catalog := by
  have hcount : (r.withJoins js).relatedCount = (r.withJoins js').relatedCount := by
    cases r <;> simp only [withJoins, relatedCount, Condition.relatedCountJoins_perm h.perm]
  rw [depthBound, depthBound, hcount]

/-- Requests whose explicit joins are reordered are compiled to one statement, or rejected for one
reason. -/
theorem compile_reordered (h : Reordered js js') (r : Request) :
    (r.withJoins js).compile catalog = (r.withJoins js').compile catalog := by
  have hkind : (r.withJoins js).kind = (r.withJoins js').kind := by cases r <;> rfl
  have hmodel : (r.withJoins js).model = (r.withJoins js').model := by cases r <;> rfl
  rw [compile, compile, compileWithin, compileWithin, depthBound_reordered h, build_reordered h,
    hkind, hmodel]

/-- Explicit joins of different paths may be listed in any order. -/
theorem compile_perm (h : js.Perm js') (hnodup : (js.map JoinOf.path).Nodup) (r : Request) :
    (r.withJoins js).compile catalog = (r.withJoins js').compile catalog :=
  compile_reordered (.of_perm h hnodup) r

end Request

/-! ## The join that is in effect -/

theorem lastJoin?_all (js : List Join) (path : String) :
    lastJoin? js (Path.all path) = (js.filter (·.path == path)).getLast? := by
  have hsame : (fun join : Join => Path.all join.path == Path.all path) =
      fun join => join.path == path := by
    funext join
    rw [Bool.eq_iff_iff, beq_iff_eq, beq_iff_eq]
    exact ⟨Path.all_injective, congrArg Path.all⟩
  rw [lastJoin?, hsame, ← List.head?_filter, List.filter_reverse, List.head?_reverse]

theorem lastJoin?_sortBy (js : List Join) (path : String) :
    lastJoin? (Keyed.sortBy JoinOf.path js) (Path.all path) = lastJoin? js (Path.all path) := by
  rw [lastJoin?_all, lastJoin?_all, Keyed.filter_sortBy]

/-- A join behind which its path is not joined again is the last one of its path. -/
theorem lastJoin?_of_last {before after : List Join} {join : Join}
    (h : ∀ later ∈ after, later.path ≠ join.path) :
    lastJoin? (before ++ join :: after) (Path.all join.path) = some join := by
  have hafter : after.filter (·.path == join.path) = [] :=
    List.filter_eq_nil_iff.2 fun later hlater => by simpa using h later hlater
  rw [lastJoin?_all, List.filter_append, List.filter_cons, beq_self_eq_true, if_pos rfl, hafter,
    List.getLast?_concat]

/-- The joins of a query are those of the tables of a tree, which are joined as explicit joins ask
for. -/
structure Tail.JoinsOf (catalog : Catalog) (names : Names Scope) (js : List Join) (tree : JoinTree)
    (tail : Tail) : Prop where
  isTree : tree.IsTree
  serves : ∃ ignoreDeleted, tree.Serves catalog ignoreDeleted (Keyed.sortBy JoinOf.path js)
  clauses : ∃ q q', (tree.clauses catalog names).run q = .ok tail.source.joins q'

/-- The table at the path of an explicit join is joined as that join asks for: with its type, and
with the predicate that its condition stands for on that table. -/
structure JoinClause.Heeds (catalog : Catalog) (names : Names Scope) (tree : JoinTree) (join : Join)
    (j : Joined) (clause : JoinClause Predicate) : Prop where
  path : j.path = Path.all join.path
  ignoreDeleted : j.ignoreDeleted = join.ignoreDeleted
  type : clause.type = join.type
  model : clause.model = j.access.model
  number : clause.number = j.number
  requested : ∃ q q', (Condition.resolve? catalog.dialect names join.condition
    ⟨tree, j.toTable, true⟩ (JoinTree.joinMark j.toTable ++ "1")).run q =
      .ok clause.filter.requested q'

variable {tree : JoinTree} {join : Join} {p p' : Progress}

theorem Tail.JoinsOf.heeds {tail : Tail} {before after : List Join}
    (h : tail.JoinsOf catalog names (before ++ join :: after) tree)
    (hlast : ∀ later ∈ after, later.path ≠ join.path) :
    ∃ j ∈ tree.joined, ∃ clause ∈ tail.source.joins, clause.Heeds catalog names tree join j := by
  obtain ⟨ignoreDeleted, hserves⟩ := h.serves
  obtain ⟨q, q', hclauses⟩ := h.clauses
  have hmem : join ∈ Keyed.sortBy JoinOf.path (before ++ join :: after) :=
    (Keyed.sortBy_perm _ _).mem_iff.2 (List.mem_append_right _ List.mem_cons_self)
  obtain ⟨j, hj, hpath⟩ := hserves.present join hmem
  have hfollows := hserves.follows j hj
  rw [hpath, lastJoin?_sortBy, lastJoin?_of_last hlast] at hfollows
  obtain ⟨htype, hcondition, hignore⟩ := hfollows
  obtain ⟨clause, hclause, q₁, q₁', hrun⟩ :=
    forall₂_mem_left (run_mapM hclauses) (tree.inOrder_perm.mem_iff.2 hj)
  obtain ⟨mid, -, hkind, hmodel, hnumber, -, hasked⟩ := JoinTree.clause_eq_ok hrun
  rw [hcondition] at hasked
  exact ⟨j, hj, clause, hclause, hpath, hignore, hkind.trans htype, hmodel, hnumber, mid, q₁', hasked⟩

/-- Each table is joined by one clause. -/
theorem Tail.JoinsOf.eq_of_number {tail : Tail} (h : tail.JoinsOf catalog names js tree)
    {clause clause' : JoinClause Predicate} (hclause : clause ∈ tail.source.joins)
    (hclause' : clause' ∈ tail.source.joins) (hnumber : clause.number = clause'.number) :
    clause = clause' := by
  obtain ⟨q, q', hclauses⟩ := h.clauses
  have hnumbers : List.Forall₂ (· = ·) (tree.inOrder.map fun j => j.number)
      (tail.source.joins.map JoinClause.number) := by
    rw [List.forall₂_map_left_iff, List.forall₂_map_right_iff]
    exact (JoinTree.clauses_forall₂ hclauses).imp fun _ _ hc => hc.1.symm
  rw [List.forall₂_eq_eq_eq] at hnumbers
  have hnodup := (List.nodup_cons.1 h.isTree.listed_numbers).2
  rw [hnumbers] at hnodup
  exact List.inj_on_of_nodup_map hnodup hclause hclause' hnumber

theorem JoinTree.tail_joinsOf {access : Access} {n n' : Nat} {ignoreDeleted hierarchy : Bool}
    {condition : Option Condition} {keys : List Expression} {order : List OrderTerm}
    {page : Option Page} {t : Tail} (hmade : Made catalog true access js n tree n')
    (hserves : tree.Serves catalog ignoreDeleted (Keyed.sortBy JoinOf.path js))
    (h : (tree.tail catalog names hierarchy condition keys order page).run p = .ok t p') :
    t.JoinsOf catalog names js tree := by
  obtain ⟨q, _, hclauses, -⟩ := JoinTree.tail_eq_ok h
  exact ⟨hmade.isTree, ⟨_, hserves⟩, p, q, hclauses⟩

theorem Query.compile_joinsOf {q : Query} {hierarchy : Option Hierarchy} {s : Select}
    (h : (q.compile catalog names model hierarchy).run p = .ok s p') :
    ∃ tree, catalog.access model = .ok tree.root.access ∧
      s.tail.JoinsOf catalog names q.joins tree := by
  obtain ⟨access, tree, _, _, haccess, hmade, hserves, -, -, -, htail⟩ := Query.compile_eq_ok h
  exact ⟨tree, hmade.access_eq ▸ haccess, JoinTree.tail_joinsOf hmade hserves htail⟩

theorem countRows_joinsOf {condition : Option Condition} {ignoreDeleted : Bool} {s : Select}
    (h : (countRows catalog names model condition js ignoreDeleted).run p = .ok s p') :
    ∃ tree, catalog.access model = .ok tree.root.access ∧ s.tail.JoinsOf catalog names js tree := by
  obtain ⟨access, tree, _, haccess, hmade, hserves, -, -, -, htail⟩ := countRows_eq_ok h
  exact ⟨tree, hmade.access_eq ▸ haccess, JoinTree.tail_joinsOf hmade hserves htail⟩

/-- The joins of a compiled request with explicit joins. -/
theorem Request.joinsOf_build {r : Request} {command : Command} (hjoins : r.joins ≠ [])
    (h : (r.build catalog names).run p = .ok command p') :
    ∃ s tree, command = .select s ∧ catalog.access r.model = .ok tree.root.access ∧
      s.tail.JoinsOf catalog names r.joins tree := by
  cases r with
  | query model q =>
    obtain ⟨s, hs, rfl⟩ := run_map_eq_ok.1 h
    obtain ⟨tree, hof⟩ := Query.compile_joinsOf hs
    exact ⟨s, tree, rfl, hof⟩
  | count model c js ignoreDeleted =>
    obtain ⟨s, hs, rfl⟩ := run_map_eq_ok.1 h
    obtain ⟨tree, hof⟩ := countRows_joinsOf hs
    exact ⟨s, tree, rfl, hof⟩
  | existence model c js ignoreDeleted =>
    obtain ⟨s, hs, rfl⟩ := run_map_eq_ok.1 h
    obtain ⟨access, tree, _, haccess, hmade, hserves, -, -, -, htail⟩ := checkExistence_eq_ok hs
    exact ⟨s, tree, rfl, hmade.access_eq ▸ haccess, JoinTree.tail_joinsOf hmade hserves htail⟩
  | aggregate model q =>
    obtain ⟨s, hs, rfl⟩ := run_map_eq_ok.1 h
    obtain ⟨access, tree, _, _, haccess, hmade, hserves, -, -, -, -, htail⟩ :=
      AggregateQuery.compile_eq_ok hs
    exact ⟨s, tree, rfl, hmade.access_eq ▸ haccess, JoinTree.tail_joinsOf hmade hserves htail⟩
  | recursive model q =>
    obtain ⟨s, hs, rfl⟩ := run_map_eq_ok.1 h
    obtain ⟨_, _, _, -, -, ⟨-, hquery⟩ | ⟨-, _, _, -, hquery⟩⟩ := HierarchyQuery.rows_eq_ok hs
    · obtain ⟨tree, hof⟩ := Query.compile_joinsOf hquery
      exact ⟨s, tree, rfl, hof⟩
    · obtain ⟨tree, hof⟩ := Query.compile_joinsOf hquery
      exact ⟨s, tree, rfl, hof⟩
  | recursiveCount model q =>
    obtain ⟨s, hs, rfl⟩ := run_map_eq_ok.1 h
    obtain ⟨_, _, _, -, -, ⟨-, hcount⟩ | ⟨-, _, tree, _, _, -, htree, -, -, -, htail⟩⟩ :=
      HierarchyQuery.count_run hs
    · obtain ⟨tree, hof⟩ := countRows_joinsOf hcount
      exact ⟨s, tree, rfl, hof⟩
    · obtain ⟨access, haccess, hmade⟩ := JoinTree.ofDemand_made htree
      exact ⟨s, tree, rfl, hmade.access_eq ▸ haccess,
        JoinTree.tail_joinsOf hmade (JoinTree.ofDemand_serves htree) htail⟩
  | deleteWhere | vectorSearch => exact absurd rfl hjoins

/-! ## What is written -/

open Text (Within)

theorem JoinClause.within_requested (clause : JoinClause Predicate) :
    Within clause.filter.requested.text (Predicate.joinsText [clause]) := by
  obtain ⟨type, model, number, link, enforced, requested⟩ := clause
  have hfilter : Within requested.text (Text.joinFragments .and [enforced.text, requested.text]) :=
    .joinFragments _ (by simp)
  rw [Predicate.joinsText]
  exact (hfilter.andText.append_left _).append_right _

theorem JoinClause.within_joins {clause : JoinClause Predicate}
    {clauses : List (JoinClause Predicate)} (h : clause ∈ clauses) :
    Within (Predicate.joinsText [clause]) (Predicate.joinsText clauses) := by
  obtain ⟨front, back, rfl⟩ := List.append_of_mem h
  rw [Predicate.joinsText_eq_join (front ++ clause :: back), List.map_append, List.map_cons,
    String.join_append, String.join_cons]
  exact .append_left _ (.append_right _ (.refl _))

theorem Select.within_joins (s : Select) (d : Dialect) :
    Within (Predicate.joinsText s.tail.source.joins) (s.text d) := by
  have hsource : Within (Predicate.joinsText s.tail.source.joins) s.tail.sourceText := by
    rw [Tail.sourceText, From.text]
    exact .append_right _ (.append_left _ (.refl _))
  rw [Select.text, Tail.text]
  refine .append_left _ ?_
  iterate 3 refine .append_right _ ?_
  exact hsource

/-- Explicit joins may be listed in any order, but for those of one path, and of these the last one is
in effect. Its condition, and no other, is what the clause of the path's table asks of joined rows. -/
theorem Request.explicit_joins (catalog : Catalog) (r : Request) :
    (∀ js, Reordered r.joins js → (r.withJoins js).compile catalog = r.compile catalog) ∧
    ∀ statement events before join after, r.compile catalog = (.ok statement, events) →
      r.joins = before ++ join :: after → (∀ later ∈ after, later.path ≠ join.path) →
      ∃ s tree, statement.command = .select s ∧ catalog.access r.model = .ok tree.root.access ∧
        tree.IsTree ∧ ∃ j ∈ tree.joined, ∃ clause ∈ s.tail.source.joins,
          clause.Heeds catalog (.ofTree catalog (r.depthBound catalog)) tree join j ∧
          (∀ other ∈ s.tail.source.joins, other.number = j.number → other = clause) ∧
          Within clause.filter.requested.text (Predicate.joinsText [clause]) ∧
          Within (Predicate.joinsText [clause]) statement.sql := by
  constructor
  · intro js h
    have hsame : (r.withJoins r.joins).compile catalog = (r.withJoins js).compile catalog :=
      compile_reordered h r
    rw [withJoins_joins] at hsame
    exact hsame.symm
  · intro statement events before join after h hjoins hlast
    obtain ⟨command, p, hbuild, rfl, -⟩ := compileWithin_eq_ok.1 h
    have hsome : r.joins ≠ [] := by simp [hjoins]
    obtain ⟨s, tree, rfl, haccess, hof⟩ := joinsOf_build hsome hbuild
    have hjoined := hof
    rw [hjoins] at hjoined
    obtain ⟨j, hj, clause, hclause, hheeds⟩ := hjoined.heeds hlast
    refine ⟨s, tree, rfl, haccess, hof.isTree, j, hj, clause, hclause, hheeds,
      fun other hother hnumber => ?_, clause.within_requested, ?_⟩
    · exact hof.eq_of_number hother hclause (hnumber.trans hheeds.number.symm)
    · exact (JoinClause.within_joins hclause).trans (s.within_joins catalog.dialect)

/-- A join of managers by their name. -/
def managersByName : Join where
  path := "manager"
  condition := some (.compare "name" .eq (.text "x") false)

/-- Employees with their reports and, joined twice, their managers. -/
def teamSizes : Request :=
  .count "Employee" none [{ path := "reports" }, managersByName, { path := "manager" }] false

/-- The join of managers by name may stand on either side of the join of reports. Before another join
of managers it has no effect: managers are joined, by no name. -/
theorem teamSizes_explicit_joins :
    (teamSizes.withJoins [managersByName, { path := "reports" }, { path := "manager" }]).compile teams =
      teamSizes.compile teams ∧
    ∃ statement events s, teamSizes.compile teams = (.ok statement, events) ∧
      statement.sql = "SELECT COUNT(*) AS `count` FROM employee AS t0" ++
        " LEFT JOIN employee AS t1 ON t1.id = t0.manager_id" ++
        " LEFT JOIN employee AS t2 ON t2.manager_id = t0.id" ∧
      statement.command = .select s ∧
      ∃ clause ∈ s.tail.source.joins, clause.type = .left ∧ clause.filter.requested = .absent := by
  obtain ⟨hreordered, hjoins⟩ := Request.explicit_joins teams teamSizes
  constructor
  · refine hreordered _ fun path => ?_
    by_cases hreports : "reports" = path
    · subst hreports
      rfl
    · simp [teamSizes, Request.joins, List.filter_cons, beq_eq_false_iff_ne.2 hreports]
  · obtain ⟨statement, events, h⟩ : ∃ statement events,
        teamSizes.compile teams = (.ok statement, events) := ⟨_, _, rfl⟩
    obtain ⟨s, tree, hcommand, -, -, j, -, clause, hclause, hheeds, -⟩ :=
      hjoins statement events [{ path := "reports" }, managersByName] { path := "manager" } [] h rfl
        nofun
    obtain ⟨q, q', hasked⟩ := hheeds.requested
    obtain ⟨habsent, -⟩ := run_pure_eq_ok.1 hasked
    refine ⟨statement, events, s, h, ?_, hcommand, clause, hclause, hheeds.type, habsent.symm⟩
    cases h
    decide +kernel

end QueryCompiler
