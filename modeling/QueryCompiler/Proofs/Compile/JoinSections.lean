import QueryCompiler.Proofs.Compile.Depth
import QueryCompiler.Proofs.Compile.SameRows
import QueryCompiler.Proofs.JoinTree.Forest
import QueryCompiler.Proofs.Parameters.Apart

/-!
# The tables of a count

Which tables a count joins, and under which aliases, is settled before its filter is resolved, and the
paths of its condition are joined in their own order. So two counts whose conditions read the same
paths have the same tables, the same `JOIN` clauses and the same values in these, whatever subqueries
their conditions open.
-/

namespace QueryCompiler

open Build

variable {catalog : Catalog} {names : Names Scope} {model : String} {c c' : Option Condition}
  {joins : List Join} {ignoreDeleted : Bool} {p p' p₁ p₁' : Progress}

/-- The paths that a condition reads, if there is one. -/
def Condition.joinPathsOpt (c : Option Condition) : List String :=
  (c.map joinPaths).getD []

theorem JoinTree.addPaths_congr {tree : JoinTree} {t : Table} {paths paths' : List String}
    (h : ∀ path, path ∈ paths ↔ path ∈ paths') (checked : Bool) :
    tree.addPaths catalog t paths checked = tree.addPaths catalog t paths' checked := by
  have hset : Keyed.setOf (paths.filter fun p => !p.isEmpty) =
      Keyed.setOf (paths'.filter fun p => !p.isEmpty) :=
    Keyed.setOf_congr fun path => by rw [List.mem_filter, List.mem_filter, h]
  rw [addPaths, addPaths, hset]

/-- The tables of a demand depend on the paths of its condition only. -/
theorem JoinTree.ofDemand_congr (d : Demand)
    (h : ∀ path, path ∈ Condition.joinPathsOpt c ↔ path ∈ Condition.joinPathsOpt c') :
    JoinTree.ofDemand catalog model { d with condition := c } =
      JoinTree.ofDemand catalog model { d with condition := c' } := by
  have hnamed : ∀ path, path ∈ Demand.namedPaths { d with condition := c } ↔
      path ∈ Demand.namedPaths { d with condition := c' } := fun path => by
    have hpath := h path
    rw [Condition.joinPathsOpt, Condition.joinPathsOpt] at hpath
    simp only [Demand.namedPaths, List.mem_append, hpath]
  simp only [JoinTree.ofDemand, JoinTree.addPaths_congr hnamed]

/-- The joins of a tree, and what its root is held to, are resolved before the condition is. -/
theorem JoinTree.tail_source_eq {tree : JoinTree} {keys : List Expression} {order : List OrderTerm}
    {page : Option Page} {t t' : Tail}
    (h : (tree.tail catalog names false c keys order page).run p = .ok t p₁)
    (h' : (tree.tail catalog names false c' keys order page).run p = .ok t' p₁') :
    t.source = t'.source ∧ t.filter.enforced = t'.filter.enforced := by
  obtain ⟨q, r, hclauses, henforced, -, -, -, hmodel, hnumber, -⟩ := JoinTree.tail_eq_ok h
  obtain ⟨q', r', hclauses', henforced', -, -, -, hmodel', hnumber', -⟩ := JoinTree.tail_eq_ok h'
  obtain ⟨hjoins, rfl⟩ := EStateM.Result.ok.inj (hclauses.symm.trans hclauses')
  have hheld := henforced.resolve_left fun hgrown => Bool.false_ne_true hgrown.1
  have hheld' := henforced'.resolve_left fun hgrown => Bool.false_ne_true hgrown.1
  obtain ⟨hsame, -⟩ := EStateM.Result.ok.inj (hheld.2.symm.trans hheld'.2)
  refine ⟨?_, hsame⟩
  calc t.source = ⟨t.source.model, t.source.number, t.source.joins⟩ := rfl
    _ = ⟨t'.source.model, t'.source.number, t'.source.joins⟩ := by
      rw [hmodel, hmodel', hnumber, hnumber', hjoins]
    _ = t'.source := rfl

/-- Counts of one model whose conditions read the same paths join the same tables. -/
theorem countRows_source_eq {s s' : Select}
    (hpaths : ∀ path, path ∈ Condition.joinPathsOpt c ↔ path ∈ Condition.joinPathsOpt c')
    (h : (countRows catalog names model c joins ignoreDeleted).run p = .ok s p₁)
    (h' : (countRows catalog names model c' joins ignoreDeleted).run p = .ok s' p₁') :
    s.tail.source = s'.tail.source ∧ s.tail.filter.enforced = s'.tail.filter.enforced := by
  obtain ⟨tree, r, htree, htail, -⟩ := countRows_run h
  obtain ⟨tree', r', htree', htail', -⟩ := countRows_run h'
  have hsame : (JoinTree.ofDemand catalog model { condition := c, joins, ignoreDeleted }).run p =
      (JoinTree.ofDemand catalog model { condition := c', joins, ignoreDeleted }).run p :=
    congrArg (EStateM.run · p) (JoinTree.ofDemand_congr { joins, ignoreDeleted } hpaths)
  rw [hsame, htree'] at htree
  obtain ⟨rfl, rfl⟩ := EStateM.Result.ok.inj htree
  exact JoinTree.tail_source_eq htail htail'

namespace Request

variable {statement statement' : Statement} {events events' : List Event}

/-- What is compiled stays the same if more depth is allowed. -/
theorem compileWithin_of_compile {r : Request} {depth : Nat}
    (h : r.compile catalog = (.ok statement, events)) (hdepth : r.depthBound catalog ≤ depth) :
    r.compileWithin depth catalog = (.ok statement, events) := by
  rcases compileWithin_le hdepth with hdeep | heq
  · rw [compile] at h
    rw [h] at hdeep
    cases hdeep
  · exact heq.trans h

/-- A compiled count: its columns, its tables and then its filter, with the values of its joins among
its own. -/
theorem count_written (h : (count model c joins ignoreDeleted).compile catalog = (.ok statement, events))
    {depth : Nat} (hdepth : (count model c joins ignoreDeleted).depthBound catalog ≤ depth) :
    ∃ s p, (countRows catalog (.ofTree catalog depth) model c joins ignoreDeleted).run {} = .ok s p ∧
      statement.command = .select s ∧
      statement.sql = "SELECT " ++ SelectList.text catalog.dialect (.columns countColumns) ++
        s.tail.source.text ++ optionalClause " WHERE " s.tail.filter.text ∧
      ∀ b ∈ Predicate.joinsBindings s.tail.source.joins, statement.params.get? b.path = some b.value := by
  obtain ⟨command, p, hbuild, hstatement, -⟩ :=
    compileWithin_eq_ok.1 (compileWithin_of_compile h hdepth)
  obtain ⟨s, hrun, rfl⟩ := run_map_eq_ok.1 hbuild
  obtain ⟨tree, r, -, htail, hs⟩ := countRows_run hrun
  have hcommand : statement.command = .select s := by rw [hstatement]
  refine ⟨s, p, hrun, hcommand, ?_, fun b hb => ?_⟩
  · rw [Statement.sql, hstatement, Command.text, hs,
      (JoinTree.tail_isBare htail).select_text, Tail.sourceText, ← String.append_assoc]
  · refine Params.get?_ofBindings (paths_nodup h).1 ?_
    rw [hcommand, Command.bindings, Select.bindings, Tail.bindings]
    simp only [List.mem_append]
    exact .inr (.inl (.inl (.inl hb)))

/-- The tables of a count depend only on the set of paths that its condition reads. Two conditions with
the same paths, if the counts by both are compiled, give the same tables under the same aliases, the
same text of the joins, and the same values in them. -/
theorem counts_joined_alike (model : String) (joins : List Join) (ignoreDeleted : Bool)
    (hpaths : ∀ path, path ∈ Condition.joinPathsOpt c ↔ path ∈ Condition.joinPathsOpt c')
    (h : (count model c joins ignoreDeleted).compile catalog = (.ok statement, events))
    (h' : (count model c' joins ignoreDeleted).compile catalog = (.ok statement', events')) :
    ∃ s s', statement.command = .select s ∧ statement'.command = .select s' ∧
      s.tail.source = s'.tail.source ∧
      (∃ head filter filter', statement.sql = head ++ s.tail.source.text ++ filter ∧
        statement'.sql = head ++ s.tail.source.text ++ filter') ∧
      ∀ b ∈ Predicate.joinsBindings s.tail.source.joins,
        statement.params.get? b.path = some b.value ∧ statement'.params.get? b.path = some b.value := by
  obtain ⟨s, p, hrun, hcommand, hsql, hbound⟩ := count_written h (le_max_left _ _)
  obtain ⟨s', p', hrun', hcommand', hsql', hbound'⟩ := count_written h' (le_max_right _ _)
  obtain ⟨hsource, -⟩ := countRows_source_eq hpaths hrun hrun'
  refine ⟨s, s', hcommand, hcommand', hsource, ⟨_, _, _, hsql, hsource ▸ hsql'⟩, fun b hb => ?_⟩
  exact ⟨hbound b hb, hbound' b (hsource ▸ hb)⟩

end Request

/-- Two conditions on employees that read the names and the reports of their managers. -/
def ledByName : Condition :=
  .group .and [
    .related "manager.reports" (some (.compare "name" .eq (.text "y") false)) [] false,
    .compare "manager.name" .eq (.text "x") false]

def ledOrNot : Condition :=
  .group .or [.compare "manager.name" .isNull .null false,
    .negate (.related "manager.reports" none [] true), .compare "manager.name" .eq (.text "z") false]

/-- Both conditions open a subquery. The reports that are joined by name and the managers have the same
aliases in both counts, and the name is bound alike. -/
theorem teams_counts_joined_alike : ∃ statement statement' events events' s s',
    let named : Join :=
      { path := "reports", condition := some (.compare "name" .eq (.text "w") false) }
    (Request.count "Employee" (some ledByName) [named] false).compile teams =
      (.ok statement, events) ∧
    (Request.count "Employee" (some ledOrNot) [named] false).compile teams =
      (.ok statement', events') ∧
    statement.command = .select s ∧ statement'.command = .select s' ∧
    s.tail.source = s'.tail.source ∧
    s.tail.source.text = " FROM employee AS t0" ++
      " LEFT JOIN employee AS t1 ON t1.manager_id = t0.id AND t1.name = #\x7bj11.v\x7d" ++
      " LEFT JOIN employee AS t2 ON t2.id = t0.manager_id" ∧
    statement.params.get? "j11.v" = some (.text "w") ∧
    statement'.params.get? "j11.v" = some (.text "w") := by
  have hpaths : ∀ path, path ∈ Condition.joinPathsOpt (some ledByName) ↔
      path ∈ Condition.joinPathsOpt (some ledOrNot) := by
    intro path
    show path ∈ ["manager.name", "manager"] ↔ path ∈ ["manager.name", "manager.name", "manager"]
    simp
  obtain ⟨statement, events, h⟩ : ∃ statement events, (Request.count "Employee" (some ledByName)
      [{ path := "reports", condition := some (.compare "name" .eq (.text "w") false) }]
      false).compile teams = (.ok statement, events) := ⟨_, _, rfl⟩
  obtain ⟨statement', events', h'⟩ : ∃ statement events, (Request.count "Employee" (some ledOrNot)
      [{ path := "reports", condition := some (.compare "name" .eq (.text "w") false) }]
      false).compile teams = (.ok statement, events) := ⟨_, _, rfl⟩
  obtain ⟨s, s', hcommand, hcommand', hsource, -, hbound⟩ :=
    Request.counts_joined_alike "Employee" _ false hpaths h h'
  have hjoins : s.tail.source.text = " FROM employee AS t0" ++
      " LEFT JOIN employee AS t1 ON t1.manager_id = t0.id AND t1.name = #\x7bj11.v\x7d" ++
      " LEFT JOIN employee AS t2 ON t2.id = t0.manager_id" ∧
      ⟨"j11.v", .text "w"⟩ ∈ Predicate.joinsBindings s.tail.source.joins := by
    cases h
    cases hcommand
    exact ⟨by decide +kernel, List.mem_singleton_self _⟩
  obtain ⟨hname, hname'⟩ := hbound _ hjoins.2
  exact ⟨statement, statement', events, events', s, s', h, h', hcommand, hcommand', hsource,
    hjoins.1, hname, hname'⟩

end QueryCompiler
