import QueryCompiler.Proofs.Access.AllowList
import QueryCompiler.Proofs.JoinTree.Forest
import QueryCompiler.Proofs.Sql.Identifiers

/-!
# Select lists

What stands between `SELECT` and `FROM`: the columns that the tables show, table by table, and then
the computed ones, each under its name; a star if there is none. A table shows no column of a field
that the caller may not name, and its mark of deleted rows only if such rows are read. A column that
the caller computes reads fields that the caller may name, which may well be that mark.
-/

namespace QueryCompiler

open Build

/-- A column that a table shows: that of a field that the caller may name. If the field marks deleted
rows, the table reads such rows. -/
def Leaf.ShownBy (catalog : Catalog) (a : Access) (t : Table) (l : Leaf) : Prop :=
  catalog.walk? true a t.path = some t.access ∧
    ∃ f ∈ t.access.model.fields, ∃ b : BasicField, t.access.permits f.name = true ∧
      (f.name = deleteFlag → t.ignoreDeleted = true) ∧
      l.expression = .column ⟨.table t.number, b.column⟩ ∧
      (f.kind = .basic b ∧ l.property = Table.columnMark t.path ++ f.name ∨
        ∃ g, f.kind = .group g ∧ b ∈ g.fields ∧
          l.property = Table.columnMark t.path ++ f.name ++ "." ++ b.name)

/-- A query is over these tables. Each of them reads deleted rows if the request, or the last explicit
join of its path, says so. -/
structure Select.Over (s : Select) (a : Access) (joins : List Join) (ignoreDeleted : Bool)
    (root : Table) (rest : List Table) : Prop where
  path : root.path = []
  access : root.access = a
  number : s.tail.source.number = root.number
  joined : List.Forall₂ (fun t c => c.number = t.number ∧ c.model = t.access.model) rest
    s.tail.source.joins
  ignores : root.ignoreDeleted = ignoreDeleted
  follows : ∀ t ∈ rest, t.ignoreDeleted =
    ((lastJoin? (Keyed.sortBy JoinOf.path joins) t.path).map JoinOf.ignoreDeleted).getD false

/-- A query selects what its tables show, and then what is computed. -/
structure Select.ListsRows (s : Select) (catalog : Catalog) (a : Access) (q : Query) (root : Table)
    (rest : List Table) : Prop where
  tables : s.Over a q.joins q.ignoreDeleted root rest
  list : ∃ columns computed, s.list = .columns columns ∧
    ResultColumn.leaves columns = (root :: rest).flatMap Table.leaves ++ computed ∧
    List.Forall₂ (fun c l => l.property = c.name ∧
      l.expression.ReadsPaths catalog (.tables (root :: rest) root) c.paths) q.computed computed
  shown : ∀ t ∈ root :: rest, ∀ l ∈ t.leaves, l.ShownBy catalog a t

variable {catalog : Catalog} {a : Access} {joins : List Join} {tree : JoinTree} {p p' : Progress}
  {names : Names Scope}

namespace JoinTree

theorem Sound.shownBy (hsound : Sound catalog a joins tree) {t : Table} (ht : t ∈ tree.tables)
    {l : Leaf} (hl : l ∈ t.leaves) : l.ShownBy catalog a t := by
  obtain ⟨f, hf, b, hchosen, hflag, hexpression, hfield⟩ := Table.mem_leaves hl
  obtain ⟨c, hc, hname⟩ := List.any_eq_true.1 hchosen
  have hpermits : t.access.permits f.name = true := by
    rw [← beq_iff_eq.1 hname]
    exact hsound.settled.chosen t ht c hc
  exact ⟨hsound.chosen t ht (List.ne_nil_of_mem hc), f, hf, b, hpermits, hflag, hexpression, hfield⟩

/-- The clauses of a tree are over the tables that it lists. -/
theorem Sound.over (hsound : Sound catalog a joins tree) {ignoreDeleted hierarchy : Bool}
    (hserves : tree.Serves catalog ignoreDeleted (Keyed.sortBy JoinOf.path joins))
    {condition : Option Condition} {keys : List Expression} {order : List OrderTerm}
    {page : Option Page} {s : Select}
    (h : (tree.tail catalog names hierarchy condition keys order page).run p = .ok s.tail p') :
    s.Over a joins ignoreDeleted tree.root (tree.inOrder.map Joined.toTable) := by
  obtain ⟨_, _, hclauses, -, -, -, -, -, hnumber, -⟩ := JoinTree.tail_eq_ok h
  refine ⟨hsound.path, hsound.access, hnumber, ?_, hserves.root, fun t ht => ?_⟩
  · rw [List.forall₂_map_left_iff]
    exact (JoinTree.clauses_forall₂ hclauses).imp fun _ _ hc => ⟨hc.1, hc.2.1⟩
  · obtain ⟨j, hj, rfl⟩ := List.mem_map.1 ht
    have hfollows := hserves.follows j (tree.inOrder_perm.subset hj)
    cases hlast : lastJoin? (Keyed.sortBy JoinOf.path joins) j.path with
    | none =>
      rw [hlast] at hfollows
      exact hfollows.2.2
    | some join =>
      rw [hlast] at hfollows
      exact hfollows.2.2

end JoinTree

section

variable (hn : names.Faithful catalog (Scope.Minded catalog) Scope.view)
include hn

theorem JoinTree.Sound.computed (hsound : tree.Sound catalog a joins)
    {computed : List ComputedColumn} {columns : List ResultColumn} {bindings : List Binding}
    (h : tree.computedColumns names computed = .ok (columns, bindings)) :
    List.Forall₂ (fun c l => l.property = c.name ∧
      l.expression.ReadsPaths catalog (.tables tree.listed tree.root) c.paths) computed
        (ResultColumn.leaves columns) := by
  rw [← List.zipIdx_map_fst 0 computed, List.forall₂_map_left_iff]
  refine ResultColumn.leaves_forall₂ ((computedColumns_eq_ok h).1.imp fun c column hc => ?_)
  obtain ⟨sql, hsql, rfl⟩ := hc
  obtain ⟨_, hcolumns, rfl⟩ := Condition.fill_reads hn (hsound.minded .root) hsql
  exact ⟨_, rfl, rfl, hcolumns⟩

theorem JoinTree.Sound.items (hsound : tree.Sound catalog a joins) {d : Dialect}
    {items : List AggregateItem} {columns : List ResultColumn}
    (h : items.mapM (tree.aggregateColumn d names) = .ok columns) :
    List.Forall₂ (fun i l => l.property = i.resultName ∧
      l.expression.ReadsPaths catalog (.tables tree.listed tree.root) [i.path]) items
        (ResultColumn.leaves columns) := by
  refine ResultColumn.leaves_forall₂ ((except_mapM_eq_ok.1 h).imp fun i column hi => ?_)
  rcases aggregateColumn_eq_ok hi with ⟨-, rfl⟩ | ⟨c, e, hc, rfl, he⟩
  · exact ⟨_, rfl, rfl, trivial⟩
  · have hreads : List.Forall₂ ((View.tables tree.listed tree.root).Reads catalog) [i.path] [c] :=
      .cons (hn.column (hsound.minded .root) hc) .nil
    rcases he with rfl | ⟨template, -, rfl⟩
    · exact ⟨_, rfl, rfl, hreads⟩
    · exact ⟨_, rfl, rfl, hreads⟩

/-- A query over tables that have been joined for it lists what these show. -/
theorem Query.listsRows_of_tree {model : String} {q : Query} {hierarchy : Bool} {s : Select}
    {columns : List ResultColumn} {r : Progress}
    (htree : (JoinTree.ofDemand catalog model q.demand).run p = .ok tree r)
    (hcolumns : q.columns catalog names tree = .ok (columns, s.listBindings))
    (hlist : s.list = .columns columns)
    (htail : (tree.tail catalog names hierarchy q.condition [] q.order q.page).run r =
      .ok s.tail p') :
    ∃ a, catalog.access model = .ok a ∧
      s.ListsRows catalog a q tree.root (tree.inOrder.map Joined.toTable) := by
  obtain ⟨a, hmodel, hmade⟩ := JoinTree.ofDemand_made htree
  have hserves := JoinTree.ofDemand_serves htree
  obtain ⟨⟨computed, bindings⟩, hcomputed, hcolumns⟩ := except_bind_eq_ok.1 hcolumns
  obtain ⟨rfl, -⟩ := Prod.mk.inj (Except.ok.inj hcolumns)
  refine ⟨a, hmodel, hmade.sound.over hserves htail,
    ⟨_, _, hlist, ?_, hmade.sound.computed hn hcomputed⟩, fun t ht l hl => ?_⟩
  · rw [ResultColumn.leaves_append, JoinTree.leaves_columns]
    rfl
  · exact hmade.sound.shownBy (tree.listed_perm.subset ht) hl

end

end QueryCompiler
