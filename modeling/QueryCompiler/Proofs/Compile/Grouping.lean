import QueryCompiler.Proofs.Compile.Columns
import QueryCompiler.Proofs.Compile.SameRows

/-!
# Columns grouped by relationship

A request for rows may ask for its columns to be grouped. The columns are then the same in the same
order, and so are text and values; all that differs is that the columns of a relationship stand below
it. What stands below a group are the columns of tables that its path leads through, for a table
without columns leaves no group, and whatever `groupBelow` puts into a group has a longer path.
-/

namespace QueryCompiler

open Build

namespace ResultColumn

/-- The columns of a relationship. -/
structure Group where
  cardinality : Cardinality
  property : String
  columns : List ResultColumn

mutual

/-- The groups of a column, at every depth. -/
def groupsOf : ResultColumn → List Group
  | .leaf _ => []
  | .related cardinality property columns => ⟨cardinality, property, columns⟩ :: groups columns

/-- The groups of columns, at every depth. -/
def groups : List ResultColumn → List Group
  | [] => []
  | c :: cs => c.groupsOf ++ groups cs

end

/-- A group is that of a relationship: it is named by the path that leads there from the model and
has its cardinality. Below it stands at least one leaf, and the name of each begins with the group's
and a dot. -/
structure Group.IsRelated (catalog : Catalog) (model : String) (g : Group) : Prop where
  relation : ∃ a path owner name f r, catalog.access model = .ok a ∧
    g.property = ".".intercalate (path ++ [name]) ∧ catalog.walk? false a path = some owner ∧
    owner.model.field? name = some f ∧ f.kind = .relation r ∧ r.cardinality = g.cardinality
  named : ∀ l ∈ leaves g.columns, ∃ rest, l.property = g.property ++ "." ++ rest
  inhabited : leaves g.columns ≠ []

theorem groups_append (cs ds : List ResultColumn) : groups (cs ++ ds) = groups cs ++ groups ds := by
  induction cs with
  | nil => rfl
  | cons c cs ih => rw [List.cons_append, groups, groups, ih, List.append_assoc]

/-- Columns that stand by themselves make no groups. -/
theorem groups_eq_nil {cs : List ResultColumn} (h : ∀ c ∈ cs, ∃ l, c = .leaf l) : groups cs = [] := by
  induction cs with
  | nil => rfl
  | cons c cs ih =>
    obtain ⟨l, rfl⟩ := h c List.mem_cons_self
    rw [groups, groupsOf, List.nil_append]
    exact ih fun d hd => h d (List.mem_cons_of_mem _ hd)

theorem groups_map_leaf (ls : List Leaf) : groups (ls.map .leaf) = [] :=
  groups_eq_nil fun c hc => by
    obtain ⟨l, -, rfl⟩ := List.mem_map.1 hc
    exact ⟨l, rfl⟩

/-- The text of what is selected follows from the leaves. -/
theorem selectText_congr {cs ds : List ResultColumn} (d : Dialect) (h : leaves cs = leaves ds) :
    selectText d cs = selectText d ds := by
  rw [selectText, selectText, h]

end ResultColumn

/-! ## Names -/

namespace Table

variable {path more : TablePath} {l : Leaf}

theorem columnMark_append (path more : TablePath) :
    columnMark (path ++ more) = columnMark path ++ columnMark more := by
  rw [columnMark, columnMark, columnMark, List.map_append, String.join_append]

/-- What goes before the names of a table's fields is the name of its relationship and a dot. -/
theorem columnMark_concat (path : TablePath) (name : String) :
    columnMark (path ++ [name]) = columnMark path ++ name ++ "." := by
  rw [columnMark_append, String.append_assoc]
  simp [columnMark]

theorem columnMark_append_name (path : TablePath) (name : String) :
    columnMark path ++ name = ".".intercalate (path ++ [name]) := by
  induction path with
  | nil => simp [columnMark]
  | cons head path ih =>
    have hmark : columnMark (head :: path) = head ++ "." ++ columnMark path := by
      simp [columnMark]
    have hrest : path ++ [name] ≠ [] := List.append_ne_nil_of_right_ne_nil path (List.cons_ne_nil _ _)
    rw [hmark, String.append_assoc, ih, List.cons_append, String.intercalate_cons_of_ne_nil hrest]

/-- The name of a column begins with what goes before the fields of the table at a path. -/
def IsMarked (path : TablePath) (l : Leaf) : Prop :=
  ∃ rest, l.property = columnMark path ++ rest

theorem IsMarked.above (h : IsMarked more l) (hpath : path <+: more) : IsMarked path l := by
  obtain ⟨names, rfl⟩ := hpath
  obtain ⟨rest, hrest⟩ := h
  exact ⟨columnMark names ++ rest, by rw [hrest, columnMark_append, String.append_assoc]⟩

theorem isMarked_leaves {t : Table} (h : l ∈ t.leaves) : IsMarked t.path l := by
  obtain ⟨f, -, b, -, -, -, ⟨-, hl⟩ | ⟨g, -, -, hl⟩⟩ := mem_leaves h
  · exact ⟨_, hl⟩
  · exact ⟨f.name ++ "." ++ b.name, by rw [hl, String.append_assoc, String.append_assoc,
      String.append_assoc]⟩

end Table

/-! ## Groups of tables -/

namespace JoinTree

open ResultColumn

variable {catalog : Catalog} {tree : JoinTree}

/-- A group is that of a joined table. -/
structure IsGroupOf (j : Joined) (g : Group) : Prop where
  cardinality : g.cardinality = j.link.relation.cardinality
  property : g.property = Table.columnMark j.path.dropLast ++ j.link.name
  marked : ∀ l ∈ leaves g.columns, Table.IsMarked j.path l
  inhabited : leaves g.columns ≠ []

/-- Columns that are grouped so far, of these tables: none of them is without leaves, their leaves
bear the names of the tables at their paths, and so do the leaves of the groups in them. -/
structure GroupsTables (js : List Joined) (after : List (TablePath × ResultColumn)) : Prop where
  inhabited : ∀ e ∈ after, e.2.leavesOf ≠ []
  marked : ∀ e ∈ after, ∀ l ∈ e.2.leavesOf, Table.IsMarked e.1 l
  related : ∀ g ∈ groups (after.map (·.2)), ∃ j ∈ js, IsGroupOf j g

namespace GroupsTables

variable {js : List Joined} {after front back : List (TablePath × ResultColumn)} {j : Joined}

theorem cons (h : GroupsTables js after) : GroupsTables (j :: js) after where
  inhabited := h.inhabited
  marked := h.marked
  related g hg := by
    obtain ⟨i, hi, hgroup⟩ := h.related g hg
    exact ⟨i, List.mem_cons_of_mem _ hi, hgroup⟩

theorem left (h : GroupsTables js (front ++ back)) : GroupsTables js front where
  inhabited e he := h.inhabited e (List.mem_append_left _ he)
  marked e he := h.marked e (List.mem_append_left _ he)
  related g hg := h.related g (by rw [List.map_append, groups_append]; exact List.mem_append_left _ hg)

theorem right (h : GroupsTables js (front ++ back)) : GroupsTables js back where
  inhabited e he := h.inhabited e (List.mem_append_right _ he)
  marked e he := h.marked e (List.mem_append_right _ he)
  related g hg := h.related g (by rw [List.map_append, groups_append]; exact List.mem_append_right _ hg)

/-- The columns of a table and of what is grouped below its path make a group of the table. -/
theorem isGroupOf (h : GroupsTables js front) (hbelow : ∀ e ∈ front, j.path <+: e.1)
    (hsome : j.toTable.leaves.map ResultColumn.leaf ++ front.map (·.2) ≠ []) :
    IsGroupOf j ⟨j.link.relation.cardinality, Table.columnMark j.path.dropLast ++ j.link.name,
      j.toTable.leaves.map ResultColumn.leaf ++ front.map (·.2)⟩ where
  cardinality := rfl
  property := rfl
  marked l hl := by
    rw [leaves_append, leaves_map_leaf, List.mem_append] at hl
    rcases hl with hl | hl
    · exact Table.isMarked_leaves hl
    · obtain ⟨_, hc, hl⟩ := mem_leaves.1 hl
      obtain ⟨e, he, rfl⟩ := List.mem_map.1 hc
      exact (h.marked e he l hl).above (hbelow e he)
  inhabited hnone := by
    rw [leaves_append, leaves_map_leaf, List.append_eq_nil_iff] at hnone
    obtain ⟨hown, hinner⟩ := hnone
    cases front with
    | nil => simp [hown] at hsome
    | cons e es =>
      rw [List.map_cons, leaves, List.append_eq_nil_iff] at hinner
      exact h.inhabited e List.mem_cons_self hinner.1

theorem groupBelow (h : GroupsTables js after) : GroupsTables (j :: js) (groupBelow j after) := by
  have hsplit := List.takeWhile_append_dropWhile (p := fun e => j.path.isPrefixOf e.1) (l := after)
  have hbelow : ∀ e ∈ after.takeWhile fun e => j.path.isPrefixOf e.1, j.path <+: e.1 := by
    intro e he
    have hpath : j.path.isPrefixOf e.1 = true := by simpa using List.mem_takeWhile_imp he
    exact List.isPrefixOf_iff_prefix.1 hpath
  rw [JoinTree.groupBelow]
  simp only
  generalize (after.takeWhile fun e => j.path.isPrefixOf e.1) = inner at hsplit hbelow
  generalize (after.dropWhile fun e => j.path.isPrefixOf e.1) = outer at hsplit
  rw [← hsplit] at h
  split
  case h_1 => exact h.right.cons
  case h_2 hsome =>
    have hgroup := h.left.isGroupOf hbelow hsome
    refine ⟨fun e he => ?_, fun e he => ?_, fun g hg => ?_⟩
    · rcases List.mem_cons.1 he with rfl | he
      · exact hgroup.inhabited
      · exact h.right.inhabited e he
    · rcases List.mem_cons.1 he with rfl | he
      · exact hgroup.marked
      · exact h.right.marked e he
    · rw [List.map_cons, groups, groupsOf, groups_append, groups_map_leaf, List.nil_append] at hg
      rcases List.mem_append.1 hg with hg | hg
      · rcases List.mem_cons.1 hg with rfl | hg
        · exact ⟨j, List.mem_cons_self, hgroup⟩
        · exact h.left.cons.related g hg
      · exact h.right.cons.related g hg

end GroupsTables

theorem groupsTables_foldr (js : List Joined) : GroupsTables js (js.foldr groupBelow []) := by
  induction js with
  | nil => exact ⟨nofun, nofun, nofun⟩
  | cons j js ih => exact ih.groupBelow

theorem groups_columns {nested : Bool} {g : Group} (h : g ∈ groups (tree.columns nested)) :
    ∃ j ∈ tree.joined, IsGroupOf j g := by
  rw [columns, groups_append, groups_map_leaf, List.nil_append] at h
  cases nested with
  | false =>
    rw [if_neg Bool.false_ne_true, groups_map_leaf] at h
    exact absurd h List.not_mem_nil
  | true =>
    rw [if_pos rfl] at h
    obtain ⟨j, hj, hg⟩ := (groupsTables_foldr tree.inOrder).related g h
    exact ⟨j, tree.inOrder_perm.subset hj, hg⟩

/-- In a tree that has been made for a model, groups are those of relationships of the models. -/
theorem Made.isRelated {access : Access} {joins joins' : List Join} {model : String} {n n' : Nat}
    {ignoreDeleted nested : Bool} (hmade : Made catalog true access joins n tree n')
    (hserves : tree.Serves catalog ignoreDeleted joins') (hmodel : catalog.access model = .ok access)
    {g : Group} (h : g ∈ groups (tree.columns nested)) : g.IsRelated catalog model := by
  obtain ⟨j, hj, hgroup⟩ := groups_columns h
  obtain ⟨t, ht, hangs⟩ := hmade.isTree.exists_hangsOn hj
  obtain ⟨f, hfield, hkind, -⟩ := hserves.linked j hj
  have hproperty : g.property = Table.columnMark t.path ++ j.link.name := by
    rw [hgroup.property, hangs.dropLast_path]
  have hwalk := hmade.walked t (List.mem_map_of_mem ht)
  rw [hmade.access_eq] at hwalk
  rw [hangs.parentModel] at hfield
  refine ⟨⟨access, t.path, t.access, j.link.name, f, j.link.relation, hmodel, ?_, hwalk, hfield,
    hkind, hgroup.cardinality.symm⟩, fun l hl => ?_, hgroup.inhabited⟩
  · rw [hproperty, Table.columnMark_append_name]
  · obtain ⟨rest, hrest⟩ := hgroup.marked l hl
    exact ⟨rest, by rw [hrest, hangs.path, Table.columnMark_concat, hproperty]⟩

end JoinTree

/-! ## Requests -/

section

variable {catalog : Catalog} {names : Names Scope} {model : String} {p p' : Progress}

theorem Query.compile_isRelated {q : Query} {hierarchy : Option Hierarchy} {s : Select}
    (h : (q.compile catalog names model hierarchy).run p = .ok s p') :
    ∀ g ∈ ResultColumn.groups (Command.select s).columns, g.IsRelated catalog model := by
  obtain ⟨a, tree, columns, r, hmodel, hmade, hserves, hcolumns, hlist, -, -⟩ :=
    Query.compile_eq_ok h
  obtain ⟨⟨computed, bindings⟩, hcomputed, hcolumns⟩ := except_bind_eq_ok.1 hcolumns
  obtain ⟨rfl, -⟩ := Prod.mk.inj (Except.ok.inj hcolumns)
  have hnone : ResultColumn.groups computed = [] := by
    refine ResultColumn.groups_eq_nil fun c hc => ?_
    obtain ⟨e, -, sql, -, rfl⟩ := forall₂_mem_right (JoinTree.computedColumns_eq_ok hcomputed).1 hc
    exact ⟨_, rfl⟩
  intro g hg
  rw [Command.columns_of_list hlist, ResultColumn.groups_append, hnone, List.append_nil] at hg
  exact hmade.isRelated hserves hmodel hg

theorem AggregateQuery.compile_groups {q : AggregateQuery} {s : Select}
    (h : (q.compile catalog names model).run p = .ok s p') :
    ResultColumn.groups (Command.select s).columns = [] := by
  obtain ⟨a, tree, columns, r, -, -, -, hcolumns, hlist, -, -, -⟩ := AggregateQuery.compile_eq_ok h
  rw [Command.columns_of_list hlist]
  refine ResultColumn.groups_eq_nil fun c hc => ?_
  obtain ⟨i, -, hi⟩ := forall₂_mem_right (except_mapM_eq_ok.1 hcolumns) hc
  rcases JoinTree.aggregateColumn_eq_ok hi with ⟨-, rfl⟩ | ⟨_, _, -, rfl, -⟩
  · exact ⟨_, rfl⟩
  · exact ⟨_, rfl⟩

/-- All groups of a command's columns are those of relationships. -/
theorem Request.build_isRelated {r : Request} {command : Command}
    (h : (r.build catalog names).run p = .ok command p') :
    ∀ g ∈ ResultColumn.groups command.columns, g.IsRelated catalog r.model := by
  cases r with
  | query model q =>
    obtain ⟨s, hs, rfl⟩ := run_map_eq_ok.1 h
    exact Query.compile_isRelated hs
  | recursive model q =>
    obtain ⟨s, hs, rfl⟩ := run_map_eq_ok.1 h
    obtain ⟨_, _, _, -, -, ⟨-, hs⟩ | ⟨-, _, _, -, hs⟩⟩ := HierarchyQuery.rows_eq_ok hs
    · exact Query.compile_isRelated hs
    · exact Query.compile_isRelated hs
  | vectorSearch model q =>
    obtain ⟨s, hs, rfl⟩ := run_map_eq_ok.1 h
    obtain ⟨_, _, -, hs⟩ := run_bind_eq_ok.1 hs
    exact Query.compile_isRelated hs
  | aggregate model q =>
    obtain ⟨s, hs, rfl⟩ := run_map_eq_ok.1 h
    rw [AggregateQuery.compile_groups hs]
    exact List.forall_mem_nil _
  | count model condition joins ignoreDeleted =>
    obtain ⟨s, hs, rfl⟩ := run_map_eq_ok.1 h
    obtain ⟨_, _, _, -, -, -, hlist, -⟩ := countRows_eq_ok hs
    rw [Command.columns_of_list hlist]
    exact List.forall_mem_nil _
  | existence model condition joins ignoreDeleted =>
    obtain ⟨s, hs, rfl⟩ := run_map_eq_ok.1 h
    obtain ⟨_, _, _, -, -, -, hlist, -⟩ := checkExistence_eq_ok hs
    simp only [Command.columns, hlist]
    exact List.forall_mem_nil _
  | recursiveCount model q =>
    obtain ⟨s, hs, rfl⟩ := run_map_eq_ok.1 h
    have hlist : s.list = .columns countColumns := by
      obtain ⟨_, _, _, -, -, ⟨-, hs⟩ | ⟨-, _, _, _, _, -, -, hlist, -⟩⟩ :=
        HierarchyQuery.count_eq_ok hs
      · obtain ⟨_, _, _, -, -, -, hlist, -⟩ := countRows_eq_ok hs
        exact hlist
      · exact hlist
    rw [Command.columns_of_list hlist]
    exact List.forall_mem_nil _
  | deleteWhere model condition physical =>
    obtain ⟨_, _, _, -, -, -, rfl | ⟨_, -, rfl⟩⟩ := deleteWhere_eq_ok h
    · exact List.forall_mem_nil _
    · exact List.forall_mem_nil _

/-- Two queries differ in nothing but in how their columns are grouped. -/
inductive Select.Regroups : Select → Select → Prop where
  | columns {s : Select} {columns columns' : List ResultColumn} : s.list = .columns columns →
      ResultColumn.leaves columns = ResultColumn.leaves columns' →
      Regroups s { s with list := .columns columns' }

theorem Query.compile_regroups (names : Names Scope) (q : Query) (nested nested' : Bool)
    (hierarchy : Option Hierarchy) : Matches .exact Select.Regroups
      ({ q with nested := some nested }.compile catalog names model hierarchy)
      ({ q with nested := some nested' }.compile catalog names model hierarchy) := by
  rw [Query.compile, Query.compile]
  refine (Matches.refl_exact (JoinTree.ofDemand catalog model q.demand)).bind ?_
  rintro tree _ _ _ _ rfl
  have hcolumns : Comparison.exact.Settles
      (fun c c' => ResultColumn.leaves c.1 = ResultColumn.leaves c'.1 ∧ c.2 = c'.2)
      ({ q with nested := some nested }.columns catalog names tree)
      ({ q with nested := some nested' }.columns catalog names tree) := by
    refine (Comparison.Settles.refl Eq.refl (tree.computedColumns names q.computed)).bind ?_
    rintro ⟨computed, bindings⟩ _ - rfl
    refine .ok ⟨?_, rfl⟩
    rw [ResultColumn.leaves_append, ResultColumn.leaves_append, JoinTree.leaves_columns,
      JoinTree.leaves_columns]
  refine (Matches.ofExcept hcolumns).bind ?_
  rintro ⟨columns, bindings⟩ ⟨columns', _⟩ _ _ - ⟨hleaves, rfl⟩
  refine (Matches.refl_exact _).bind ?_
  rintro tail _ _ _ - rfl
  exact .pure (.columns rfl hleaves)

theorem HierarchyQuery.rows_regroups (names : Names Scope) (q : HierarchyQuery)
    (nested nested' : Bool) : Matches .exact Select.Regroups
      ({ q with query := { q.query with nested := some nested } }.rows catalog names model)
      ({ q with query := { q.query with nested := some nested' } }.rows catalog names model) := by
  rw [HierarchyQuery.rows, HierarchyQuery.rows]
  refine (Matches.refl_exact (Build.ofExcept (catalog.access model))).bind ?_
  rintro access _ _ _ - rfl
  refine (Matches.refl_exact (q.start? catalog access)).bind ?_
  rintro start _ _ _ - rfl
  split
  · exact Query.compile_regroups names q.query nested nested' none
  · refine (Matches.refl_exact (q.table catalog access start)).bind ?_
    rintro table _ _ _ - rfl
    exact Query.compile_regroups names q.query nested nested' (some table)

end

/-- Two statements differ in nothing but in how their columns are grouped. -/
def Statement.Regroups (s s' : Statement) : Prop :=
  s.sql = s'.sql ∧ s.params = s'.params ∧
    ResultColumn.leaves s.columns = ResultColumn.leaves s'.columns

namespace Request

variable {catalog : Catalog}

/-- The request with its columns grouped by relationship, or not. Only requests about rows can ask for
either. -/
def grouped (nested : Bool) : Request → Request
  | .query model q => .query model { q with nested := some nested }
  | .recursive model q => .recursive model { q with query := { q.query with nested := some nested } }
  | .recursiveCount model q =>
    .recursiveCount model { q with query := { q.query with nested := some nested } }
  | r => r

theorem compile_regroups {r r' : Request} {x x' : Build Select}
    (hdepth : r.depthBound catalog = r'.depthBound catalog)
    (hx : r.build catalog (.ofTree catalog (r.depthBound catalog)) = .select <$> x)
    (hx' : r'.build catalog (.ofTree catalog (r.depthBound catalog)) = .select <$> x')
    (h : Matches .exact Select.Regroups x x') :
    ExceptRel Statement.Regroups (r.compile catalog).1 (r'.compile catalog).1 := by
  rw [compile, compile, ← hdepth]
  rcases compileWithin_cases r r' hx hx' h with ⟨stop, hr, hr'⟩ | ⟨s, s', hr, hr', hs⟩
  · rw [hr, hr']
    exact .error stop
  · rw [hr, hr']
    obtain ⟨hlist, hleaves⟩ := hs
    refine .ok ⟨?_, rfl, ?_⟩
    · show Select.text _ _ = Select.text _ _
      rw [Select.text, Select.text, hlist, SelectList.text, SelectList.text,
        ResultColumn.selectText_congr _ hleaves]
    · show ResultColumn.leaves (Command.columns _) = ResultColumn.leaves (Command.columns _)
      simpa only [Command.columns, hlist] using hleaves

/-- Grouping the columns of a request by relationship changes how they are grouped, and nothing else:
if the request fails it fails with the same error, and otherwise text, values and the leaves of the
columns are the same. Every group is that of a relationship, and stands above columns of tables
behind it only. -/
theorem grouped_compile (catalog : Catalog) (r : Request) :
    ExceptRel (fun nested flat : Statement => nested.sql = flat.sql ∧ nested.params = flat.params ∧
        ResultColumn.leaves nested.columns = ResultColumn.leaves flat.columns ∧
        ∀ g ∈ ResultColumn.groups nested.columns, g.IsRelated catalog r.model)
      ((r.grouped true).compile catalog).1 ((r.grouped false).compile catalog).1 := by
  have hmodel : (r.grouped true).model = r.model := by cases r <;> rfl
  have hrelated : ∀ s, ((r.grouped true).compile catalog).1 = .ok s →
      ∀ g ∈ ResultColumn.groups s.columns, g.IsRelated catalog r.model := by
    intro s hs
    obtain ⟨depth, p, hbuild, -⟩ := build_of_compile (Prod.ext hs rfl)
    rw [← hmodel]
    exact build_isRelated hbuild
  have hsame : ExceptRel Statement.Regroups ((r.grouped true).compile catalog).1
      ((r.grouped false).compile catalog).1 := by
    have hrefl : ∀ x : Except Stop Statement, ExceptRel Statement.Regroups x x :=
      ExceptRel.refl fun s => ⟨rfl, rfl, rfl⟩
    cases r with
    | query model q =>
      exact compile_regroups rfl rfl rfl (Query.compile_regroups _ q true false none)
    | recursive model q =>
      exact compile_regroups rfl rfl rfl (HierarchyQuery.rows_regroups _ q true false)
    | recursiveCount model q => exact hrefl _
    | count | existence | aggregate | deleteWhere | vectorSearch => exact hrefl _
  generalize ((r.grouped true).compile catalog).1 = nested at hsame hrelated ⊢
  generalize ((r.grouped false).compile catalog).1 = flat at hsame ⊢
  cases hsame with
  | ok h => exact .ok ⟨h.1, h.2.1, h.2.2, hrelated _ rfl⟩
  | error e => exact .error e

end Request
end QueryCompiler
