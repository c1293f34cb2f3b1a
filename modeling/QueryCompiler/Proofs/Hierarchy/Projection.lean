import QueryCompiler.Proofs.Hierarchy.Carried
import QueryCompiler.Proofs.Hierarchy.Runs
import QueryCompiler.Proofs.Scoping.Statements
import QueryCompiler.Proofs.Compile.Columns

/-!
# What the query around a growing table names

Every column of the growing table that the query around it names is one that the table carries, but for
one case (`Request.hierarchy_carries`): a comparison of the caller's rule that is left out since its value
is empty still joins the tables on its path, and what ties the first of them is not carried unless the
query asks for it by itself.
-/

namespace QueryCompiler

open Build

variable {catalog : Catalog} {names : Names Scope} {p p' : Progress}

/-! ## The columns of a query -/

/-- The columns that an expression names. -/
def Expression.columns : Expression → List Column
  | .column c | .aggregate _ _ c | .groupKey _ c => [c]
  | .filled sql => sql.columns
  | .rowCount | .raw _ => []

/-- The columns that are named by what is selected. -/
def SelectList.named : SelectList → List Column
  | .one => []
  | .columns cs => (ResultColumn.leaves cs).flatMap fun l => l.expression.columns

/-- The columns that are named behind what is selected. -/
def Tail.columns (t : Tail) : List Column :=
  Predicate.joinsColumns t.source.joins ++ t.filter.columns ++
    t.groupKeys.flatMap Expression.columns ++ t.order.flatMap fun k => k.expression.columns

/-- The columns that a query names around its growing table. -/
def Select.outerColumns (s : Select) : List Column :=
  s.list.named ++ s.tail.columns

/-- The column ties a row of the first table to one that the query does not ask for: the caller's rule
compares something over that relationship with a value that is empty, and so without saying anything. -/
def Query.Strays (q : Query) (access : Access) (c : Column) : Prop :=
  ∃ f r, access.model.field? f.name = some f ∧ f.kind = .relation r ∧ r.cardinality = .one ∧
    ¬ q.Wants f.name ∧
    (∃ name ∈ r.on, ∃ b, access.model.basicField? name = some b ∧ c.name = b.column) ∧
    ∃ rule ∈ access.enforced? q.ignoreDeleted, ∃ path ∈ rule.columnPaths, path ∉ rule.readPaths ∧
      Path.head path = f.name

/-- The tables of a query, the first of which is to be a growing table, with what the query asks of
them. -/
structure Query.Planted (catalog : Catalog) (access : Access) (q : Query) (tree : JoinTree) (n : Nat) :
    Prop where
  made : JoinTree.Made catalog true access q.joins hierarchyAlias tree n
  serves : tree.Serves catalog q.ignoreDeleted (Keyed.sortBy JoinOf.path q.joins)
  chosen : ∀ c ∈ tree.root.chosen, q.Wants c.1 ∨ access.model.isKey c.1 = true
  begins : ∀ {x name}, tree.Has x → x.path = [name] → q.Wants name ∨
    ∃ rule ∈ access.enforced? q.ignoreDeleted, ∃ path ∈ rule.joinPaths, Path.head path = name

namespace Query.Planted

variable {q : Query} {access : Access} {tree : JoinTree} {n : Nat} {keys parents : List BasicField}
  {c : Column} {path : String}

theorem of_demand {model : String} (hp : p.nextNumber = hierarchyAlias)
    (hmodel : catalog.access model = .ok access)
    (h : (JoinTree.ofDemand catalog model q.demand).run p = .ok tree p') :
    q.Planted catalog access tree p'.nextNumber := by
  obtain ⟨access', hmodel', hmade⟩ := JoinTree.ofDemand_made h
  obtain rfl := Except.ok.inj (hmodel.symm.trans hmodel')
  have hserves := JoinTree.ofDemand_serves h
  rw [hp] at hmade
  have haccess := hmade.access_eq
  refine ⟨hmade, hserves, ?_, fun {x name} hx hpath => ?_⟩
  · rw [← haccess]
    exact (tree_wanted h).1
  · rw [← haccess, ← show _ = q.ignoreDeleted from hserves.root]
    exact (tree_wanted h).2 x name hx hpath

theorem number (h : q.Planted catalog access tree n) : tree.root.number = hierarchyAlias := by
  obtain ⟨start, mid, m, hstart, hsteps, hext, -, -⟩ := h.made
  have hroot := JoinTree.root_core (hsteps.cores_prefix.trans hext.cores_prefix)
  exact (congrArg (fun c => c.2.1) hroot).trans hstart.number

theorem path_of_number (h : q.Planted catalog access tree n) {t : Table} (ht : tree.Has t)
    (hnumber : t.number = tree.root.number) : t.path = [] :=
  ((h.made.isTree.number_eq_iff ht .root).1 hnumber).trans h.made.isTree.root

theorem eq_root_of_number (h : q.Planted catalog access tree n) {t : Table} (ht : t ∈ tree.tables)
    (hnumber : t.number = tree.root.number) : t = tree.root :=
  h.made.isTree.eq_root ht ((h.made.isTree.number_eq_iff (List.mem_map_of_mem ht) .root).1 hnumber)

/-! ## What the caller names -/

/-- A table on the caller's path that is the first one is not reached over a relationship. -/
theorem hops_of_number (h : q.Planted catalog access tree n) {t : Table} {hops : TablePath}
    (ht : tree.Has t) (hpath : t.path = tree.root.path ++ hops)
    (hwalk : catalog.walk? true tree.root.access hops = some t.access)
    (hnumber : t.number = tree.root.number) : hops = [] ∧ t.access = access := by
  rw [h.path_of_number ht hnumber, h.made.isTree.root, List.nil_append] at hpath
  obtain rfl := hpath
  rw [h.made.access_eq] at hwalk
  exact ⟨rfl, (Option.some.inj hwalk).symm⟩

theorem column_carried (h : q.Planted catalog access tree n)
    (hcolumn : tree.callerScope.column path = .ok c) (hnames : q.NamesPath path)
    (hc : c.qualifier = .table tree.root.number) :
    c.name ∈ hierarchyColumns access keys parents q.heads? := by
  obtain ⟨t, hops, last, b, ht, hall, hpath, hwalk, hshows, rfl⟩ :=
    Scope.column_eq_ok h.made.walked .root hcolumn
  obtain ⟨rfl, haccess⟩ := h.hops_of_number ht hpath hwalk (Qualifier.table.inj hc)
  rw [haccess, show last = Path.all path from hall.symm] at hshows
  exact carries_shown hnames.wants hshows

theorem reads_carried (h : q.Planted catalog access tree n) (hregular : access.model.Regular)
    (hkeys : access.model.keyFields = .ok keys) {e : Condition} (he : q.condition = some e)
    (hreads : tree.callerScope.Reads e c) (hc : c.qualifier = .table tree.root.number) :
    c.name ∈ hierarchyColumns access keys parents q.heads? := by
  cases hreads with
  | path hpath hcolumn =>
    exact h.column_carried hcolumn (.column he (Condition.readPaths_subset e hpath)) hc
  | @owner path name l b hpath hlink hname hb =>
    obtain ⟨t, hops, first, f, r, ht, hall, htpath, hwalk, hf, hk, rfl⟩ :=
      Scope.link_eq_ok h.made.walked .root hlink
    obtain ⟨rfl, haccess⟩ := h.hops_of_number ht htpath hwalk (Qualifier.table.inj hc)
    have hwants := (NamesPath.related he hpath).wants
    rw [Path.head_of_all hall] at hwants
    have hf := (Access.field_eq_ok.1 hf).1
    have hmodel : t.access.model = access.model := congrArg Access.model haccess
    simp only [hmodel] at hf hb
    exact carries_parent hregular hkeys hf hk hmodel hname hb fun _ => hwants

theorem filled_carried (h : q.Planted catalog access tree n) (hn : names.Scoping catalog)
    {template base : String} {paths : List String} {sql : Filled}
    (hsql : names.fill tree.callerScope template paths base = .ok sql)
    (hnames : ∀ path ∈ paths, q.NamesPath path) (hmem : c ∈ sql.columns)
    (hc : c.qualifier = .table tree.root.number) :
    c.name ∈ hierarchyColumns access keys parents q.heads? := by
  obtain ⟨path, hpath, hcolumn⟩ := ((Condition.fill_eq_ok hn hsql).2 c).1 hmem
  exact h.column_carried hcolumn (hnames path hpath) hc

/-! ## What is selected and ordered by -/

theorem leaf_carried (h : q.Planted catalog access tree n) (hregular : access.model.Regular)
    (hkeys : access.model.keyFields = .ok keys) {t : Table} (ht : t ∈ tree.tables) {l : Leaf}
    (hl : l ∈ t.leaves) (hmem : c ∈ l.expression.columns)
    (hc : c.qualifier = .table tree.root.number) :
    c.name ∈ hierarchyColumns access keys parents q.heads? := by
  obtain ⟨f, hf, b, hchosen, -, hexpression, hkind⟩ := Table.mem_leaves hl
  rw [hexpression] at hmem
  obtain rfl := List.mem_singleton.1 hmem
  obtain rfl := h.eq_root_of_number ht (Qualifier.table.inj hc)
  obtain ⟨choice, hchoice, hname⟩ := List.any_eq_true.1 hchosen
  have hname : choice.1 = f.name := by simpa using hname
  have hpermits := h.made.settled.chosen tree.root List.mem_cons_self choice hchoice
  have hwanted := h.chosen choice hchoice
  rw [hname, h.made.access_eq] at hpermits
  rw [hname] at hwanted
  rw [h.made.access_eq] at hf
  rcases hkind with ⟨hk, -⟩ | ⟨g, hk, hb, -⟩
  · rcases hwanted with hwants | hkey
    · exact carries_wanted hf hk hwants hpermits
    · exact carries_key hregular hkeys hf hk hkey
  · rcases hwanted with hwants | hkey
    · exact carries_member hf hk hb hwants hpermits
    · exact absurd ((hregular.keyed f hf g hk).symm.trans hkey) Bool.false_ne_true

theorem columns_carried (h : q.Planted catalog access tree n) (hn : names.Scoping catalog)
    (hregular : access.model.Regular) (hkeys : access.model.keyFields = .ok keys)
    {columns : List ResultColumn} {bindings : List Binding}
    (hcolumns : q.columns catalog names tree = .ok (columns, bindings))
    (hmem : c ∈ (SelectList.columns columns).named) (hc : c.qualifier = .table tree.root.number) :
    c.name ∈ hierarchyColumns access keys parents q.heads? := by
  rw [Query.columns] at hcolumns
  obtain ⟨⟨computed, bs⟩, hcomputed, heq⟩ := except_bind_eq_ok.1 hcolumns
  obtain ⟨rfl, rfl⟩ := Prod.mk.inj (Except.ok.inj heq)
  obtain ⟨l, hl, hmem⟩ := List.mem_flatMap.1 hmem
  rcases ResultColumn.mem_leaves_append.1 hl with hl | hl
  · obtain ⟨t, ht, hl⟩ := JoinTree.mem_leaves_columns hl
    exact h.leaf_carried hregular hkeys ht hl hmem hc
  · obtain ⟨column, hcolumn, hl⟩ := ResultColumn.mem_leaves.1 hl
    obtain ⟨⟨item, i⟩, hitem, sql, hsql, rfl⟩ :=
      forall₂_mem_right (JoinTree.computedColumns_eq_ok hcomputed).1 hcolumn
    obtain rfl := List.mem_singleton.1 hl
    refine h.filled_carried hn hsql (fun path hpath => .computed ?_) hmem hc
    exact List.mem_flatMap.2 ⟨item, List.fst_mem_of_mem_zipIdx hitem, hpath⟩

theorem order_carried (h : q.Planted catalog access tree n) (hn : names.Scoping catalog)
    {order : List OrderTerm} (horder : order ⊆ q.order) {ordered : List OrderKey}
    (hkeys : tree.orderKeys names order = .ok ordered)
    (hmem : c ∈ ordered.flatMap fun k => k.expression.columns)
    (hc : c.qualifier = .table tree.root.number) :
    c.name ∈ hierarchyColumns access keys parents q.heads? := by
  obtain ⟨key, hkey, hmem⟩ := List.mem_flatMap.1 hmem
  obtain ⟨o, i, ho, hterm⟩ := JoinTree.mem_orderKeys hkeys hkey
  have hnames : ∀ path ∈ o.path, q.NamesPath path := fun path hpath =>
    .ordered (List.mem_filterMap.2 ⟨o, horder (List.fst_mem_of_mem_zipIdx ho), hpath⟩)
  rcases hterm with ⟨template, sql, -, hsql, rfl⟩ | ⟨path, column, -, hpath, hcolumn, rfl⟩
  · exact h.filled_carried hn hsql (fun path hpath => hnames path (Option.mem_toList.1 hpath)) hmem hc
  · obtain rfl := List.mem_singleton.1 hmem
    rw [hn.column] at hcolumn
    exact h.column_carried hcolumn (hnames path hpath) hc

/-! ## What ties joined tables -/

/-- A joined table is tied to the growing one by columns that are carried, or it is joined for a
comparison that says nothing. -/
theorem link_carried (h : q.Planted catalog access tree n) (hregular : access.model.Regular)
    (hkeys : access.model.keyFields = .ok keys) {held : Predicate}
    (halone : ∀ rule ∈ access.enforced? q.ignoreDeleted, rule.Alone (Names.ofTable access .row) false held)
    {j : Joined} (hj : j ∈ tree.joined) {es : List Equality} (hlink : j.link.Pairs j.toTable es)
    (hmem : c ∈ Equality.columns es) (hc : c.qualifier = .table tree.root.number) :
    c.name ∈ hierarchyColumns access keys parents q.heads? ∨ q.Strays access c := by
  obtain ⟨t, ht, hhangs⟩ := h.made.isTree.exists_hangsOn hj
  rcases Equality.mem_columns.1 hmem with hmem | hmem
  · obtain ⟨name, -, b, -, rfl⟩ := hlink.child.mem_iff.1 hmem
    have hroot := h.path_of_number (.of_mem hj) (Qualifier.table.inj hc)
    exact absurd (hhangs.path.symm.trans hroot) (by simp)
  · obtain ⟨name, hname, b, hb, rfl⟩ := hlink.parent.mem_iff.1 hmem
    obtain rfl := h.eq_root_of_number ht (hhangs.parentNumber.symm.trans (Qualifier.table.inj hc))
    have hmodel : j.link.parentModel = access.model :=
      hhangs.parentModel.trans (congrArg Access.model h.made.access_eq)
    obtain ⟨f, hf, hk, -⟩ := h.serves.linked j hj
    rw [hmodel] at hf hb
    by_cases hwants : j.link.relation.cardinality = .one → q.Wants j.link.name
    · exact .inl (carries_parent hregular hkeys hf hk hmodel hname hb hwants)
    obtain ⟨hone, hunwanted⟩ := Classical.not_imp.1 hwants
    have hpath : j.path = [j.link.name] := by rw [hhangs.path, h.made.isTree.root, List.nil_append]
    obtain ⟨rule, hrule, path, hmem, hhead⟩ := (h.begins (.of_mem hj) hpath).resolve_left hunwanted
    have hfname := (Model.mem_of_field? hf).2
    rw [Condition.joinPaths, (halone rule hrule).relatedPaths, List.filterMap_nil, List.append_nil] at hmem
    rw [Link.parentNames, hone] at hname
    refine .inr ⟨f, j.link.relation, hfname ▸ hf, hk, hone, hfname ▸ hunwanted, ⟨name, hname, b, hb, rfl⟩,
      rule, hrule, path, hmem, fun hread => ?_, hhead.trans hfname.symm⟩
    -- a path that is read begins with a field of the table, not with a relationship
    obtain ⟨column, hcolumn⟩ := (halone rule hrule).columns path hread
    obtain ⟨b', hshows, -⟩ := Names.ofTable_column_eq_ok hcolumn
    rw [← Path.head_eq_splitFirst, hhead] at hshows
    generalize (Path.splitFirst path).2.toList = rest at hshows
    cases hshows with
    | field hfield hk' =>
      obtain rfl := Option.some.inj (hf.symm.trans (Access.field_eq_ok.1 hfield).1)
      cases hk.symm.trans hk'
    | member hfield hk' _ =>
      obtain rfl := Option.some.inj (hf.symm.trans (Access.field_eq_ok.1 hfield).1)
      cases hk.symm.trans hk'

/-! ## The clauses of the query -/

theorem joined_path_ne_nil (h : q.Planted catalog access tree n) {j : Joined} (hj : j ∈ tree.joined) :
    j.path ≠ [] := by
  obtain ⟨t, -, hhangs⟩ := h.made.isTree.exists_hangsOn hj
  rw [hhangs.path]
  exact List.append_ne_nil_of_right_ne_nil _ (List.cons_ne_nil _ _)

theorem number_lt (h : q.Planted catalog access tree n) : tree.root.number < n :=
  (h.made.numbers.2 _ List.mem_cons_self).2

/-- Neither joins nor subqueries bring in the first table once more. -/
theorem number_not_mem_opened (h : q.Planted catalog access tree n) {lo hi : Nat} (hn : n ≤ lo)
    {clauses : List (JoinClause Predicate)} (hseen : tree.JoinsSeen catalog lo hi clauses) :
    tree.root.number ∉ Predicate.joinsOpened clauses := by
  intro hmem
  rcases hseen.opened hmem with hmem | ⟨hlo, -⟩
  · obtain ⟨j, hj, hnumber⟩ := List.mem_map.1 hmem
    have hj := tree.inOrder_perm.subset hj
    exact h.joined_path_ne_nil hj (h.path_of_number (.of_mem hj) hnumber)
  · exact absurd (h.number_lt.trans_le (hn.trans hlo)) (lt_irrefl _)

theorem joins_carried (h : q.Planted catalog access tree n) (hregular : access.model.Regular)
    (hkeys : access.model.keyFields = .ok keys) {held : Predicate}
    (halone : ∀ rule ∈ access.enforced? q.ignoreDeleted, rule.Alone (Names.ofTable access .row) false held)
    {lo hi : Nat} (hn : n ≤ lo) {clauses : List (JoinClause Predicate)}
    (hseen : tree.JoinsSeen catalog lo hi clauses) (hmem : c ∈ Predicate.joinsColumns clauses)
    (hc : c.qualifier = .table tree.root.number) :
    c.name ∈ hierarchyColumns access keys parents q.heads? ∨ q.Strays access c := by
  rcases Predicate.joins_free_or_opened clauses hmem with hfree | hopened
  · obtain ⟨j, hj, ⟨es, hlink, hmem⟩ | ⟨t, ht, hbelow, hqualifier⟩⟩ := hseen.mem_free hfree
    · exact h.link_carried hregular hkeys halone (tree.inOrder_perm.subset hj) hlink hmem hc
    · have hroot := h.path_of_number ht (Qualifier.table.inj (hqualifier.symm.trans hc))
      rw [hroot, List.prefix_nil] at hbelow
      exact absurd hbelow (h.joined_path_ne_nil (tree.inOrder_perm.subset hj))
  · obtain ⟨m, hm, hqualifier⟩ := Column.isOf_iff.1 hopened
    obtain rfl := Qualifier.table.inj (hc.symm.trans hqualifier)
    exact absurd hm (h.number_not_mem_opened hn hseen)

theorem tail_carried (h : q.Planted catalog access tree p.nextNumber) (hn : names.Scoping catalog)
    (hregular : access.model.Regular) (hkeys : access.model.keyFields = .ok keys) {held : Predicate}
    (halone : ∀ rule ∈ access.enforced? q.ignoreDeleted, rule.Alone (Names.ofTable access .row) false held)
    {order : List OrderTerm} (horder : order ⊆ q.order) {page : Option Page} {t : Tail}
    (htail : (tree.tail catalog names true q.condition [] order page).run p = .ok t p')
    (hmem : c ∈ t.columns) (hc : c.qualifier = .table tree.root.number) :
    c.name ∈ hierarchyColumns access keys parents q.heads? ∨ q.Strays access c := by
  obtain ⟨-, -, -, -, -, hordered, hgroupKeys, -⟩ := JoinTree.tail_eq_ok htail
  have hseen := h.made.tail_seen hn htail
  obtain ⟨mid, hlo, -, hjoins⟩ := hseen.joins
  obtain ⟨mid', hlo', hrequested⟩ := hseen.requested
  have hnothing : t.filter.enforced = .absent := by
    rcases hseen.enforced with ⟨-, hnothing⟩ | ⟨hfalse, -⟩
    · exact hnothing
    · exact absurd hfalse nofun
  rw [Tail.columns, Filter.columns, hgroupKeys, hnothing, List.flatMap_nil, List.append_nil,
    List.mem_append, List.mem_append] at hmem
  rcases hmem with (hmem | hmem) | hmem
  · exact h.joins_carried hregular hkeys halone le_rfl hjoins hmem hc
  · refine .inl ?_
    rcases Predicate.free_or_opened _ hmem with hfree | hopened
    · obtain ⟨e, he, hreads⟩ := (hrequested.free c).1 hfree
      exact h.reads_carried hregular hkeys (Option.mem_toList.1 he) hreads hc
    · obtain ⟨m, hm, hqualifier⟩ := Column.isOf_iff.1 hopened
      obtain rfl := Qualifier.table.inj (hc.symm.trans hqualifier)
      have hlo := (hrequested.opened _ hm).1
      exact absurd (h.number_lt.trans_le (hlo'.trans hlo)) (lt_irrefl _)
  · exact .inl (h.order_carried hn horder hordered hmem hc)

end Query.Planted

/-! ## Compiled hierarchies -/

namespace HierarchyQuery

variable {q : HierarchyQuery} {model : String} {access : Access} {start : Predicate} {s : Select}
  {r r' : Progress}

/-- The columns of the growing table of a compiled hierarchy. -/
theorem select_carries (hn : names.Scoping catalog) (haccess : catalog.access model = .ok access)
    (hregular : access.model.Regular) (hp : p.nextNumber = hierarchyAlias)
    (hstart : (q.start? catalog access).run p = .ok start r) (htext : start.text.isEmpty = false)
    (h : (q.rows catalog names model).run p = .ok s p' ∨
      (q.count catalog names model).run p = .ok s p') :
    ∃ table keys parents, s.hierarchy = some table ∧ access.model.keyFields = .ok keys ∧
      access.model.parentFields = .ok parents ∧ (∀ b ∈ keys ++ parents, b.column ∈ table.columns) ∧
      ∀ c ∈ s.outerColumns, c.qualifier = .table hierarchyAlias →
        c.name ∈ table.columns ∨ q.query.Strays access c := by
  obtain ⟨table, tree, q₁, q₂, order, page, htable, htree, horder, htail, hsome, hlist⟩ :=
    select_eq_ok haccess hstart htext h
  obtain ⟨rfl, -, halone⟩ := table_alone hstart htable
  obtain ⟨rfl, -, -⟩ := Condition.resolve?_alone (Names.shut_ofTable access .row) hstart
  have hplanted := Query.Planted.of_demand hp haccess htree
  obtain ⟨keys, parents, held, _, step, hkeys, hparents, -, -, -, htable⟩ := table_eq_ok htable
  have hcolumns : table.columns = hierarchyColumns access keys parents q.query.heads? := by rw [htable]
  refine ⟨table, keys, parents, hsome, hkeys, hparents, ?_, fun c hmem hc => ?_⟩
  · exact hcolumns ▸ Query.carries_ties hregular hkeys hparents
  rw [← hplanted.number] at hc
  rw [hcolumns]
  rcases List.mem_append.1 hmem with hmem | hmem
  · rcases hlist with hlist | ⟨columns, bindings, hrun, hlist⟩
    · rw [hlist] at hmem
      exact absurd hmem List.not_mem_nil
    · rw [hlist] at hmem
      exact .inl (hplanted.columns_carried hn hregular hkeys hrun hmem hc)
  · exact hplanted.tail_carried hn hregular hkeys halone horder htail hmem hc

end HierarchyQuery

/-- A compiled hierarchy that starts from rows asked for: its growing table carries the columns of the
key and of the link to parents, and every column of it that the query around it names, but for those that
tie its rows to ones which only a comparison without text leads to. -/
theorem Request.hierarchy_carries {r : Request} {model : String} {q : HierarchyQuery} {access : Access}
    {start : Predicate} {statement : Statement} {events : List Event}
    (hr : r = .recursive model q ∨ r = .recursiveCount model q)
    (haccess : catalog.access model = .ok access) (hregular : access.model.Regular)
    (hstart : (q.start? catalog access).run {} = .ok start p) (htext : start.text ≠ "")
    (h : r.compile catalog = (.ok statement, events)) :
    ∃ s table keys parents, statement.command = .select s ∧ s.hierarchy = some table ∧
      access.model.keyFields = .ok keys ∧ access.model.parentFields = .ok parents ∧
      (∀ b ∈ keys ++ parents, b.column ∈ table.columns) ∧
      ∀ c ∈ s.outerColumns, c.qualifier = .table hierarchyAlias →
        c.name ∈ table.columns ∨ q.query.Strays access c := by
  have hempty : start.text.isEmpty = false := by simpa using htext
  obtain ⟨s, depth, q', hcommand, -, hs⟩ := Request.select_of_compile hr h
  obtain ⟨table, keys, parents, hsome, hcarries⟩ := HierarchyQuery.select_carries
    (Names.scoping_ofTree catalog depth) haccess hregular rfl hstart hempty hs
  exact ⟨s, table, keys, parents, hcommand, hsome, hcarries⟩

/-- Categories of companies. The caller's rule compares the company's name with nothing. -/
def categories : Catalog where
  models := [
    ("Category",
      { name := "Category", table := "category"
        fields := [⟨"id", .basic ⟨"id", "id", true⟩⟩,
          ⟨"parentId", .basic ⟨"parentId", "parent_id", true⟩⟩,
          ⟨"companyId", .basic ⟨"companyId", "company_id", true⟩⟩,
          ⟨"name", .basic ⟨"name", "name", true⟩⟩,
          ⟨"parent", .relation ⟨.one, "Category", ["parentId"]⟩⟩,
          ⟨"company", .relation ⟨.one, "Company", ["companyId"]⟩⟩] }),
    ("Company",
      { name := "Company", table := "company"
        fields := [⟨"id", .basic ⟨"id", "id", true⟩⟩, ⟨"name", .basic ⟨"name", "name", true⟩⟩] })]
  permissions := [("Category", { rows := some (.compare "company.name" .eq .null true) })]

/-- The names of the category `1` and of all below it. -/
def subcategories : HierarchyQuery where
  query := { select := some ["name"] }
  start := some (.compare "id" .eq (.text "1") false)

/-- The company is joined by a column that the growing table does not carry. -/
theorem subcategories_stray : ∃ statement events s table access,
    (Request.recursive "Category" subcategories).compile categories = (.ok statement, events) ∧
    statement.command = .select s ∧ s.hierarchy = some table ∧
    categories.access "Category" = .ok access ∧
    s.tail.sourceText = " FROM t0 LEFT JOIN company AS t1 ON t1.id = t0.company_id" ∧
    table.columns = ["id", "parent_id", "name"] ∧
    ⟨.table hierarchyAlias, "company_id"⟩ ∈ s.outerColumns ∧
    subcategories.query.Strays access ⟨.table hierarchyAlias, "company_id"⟩ := by
  obtain ⟨statement, events, hcompile⟩ : ∃ statement events,
      (Request.recursive "Category" subcategories).compile categories = (.ok statement, events) :=
    ⟨_, _, rfl⟩
  obtain ⟨access, haccess⟩ : ∃ access, categories.access "Category" = .ok access := ⟨_, rfl⟩
  have hregular : access.model.Regular := by cases haccess; decide
  obtain ⟨start, hstart⟩ : ∃ start, (subcategories.start? categories access).run {} = .ok start {} := by
    cases haccess; exact ⟨_, rfl⟩
  have htext : start.text ≠ "" := by cases haccess; cases hstart; decide
  obtain ⟨s, table, keys, parents, hcommand, htable, -, -, -, hcarries⟩ :=
    Request.hierarchy_carries (.inl rfl) haccess hregular hstart htext hcompile
  obtain ⟨hsource, hcolumns, hmem⟩ : s.tail.sourceText =
      " FROM t0 LEFT JOIN company AS t1 ON t1.id = t0.company_id" ∧
      table.columns = ["id", "parent_id", "name"] ∧
      ⟨.table hierarchyAlias, "company_id"⟩ ∈ s.outerColumns := by
    cases hcompile
    cases hcommand
    cases htable
    decide +kernel
  refine ⟨statement, events, s, table, access, hcompile, hcommand, htable, haccess, hsource, hcolumns,
    hmem, (hcarries _ hmem rfl).resolve_left ?_⟩
  rw [hcolumns]
  decide

end QueryCompiler
