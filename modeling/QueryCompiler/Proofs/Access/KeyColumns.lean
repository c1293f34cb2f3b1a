import QueryCompiler.Proofs.Access.SelectLists
import QueryCompiler.Proofs.JoinTree.Stages

/-!
# Columns of keys

A select list brings along the key of every table that it passes, so that rows can be told apart.
Without a list the default fields are selected, and of a key only those fields that are among them.
-/

namespace QueryCompiler

open Build

/-- The key of every model consists of columns, and the mark of deleted rows is none of them. -/
def Catalog.KeysDeclared (catalog : Catalog) : Prop :=
  ∀ e ∈ catalog.models, ∀ name ∈ e.2.key,
    name ≠ deleteFlag ∧ (e.2.basicField? name).isSome = true

instance (catalog : Catalog) : Decidable catalog.KeysDeclared :=
  inferInstanceAs (Decidable (∀ e ∈ catalog.models, ∀ name ∈ e.2.key,
    name ≠ deleteFlag ∧ (e.2.basicField? name).isSome = true))

/-- The column of a field of the key. -/
def Table.keyLeaf (t : Table) (name : String) (b : BasicField) : Leaf where
  expression := .column ⟨.table t.number, b.column⟩
  property := columnMark t.path ++ name
  isKey := true

/-- A field of this name is selected by default. -/
def Model.selects (m : Model) (name : String) : Prop :=
  ∃ f ∈ m.fields, f.name = name ∧ f.isSelected = true

variable {catalog : Catalog} {a : Access} {t : Table} {name : String} {b : BasicField}
  {p p' : Progress}

theorem Catalog.KeysDeclared.model (h : catalog.KeysDeclared) (ha : catalog.Knows a) :
    ∀ name ∈ a.model.key, name ≠ deleteFlag ∧ ∃ b, a.model.basicField? name = some b := by
  obtain ⟨model, hmem⟩ := ha.exists_mem
  exact fun name hname => (h _ hmem name hname).imp_right Option.isSome_iff_exists.1

/-! ## One table -/

/-- The column of a field of the key is shown exactly if the field is chosen. -/
theorem Table.keyLeaf_mem_leaves (hkey : name ∈ t.access.model.key) (hflag : name ≠ deleteFlag)
    (hb : t.access.model.basicField? name = some b) :
    t.keyLeaf name b ∈ t.leaves ↔ t.isChosen name = true := by
  constructor
  · intro hleaf
    obtain ⟨f, -, hl⟩ := List.mem_flatMap.1 hleaf
    rw [fieldLeaves] at hl
    split at hl
    · exact absurd hl List.not_mem_nil
    case isFalse hshown =>
      have hchosen : t.isChosen f.name = true := by
        simp only [Bool.or_eq_true, Bool.not_eq_true', not_or, Bool.not_eq_false] at hshown
        exact hshown.1
      simp only at hl
      split at hl
      · obtain ⟨-, hname, -⟩ := Leaf.mk.inj (List.mem_singleton.1 hl)
        rwa [(String.append_right_inj _).1 hname]
      -- a member of a group is never part of the key
      · obtain ⟨_, -, hmember⟩ := List.mem_map.1 hl
        exact absurd (congrArg Leaf.isKey hmember) Bool.false_ne_true
      · exact absurd hl List.not_mem_nil
  · intro hchosen
    obtain ⟨f, hfield, hk⟩ := Model.basicField?_eq_some hb
    obtain ⟨hf, rfl⟩ := Model.mem_of_field? hfield
    refine List.mem_flatMap.2 ⟨f, hf, ?_⟩
    have hisKey : t.access.model.isKey f.name = true := List.contains_iff_mem.2 hkey
    simp [fieldLeaves, keyLeaf, hchosen, hflag, hk, hisKey]

/-- By default a field of the key is chosen if it is selected by default. -/
theorem Table.default_key (hkey : name ∈ t.access.model.key) :
    (∃ choice, (name, choice) ∈ t.defaultChoices) ↔ t.access.model.selects name := by
  have hpermits : t.access.permits name = true := by
    rw [Access.permits, Model.isKey, List.contains_iff_mem.2 hkey, Bool.true_or]
  constructor
  · rintro ⟨choice, hc⟩
    obtain ⟨f, hf, heq⟩ := List.mem_map.1 hc
    obtain ⟨hf, hselected⟩ := List.mem_filter.1 hf
    exact ⟨f, (List.mem_filter.1 hf).1, (Prod.mk.inj heq).1, hselected⟩
  · rintro ⟨f, hf, rfl, hselected⟩
    exact ⟨_, List.mem_map.2 ⟨f, List.mem_filter.2 ⟨List.mem_filter.2 ⟨hf, hpermits⟩, hselected⟩, rfl⟩⟩

/-! ## The tables of a request -/

namespace JoinTree

variable {tree : JoinTree} {model : String} {d : Demand} {list : Option (List String)}

theorem exists_chosen_of_leaves (h : t.leaves ≠ []) : ∃ c, c ∈ t.chosen := by
  obtain ⟨l, hl⟩ := List.exists_mem_of_ne_nil _ h
  obtain ⟨f, -, _, hchosen, -⟩ := Table.mem_leaves hl
  obtain ⟨c, hc, -⟩ := List.any_eq_true.1 hchosen
  exact ⟨c, hc⟩

/-- On the way to what is shown, a field of the key is chosen if there is a list, and by default if it
is selected by default. -/
theorem ofDemand_key_chosen (hd : d.wanted = .paths list)
    (h : (ofDemand catalog model d).run p = .ok tree p') (ht : t ∈ tree.tables)
    (hway : t = tree.root ∨ ∃ u ∈ tree.tables, u.leaves ≠ [] ∧ t.path <+: u.path)
    (hkey : name ∈ t.access.model.key) :
    t.isChosen name = true ↔ list.isSome = true ∨ t.access.model.selects name := by
  have hway : tree.IsTree → t.path = [] ∨
      ∃ u ∈ tree.tables, t.path <+: u.path ∧ ∃ c, tree.ChoosesAt u.path c := by
    intro htree
    refine hway.imp (fun heq => by rw [heq, htree.root]) ?_
    rintro ⟨u, hu, hleaves, hprefix⟩
    obtain ⟨c, hc⟩ := exists_chosen_of_leaves hleaves
    exact ⟨u, hu, hprefix, c, (htree.choosesAt_iff hu).2 hc⟩
  rw [Table.isChosen_iff]
  cases list with
  | some paths =>
    obtain ⟨a, -, hstands, hchooses, -⟩ := ofDemand_selects hd h
    have hpasses : catalog.Passes a paths t.path := by
      rcases hway hstands.isTree with hpath | ⟨u, -, hprefix, c, hc⟩
      · exact .inl hpath
      · exact ((hchooses _ _).1 hc).passes.of_prefix hprefix
    have hwalk := hstands.walked t (List.mem_map_of_mem ht)
    obtain ⟨b, hb⟩ := hpasses.walk?
    rw [hstands.access, Catalog.walk?_unchecked hb] at hwalk
    obtain rfl := Option.some.inj hwalk
    refine iff_of_true ⟨.whole, ?_⟩ (.inl rfl)
    exact (hstands.isTree.choosesAt_iff ht).1 ((hchooses _ _).2 (.key hpasses hb hkey))
  | none =>
    obtain ⟨a, mid, -, hstands, hmid, hcores, hchooses⟩ := ofDemand_selects_default hd h
    have hthere : Reaches mid t.path := by
      rcases hway hstands.isTree with hpath | ⟨u, -, hprefix, c, hc⟩
      · exact ⟨mid.root, List.mem_cons_self, hmid.root.trans hpath.symm⟩
      · obtain ⟨s, hs, hpath, -⟩ := (hchooses _ _).1 hc
        exact hmid.reaches_prefix ⟨s, hs, hpath⟩ hprefix
    obtain ⟨s, hs, hpath⟩ := hthere
    have hhas : tree.Has s := hcores.subset (List.mem_map_of_mem hs)
    have haccess : s.access = t.access :=
      hstands.walked.access_eq hhas (List.mem_map_of_mem ht) hpath
    have hchosen : ∀ choice, (name, choice) ∈ t.chosen ↔ (name, choice) ∈ s.defaultChoices := by
      intro choice
      rw [← hstands.isTree.choosesAt_iff ht, hchooses]
      constructor
      · rintro ⟨u, hu, hupath, hc⟩
        rwa [List.inj_on_of_nodup_map hmid.paths hu hs (hupath.trans hpath.symm)] at hc
      · exact fun hc => ⟨s, hs, hpath, hc⟩
    simp only [hchosen, Option.isSome_none, Bool.false_eq_true, false_or, ← haccess]
    exact Table.default_key (haccess ▸ hkey)

/-- Computed columns are no columns of keys. -/
theorem isKey_of_computed {names : Names Scope} {computed : List ComputedColumn}
    {columns : List ResultColumn} {bindings : List Binding}
    (h : tree.computedColumns names computed = .ok (columns, bindings)) {l : Leaf}
    (hl : l ∈ ResultColumn.leaves columns) : l.isKey = false := by
  obtain ⟨column, hcolumn, hl⟩ := ResultColumn.mem_leaves.1 hl
  obtain ⟨_, _, _, _, rfl⟩ := forall₂_mem_right (computedColumns_eq_ok h).1 hcolumn
  rw [List.mem_singleton.1 hl]

theorem IsTree.eq_of_number (htree : tree.IsTree) {u : Table} (ht : t ∈ tree.tables)
    (hu : u ∈ tree.tables) (h : t.number = u.number) : t = u := by
  have hnodup : (tree.tables.map Table.number).Nodup := by
    have hnumbers := htree.numbers_nodup
    rwa [JoinTree.numbers, cores, List.map_map] at hnumbers
  exact List.inj_on_of_nodup_map hnodup ht hu h

/-- A column of a key is the one of its own table. -/
theorem IsTree.keyLeaf_mem_columns (htree : tree.IsTree) {names : Names Scope} {q : Query}
    {columns : List ResultColumn} {bindings : List Binding}
    (h : q.columns catalog names tree = .ok (columns, bindings)) (ht : t ∈ tree.tables) :
    t.keyLeaf name b ∈ ResultColumn.leaves columns ↔ t.keyLeaf name b ∈ t.leaves := by
  obtain ⟨⟨computed, _⟩, hcomputed, h⟩ := except_bind_eq_ok.1 h
  obtain ⟨rfl, -⟩ := Prod.mk.inj (Except.ok.inj h)
  rw [ResultColumn.mem_leaves_append, leaves_columns, List.mem_flatMap]
  constructor
  · rintro (⟨u, hu, hl⟩ | hl)
    · obtain ⟨_, -, _, -, -, hcolumn, -⟩ := Table.mem_leaves hl
      have hnumber : t.number = u.number := by
        injection hcolumn with hcolumn
        injection hcolumn with hqualifier
        injection hqualifier
      obtain rfl := htree.eq_of_number ht (tree.listed_perm.subset hu) hnumber
      exact hl
    · exact absurd (isKey_of_computed hcomputed hl) nofun
  · exact fun hl => .inl ⟨t, tree.listed_perm.symm.subset ht, hl⟩

end JoinTree

/-! ## Requests -/

/-- The tables on the way to selected columns show their keys if the request lists what it selects. If
it does not, they show those fields of their keys that are selected by default. -/
theorem Request.key_columns (hcat : catalog.KeysDeclared) {model : String} {q : Query}
    {statement : Statement} {events : List Event}
    (h : (Request.query model q).compile catalog = (.ok statement, events)) :
    ∃ s a root rest, statement.command = .select s ∧ catalog.access model = .ok a ∧
      s.ListsRows catalog a q root rest ∧
      ∀ t ∈ root :: rest, (t = root ∨ ∃ u ∈ root :: rest, u.leaves ≠ [] ∧ t.path <+: u.path) →
        ∀ name ∈ t.access.model.key, ∃ b, t.access.model.basicField? name = some b ∧
          (t.keyLeaf name b ∈ ResultColumn.leaves statement.columns ↔
            q.select.isSome = true ∨ t.access.model.selects name) := by
  obtain ⟨depth, p, hbuild, -⟩ := Request.build_of_compile h
  obtain ⟨s, hs, hcommand⟩ := run_map_eq_ok.1 hbuild
  obtain ⟨tree, r, columns, htree, hcolumns, hlist, -, htail⟩ := Query.compile_run.1 hs
  obtain ⟨a, hmodel, hlists⟩ :=
    Query.listsRows_of_tree (Names.faithful_ofTree depth) htree hcolumns hlist htail
  obtain ⟨a', hmodel', hmade⟩ := JoinTree.ofDemand_made htree
  refine ⟨s, a, tree.root, _, hcommand.symm, hmodel, hlists, fun t ht hway name hkey => ?_⟩
  have hmem : ∀ {t : Table}, t ∈ tree.root :: tree.inOrder.map Joined.toTable → t ∈ tree.tables :=
    fun ht => tree.listed_perm.subset ht
  have hknows : catalog.Knows t.access :=
    Catalog.Knows.walk? ⟨model, hmade.access_eq ▸ hmodel'⟩
      (hmade.walked t (List.mem_map_of_mem (hmem ht)))
  obtain ⟨hflag, b, hb⟩ := hcat.model hknows name hkey
  refine ⟨b, hb, ?_⟩
  rw [Statement.columns_of_list hcommand.symm hlist, hmade.isTree.keyLeaf_mem_columns hcolumns (hmem ht),
    Table.keyLeaf_mem_leaves hkey hflag hb]
  refine JoinTree.ofDemand_key_chosen rfl htree (hmem ht) (hway.imp_right ?_) hkey
  rintro ⟨u, hu, hleaves, hprefix⟩
  exact ⟨u, hmem hu, hleaves, hprefix⟩

/-- Employees of departments. The number of an employee is not selected by default, and the key of a
department has two fields. -/
def badges : Catalog where
  models := [
    ("Department",
      { name := "Department", table := "department", key := ["site", "code"]
        fields := [⟨"site", .basic ⟨"site", "site", true⟩⟩, ⟨"code", .basic ⟨"code", "code", true⟩⟩,
          ⟨"title", .basic ⟨"title", "title", true⟩⟩] }),
    ("Employee",
      { name := "Employee", table := "employee"
        fields := [⟨"id", .basic ⟨"id", "id", false⟩⟩, ⟨"name", .basic ⟨"name", "name", true⟩⟩,
          ⟨"dept", .relation ⟨.one, "Department", ["deptSite", "deptCode"]⟩⟩,
          ⟨"deptSite", .basic ⟨"deptSite", "dept_site", false⟩⟩,
          ⟨"deptCode", .basic ⟨"deptCode", "dept_code", false⟩⟩] })]

/-- The employees with the titles of their departments. -/
def titledEmployees : Request :=
  .query "Employee" { select := some ["dept.title"] }

/-- A list of one column brings along the keys of both tables. Without a list, the number of an
employee is not shown. -/
theorem titledEmployees_key_columns : badges.KeysDeclared ∧
    (∃ statement events a root rest s b, titledEmployees.compile badges = (.ok statement, events) ∧
      (ResultColumn.leaves statement.columns).map (fun l => (l.property, l.isKey)) =
        [("id", true), ("dept.site", true), ("dept.code", true), ("dept.title", false)] ∧
      badges.access "Employee" = .ok a ∧ statement.command = .select s ∧
      s.ListsRows badges a { select := some ["dept.title"] } root rest ∧
      a.model.basicField? "id" = some b ∧
      root.keyLeaf "id" b ∈ ResultColumn.leaves statement.columns) ∧
    ∃ statement events, (Request.query "Employee" {}).compile badges = (.ok statement, events) ∧
      (ResultColumn.leaves statement.columns).map (fun l => (l.property, l.isKey)) =
        [("name", false)] := by
  have hcat : badges.KeysDeclared := by decide +kernel
  refine ⟨hcat, ?_, ⟨_, _, rfl, by decide +kernel⟩⟩
  obtain ⟨statement, events, hcompile⟩ : ∃ statement events,
      titledEmployees.compile badges = (.ok statement, events) := ⟨_, _, rfl⟩
  obtain ⟨s, a, root, rest, hcommand, hmodel, hlists, hkeys⟩ := Request.key_columns hcat hcompile
  have haccess := hlists.tables.access
  have hkey : "id" ∈ root.access.model.key := by
    rw [haccess]
    cases hmodel
    decide
  obtain ⟨b, hb, hshown⟩ := hkeys root List.mem_cons_self (.inl rfl) "id" hkey
  refine ⟨statement, events, a, root, rest, s, b, hcompile, ?_, hmodel, hcommand, hlists,
    haccess ▸ hb, hshown.2 (.inl rfl)⟩
  cases hcompile
  decide +kernel

end QueryCompiler
