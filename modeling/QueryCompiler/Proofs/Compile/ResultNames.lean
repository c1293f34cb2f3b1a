import QueryCompiler.Proofs.Compile.Columns
import QueryCompiler.Proofs.Compile.Outcome
import QueryCompiler.Proofs.Compile.Parts
import QueryCompiler.Proofs.JoinTree.Shape
import QueryCompiler.Proofs.Sql.Identifiers

/-!
# Names of result columns

A column is named by the path of its field. Read back by its dots, the name gives the path of the
table, the name of the field and maybe that of a member. Tables differ in their paths and the fields
of a model in their names, and no field is both a relationship that a path leads over and a group. So
no two columns of tables have one name, and no two of them one identifier in SQL.
-/

namespace QueryCompiler

open Build

/-! ## Models whose names can be told apart -/

/-- The names of the members of a group. -/
def Field.memberNames (f : Field) : List String :=
  match f.kind with
  | .group g => g.fields.map BasicField.name
  | _ => []

/-- The fields of a model, and the members of each group, have different names without dots. -/
structure Model.Unambiguous (m : Model) : Prop where
  fields : (m.fields.map Field.name).Nodup
  members : ∀ f ∈ m.fields, f.memberNames.Nodup
  dotless : ∀ f ∈ m.fields, ∀ name ∈ f.name :: f.memberNames, '.' ∉ name.toList

instance (m : Model) : Decidable m.Unambiguous :=
  decidable_of_iff ((m.fields.map Field.name).Nodup ∧ (∀ f ∈ m.fields, f.memberNames.Nodup) ∧
      ∀ f ∈ m.fields, ∀ name ∈ f.name :: f.memberNames, '.' ∉ name.toList)
    ⟨fun ⟨h, h', h''⟩ => ⟨h, h', h''⟩, fun h => ⟨h.fields, h.members, h.dotless⟩⟩

/-- The models of a catalog are such. -/
def Catalog.Unambiguous (catalog : Catalog) : Prop :=
  ∀ e ∈ catalog.models, e.2.Unambiguous

instance (catalog : Catalog) : Decidable catalog.Unambiguous :=
  inferInstanceAs (Decidable (∀ e ∈ catalog.models, e.2.Unambiguous))

variable {catalog : Catalog} {checked : Bool} {a b : Access} {path : TablePath} {t t' : Table}
  {l : Leaf} {f : Field}

theorem Field.memberNames_of_group {g : GroupField} (h : f.kind = .group g) :
    f.memberNames = g.fields.map BasicField.name := by
  rw [memberNames, h]

theorem Catalog.Unambiguous.model (h : catalog.Unambiguous) (ha : catalog.Knows a) :
    a.model.Unambiguous := by
  obtain ⟨name, hmem⟩ := ha.exists_mem
  exact h _ hmem

/-- A path that leads somewhere has segments without dots. -/
theorem Catalog.Unambiguous.walk? (h : catalog.Unambiguous) (ha : catalog.Knows a)
    (hw : catalog.walk? checked a path = some b) : ∀ name ∈ path, '.' ∉ name.toList := by
  induction path generalizing a with
  | nil => exact List.forall_mem_nil _
  | cons name path ih =>
    obtain ⟨c, hhop, hrest⟩ := Option.bind_eq_some_iff.1 hw
    obtain ⟨f, r, hf, -, htarget⟩ := hop?_eq_some.1 hhop
    obtain ⟨rfl, hmem⟩ := Access.name_of_field hf
    exact List.forall_mem_cons.2 ⟨(h.model ha).dotless f hmem f.name List.mem_cons_self,
      ih (knows_of_target htarget) hrest⟩

/-! ## Reading names -/

theorem Path.all_of_dotless {s : String} (h : '.' ∉ s.toList) : all s = [s] := by
  rw [all_eq_splitOn, List.splitOn_eq_singleton h, List.map_singleton, String.ofList_toList]

theorem Path.all_dot {s : String} (h : '.' ∉ s.toList) (rest : String) :
    all (s ++ "." ++ rest) = s :: all rest := by
  have hlist : (s ++ "." ++ rest).toList = s.toList ++ '.' :: rest.toList := by simp
  rw [all_eq_splitOn, hlist, List.splitOn_append_cons_self_of_not_mem h, List.map_cons,
    String.ofList_toList, all_eq_splitOn]

theorem Table.all_columnMark (h : ∀ name ∈ path, '.' ∉ name.toList) (s : String) :
    Path.all (columnMark path ++ s) = path ++ Path.all s := by
  induction path with
  | nil => rw [columnMark, List.map_nil, String.join_nil, String.empty_append, List.nil_append]
  | cons name path ih =>
    obtain ⟨hname, hpath⟩ := List.forall_mem_cons.1 h
    have hmark : columnMark (name :: path) ++ s = name ++ "." ++ (columnMark path ++ s) := by
      simp [columnMark, String.join_cons, String.append_assoc]
    rw [hmark, Path.all_dot hname, ih hpath, List.cons_append]

/-! ## The columns of one table -/

section Table

variable (hpath : ∀ name ∈ t.path, '.' ∉ name.toList) (hmodel : t.access.model.Unambiguous)
include hpath hmodel

theorem Table.all_property (hf : f ∈ t.access.model.fields) (hl : l ∈ t.fieldLeaves f) :
    (∃ b, f.kind = .basic b ∧ Path.all l.property = t.path ++ [f.name]) ∨
      ∃ g b, f.kind = .group g ∧ Path.all l.property = t.path ++ [f.name, b] := by
  have hdotless := hmodel.dotless f hf
  have hname := hdotless f.name List.mem_cons_self
  rw [fieldLeaves] at hl
  split at hl
  · exact absurd hl List.not_mem_nil
  simp only at hl
  split at hl
  case h_1 b hk =>
    obtain rfl := List.mem_singleton.1 hl
    exact .inl ⟨b, hk, by rw [all_columnMark hpath, Path.all_of_dotless hname]⟩
  case h_2 g hk =>
    obtain ⟨b, hb, rfl⟩ := List.mem_map.1 hl
    have hmember : '.' ∉ b.name.toList := by
      refine hdotless b.name (List.mem_cons_of_mem _ ?_)
      rw [Field.memberNames_of_group hk]
      exact List.mem_map_of_mem (List.mem_filter.1 hb).1
    refine .inr ⟨g, b.name, hk, ?_⟩
    rw [String.append_assoc, String.append_assoc, all_columnMark hpath, ← String.append_assoc,
      Path.all_dot hname, Path.all_of_dotless hmember]
  case h_3 => exact absurd hl List.not_mem_nil

theorem Table.all_property_prefix (hf : f ∈ t.access.model.fields) (hl : l ∈ t.fieldLeaves f) :
    t.path ++ [f.name] <+: Path.all l.property := by
  rcases all_property hpath hmodel hf hl with ⟨-, -, hall⟩ | ⟨-, b, -, hall⟩
  · exact hall ▸ List.prefix_refl _
  · rw [hall, List.prefix_append_right_inj]
    exact List.prefix_append [f.name] [b]

omit hpath in
theorem Table.nodup_fieldLeaves (hf : f ∈ t.access.model.fields) :
    ((t.fieldLeaves f).map Leaf.property).Nodup := by
  have hmembers := hmodel.members f hf
  rw [fieldLeaves]
  split
  · exact List.nodup_nil
  simp only
  split
  case h_1 => exact List.nodup_singleton _
  case h_2 g hk =>
    rw [Field.memberNames_of_group hk] at hmembers
    have hnames := hmembers.sublist ((List.filter_sublist (p := fun b =>
      t.isMemberChosen f.name b.name)).map BasicField.name)
    have hmarked := hnames.map (f := fun name => columnMark t.path ++ f.name ++ "." ++ name)
      fun _ _ h => (String.append_right_inj _).1 h
    simpa [List.map_map, Function.comp_def] using hmarked
  case h_3 => exact List.nodup_nil

theorem Table.nodup_leaves : (t.leaves.map Leaf.property).Nodup := by
  rw [leaves, List.map_flatMap, List.nodup_flatMap]
  refine ⟨fun f hf => nodup_fieldLeaves hmodel hf, ?_⟩
  refine (List.pairwise_map.1 hmodel.fields).imp_of_mem fun {f g} hf hg hne property h h' => hne ?_
  obtain ⟨l, hl, rfl⟩ := List.mem_map.1 h
  obtain ⟨l', hl', hsame⟩ := List.mem_map.1 h'
  have hprefix := all_property_prefix hpath hmodel hf hl
  have hprefix' := all_property_prefix hpath hmodel hg hl'
  rw [hsame] at hprefix'
  have hsegments := (List.prefix_of_prefix_length_le hprefix hprefix' (by simp)).eq_of_length
    (by simp)
  simpa using hsegments

end Table

/-! ## The columns of a query -/

namespace JoinTree

variable {tree : JoinTree}

section Walked

variable (hcat : catalog.Unambiguous) (hknows : catalog.Knows tree.root.access)
  (hw : tree.Walked catalog false)
include hcat hknows hw

/-- No table stands where a path would go on into a group. -/
theorem path_ne_group (ht : tree.Has t) (ht' : tree.Has t') (hf : f ∈ t'.access.model.fields)
    {g : GroupField} (hk : f.kind = .group g) : t.path ≠ t'.path ++ [f.name] := by
  intro hpath
  have hwalk := hw t ht
  rw [hpath, Catalog.walk?_concat, hw t' ht'] at hwalk
  obtain ⟨f', r, hf', hk', -⟩ := Catalog.hop?_eq_some.1 hwalk
  obtain ⟨hname, hmem⟩ := Access.name_of_field hf'
  have hmodel := hcat.model (hknows.walk? (hw t' ht'))
  obtain rfl := List.inj_on_of_nodup_map hmodel.fields hmem hf hname
  exact absurd (hk.symm.trans hk') nofun

/-- Columns of one name belong to tables of one path. -/
theorem path_eq_of_property (ht : tree.Has t) (ht' : tree.Has t') (hl : l ∈ t.leaves) {l' : Leaf}
    (hl' : l' ∈ t'.leaves) (hsame : l.property = l'.property) : t.path = t'.path := by
  obtain ⟨f, hf, hl⟩ := List.mem_flatMap.1 hl
  obtain ⟨f', hf', hl'⟩ := List.mem_flatMap.1 hl'
  have hall := Table.all_property (hcat.walk? hknows (hw t ht))
    (hcat.model (hknows.walk? (hw t ht))) hf hl
  have hall' := Table.all_property (hcat.walk? hknows (hw t' ht'))
    (hcat.model (hknows.walk? (hw t' ht'))) hf' hl'
  rw [hsame] at hall
  rcases hall with ⟨-, -, hall⟩ | ⟨g, b, hk, hall⟩ <;>
    rcases hall' with ⟨-, -, hall'⟩ | ⟨g', b', hk', hall'⟩ <;>
    have heq := hall.symm.trans hall'
  · exact (List.append_inj' heq rfl).1
  · have hsplit : t.path ++ [f.name] = t'.path ++ [f'.name] ++ [b'] := by simpa using heq
    exact absurd (List.append_inj' hsplit rfl).1 (path_ne_group hcat hknows hw ht ht' hf' hk')
  · have hsplit : t'.path ++ [f'.name] = t.path ++ [f.name] ++ [b] := by simpa using heq.symm
    exact absurd (List.append_inj' hsplit rfl).1 (path_ne_group hcat hknows hw ht' ht hf hk)
  · exact (List.append_inj' heq rfl).1

theorem nodup_properties (htree : tree.IsTree) :
    ((tree.listed.flatMap Table.leaves).map Leaf.property).Nodup := by
  have hhas : ∀ t ∈ tree.listed, tree.Has t := fun t ht =>
    List.mem_map_of_mem (tree.listed_perm.subset ht)
  have hpaths : (tree.listed.map Table.path).Nodup :=
    (tree.listed_perm.map _).nodup_iff.2 htree.paths
  rw [List.map_flatMap, List.nodup_flatMap]
  refine ⟨fun t ht => ?_, ?_⟩
  · have hwalk := hw t (hhas t ht)
    exact Table.nodup_leaves (hcat.walk? hknows hwalk) (hcat.model (hknows.walk? hwalk))
  · refine (List.pairwise_map.1 hpaths).imp_of_mem fun ht ht' hne property h h' => hne ?_
    obtain ⟨l, hl, rfl⟩ := List.mem_map.1 h
    obtain ⟨l', hl', hsame⟩ := List.mem_map.1 h'
    exact path_eq_of_property hcat hknows hw (hhas _ ht) (hhas _ ht') hl hl' hsame.symm

end Walked
end JoinTree

/-- A query without computed columns has columns of different names. -/
theorem Query.compile_nodup_properties (hcat : catalog.Unambiguous) {names : Names Scope}
    {model : String} {q : Query} (hcomputed : q.computed = []) {hierarchy : Option Hierarchy}
    {s : Select} {p p' : Progress}
    (h : (q.compile catalog names model hierarchy).run p = .ok s p') :
    ∃ columns, s.list = .columns columns ∧
      ((ResultColumn.leaves columns).map Leaf.property).Nodup := by
  obtain ⟨access, tree, columns, r, hmodel, hmade, -, hcolumns, hlist, -, -⟩ :=
    Query.compile_eq_ok h
  rw [Query.columns, hcomputed] at hcolumns
  obtain ⟨rfl, -⟩ := Prod.mk.inj (Except.ok.inj hcolumns)
  refine ⟨_, hlist, ?_⟩
  rw [List.reverse_nil, List.map_nil, List.append_nil, JoinTree.leaves_columns]
  exact JoinTree.nodup_properties hcat (hmade.access_eq ▸ ⟨model, hmodel⟩) hmade.walked hmade.isTree

/-! ## Requests -/

/-- What a request for rows asks for. -/
def Request.rows? : Request → Option Query
  | .query _ q => some q
  | .recursive _ q => some q.query
  | _ => none

/-- The columns of rows have different names, and different identifiers in SQL. -/
theorem Request.result_names_nodup (hcat : catalog.Unambiguous) {r : Request} {q : Query}
    (hr : r.rows? = some q) (hcomputed : q.computed = []) {statement : Statement}
    {events : List Event} (h : r.compile catalog = (.ok statement, events)) :
    ((ResultColumn.leaves statement.columns).map Leaf.property).Nodup ∧
      ((ResultColumn.leaves statement.columns).map fun l =>
        statement.dialect.quoteName l.property).Nodup := by
  obtain ⟨depth, p, hbuild, -⟩ := Request.build_of_compile h
  have hselect : ∃ s columns, statement.command = .select s ∧ s.list = .columns columns ∧
      ((ResultColumn.leaves columns).map Leaf.property).Nodup := by
    cases r with
    | query model query =>
      obtain rfl := Option.some.inj hr
      obtain ⟨s, hs, hcommand⟩ := run_map_eq_ok.1 hbuild
      obtain ⟨columns, hlist, hnodup⟩ := Query.compile_nodup_properties hcat hcomputed hs
      exact ⟨s, columns, hcommand.symm, hlist, hnodup⟩
    | recursive model query =>
      obtain rfl := Option.some.inj hr
      obtain ⟨s, hs, hcommand⟩ := run_map_eq_ok.1 hbuild
      obtain ⟨_, _, _, -, -, ⟨-, hs⟩ | ⟨-, _, _, -, hs⟩⟩ := HierarchyQuery.rows_eq_ok hs
      all_goals
        obtain ⟨columns, hlist, hnodup⟩ := Query.compile_nodup_properties hcat hcomputed hs
        exact ⟨s, columns, hcommand.symm, hlist, hnodup⟩
    | count | existence | aggregate | deleteWhere | recursiveCount | vectorSearch =>
      exact absurd hr nofun
  obtain ⟨s, columns, hcommand, hlist, hnodup⟩ := hselect
  rw [Statement.columns_of_list hcommand hlist]
  refine ⟨hnodup, ?_⟩
  have hquoted := hnodup.map statement.dialect.quoteName_injective
  rwa [List.map_map] at hquoted

/-- Employees with names in two parts, and their managers. -/
def managers : Catalog where
  models := [
    ("Employee",
      { name := "Employee", table := "employee"
        fields := [⟨"id", .basic ⟨"id", "id", true⟩⟩,
          ⟨"name", .group ⟨[⟨"first", "name_first", true⟩, ⟨"last", "name_last", true⟩], true⟩⟩,
          ⟨"managerId", .basic ⟨"managerId", "manager_id", false⟩⟩,
          ⟨"manager", .relation ⟨.one, "Employee", ["managerId"]⟩⟩] })]

/-- Parts of names at three heights of one hierarchy. -/
theorem managers_result_names_nodup : managers.Unambiguous ∧
    ∃ statement events, (Request.query "Employee"
        { select := some ["*", "manager.name.last", "manager.manager.*"] }).compile managers =
          (.ok statement, events) ∧
      let names := (ResultColumn.leaves statement.columns).map Leaf.property
      names = ["id", "name.first", "name.last", "manager.id", "manager.name.last",
        "manager.manager.id", "manager.manager.name.first", "manager.manager.name.last"] ∧
      names.Nodup := by
  have hcat : managers.Unambiguous := by decide +kernel
  refine ⟨hcat, ?_⟩
  obtain ⟨statement, events, hcompile⟩ : ∃ statement events, (Request.query "Employee"
      { select := some ["*", "manager.name.last", "manager.manager.*"] }).compile managers =
        (.ok statement, events) := ⟨_, _, rfl⟩
  have hnodup := (Request.result_names_nodup hcat rfl rfl hcompile).1
  refine ⟨statement, events, hcompile, ?_, hnodup⟩
  cases hcompile
  decide +kernel

end QueryCompiler
