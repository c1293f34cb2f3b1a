import QueryCompiler.Proofs.Hierarchy.Carried
import QueryCompiler.Proofs.Hierarchy.Runs

/-!
# How further rows are tied to the growing table

A further row is tied to a row that the growing table has by one equality for each column of the key, in
the order of the key, with the column of the link to parents at its place (`Hierarchy.TiedBy`). Where the
two do not pair up, nothing is compiled, and `Model.Unpaired` says with which error. That they are not
empty is asked for joins, and is not asked here: for a model whose key is empty and whose link to parents
is too, there is no equality at all (`Request.hierarchy_tied`).
-/

namespace QueryCompiler

open Build

/-! ## Links -/

/-- The equality between a column of the key and the column of the link at its place. Going down, the new
row names a row of the table as its parent; going up, it is the parent of one. -/
def Direction.tie : Direction → (key parent : BasicField) → Equality
  | .down, key, parent => ⟨⟨.row, parent.column⟩, ⟨.table hierarchyAlias, key.column⟩⟩
  | .up, key, parent => ⟨⟨.row, key.column⟩, ⟨.table hierarchyAlias, parent.column⟩⟩

/-- The step of a growing table has one equality for each column of the key. -/
structure Hierarchy.TiedBy (h : Hierarchy) (direction : Direction) (keys parents : List BasicField) :
    Prop where
  paired : keys.length = parents.length
  length : h.link.length = keys.length
  each : ∀ (i : Nat) key parent, keys[i]? = some key → parents[i]? = some parent →
    h.link[i]? = some (direction.tie key parent)

/-- What stands behind `ON` in the step of a growing table. -/
def Hierarchy.stepText (h : Hierarchy) : String :=
  (match h.step with
    | some p => p.text ++ " AND "
    | none => "") ++ Equality.texts h.link

variable {keys parents : List BasicField} {direction : Direction}

theorem hierarchyLink_eq (direction : Direction) (keys parents : List BasicField) :
    hierarchyLink direction keys parents = keys.zipWith direction.tie parents := by
  rw [hierarchyLink, List.zip_eq_zipWith, List.map_zipWith]
  cases direction <;> rfl

theorem length_hierarchyLink (hpaired : keys.length = parents.length) :
    (hierarchyLink direction keys parents).length = keys.length := by
  rw [hierarchyLink_eq, List.length_zipWith]
  omega

namespace Hierarchy

variable {h : Hierarchy}

theorem tiedBy_of_link (hpaired : keys.length = parents.length)
    (hlink : h.link = hierarchyLink direction keys parents) : h.TiedBy direction keys parents := by
  refine ⟨hpaired, ?_, ?_⟩
  · rw [hlink, length_hierarchyLink hpaired]
  · intro i key parent hkey hparent
    rw [hlink, hierarchyLink_eq, List.getElem?_zipWith, hkey, hparent]

/-- Going up is going down with the key and the link to parents exchanged. -/
theorem tiedBy_up_iff : h.TiedBy .up keys parents ↔ h.TiedBy .down parents keys := by
  constructor
  · rintro ⟨hpaired, hlength, heach⟩
    refine ⟨hpaired.symm, hlength.trans hpaired, ?_⟩
    intro i key parent hkey hparent
    exact heach i parent key hparent hkey
  · rintro ⟨hpaired, hlength, heach⟩
    refine ⟨hpaired.symm, hlength.trans hpaired, ?_⟩
    intro i key parent hkey hparent
    exact heach i parent key hparent hkey

theorem TiedBy.link_eq_nil_iff (htied : h.TiedBy direction keys parents) :
    h.link = [] ↔ keys = [] := by
  rw [← List.length_eq_zero_iff, htied.length, List.length_eq_zero_iff]

/-- The text of the table ends with its step. -/
theorem text_eq_step (h : Hierarchy) (d : Dialect) :
    ∃ before, h.text d = before ++ " ON " ++ h.stepText ++ ") " := by
  have hassoc (before mark ties : String) : before ++ " ON " ++ mark ++ ties ++ ") " =
      before ++ " ON " ++ (mark ++ ties) ++ ") " := by
    simp only [String.append_assoc]
  unfold text stepText
  dsimp only
  exact ⟨_, hassoc _ _ _⟩

end Hierarchy

/-! ## Columns that pair up -/

namespace Model

variable {m : Model}

/-- The columns of the key and those of the link to parents pair up. -/
structure Pairs (m : Model) (keys parents : List BasicField) : Prop where
  key : m.keyFields = .ok keys
  parent : m.parentFields = .ok parents
  length : keys.length = parents.length

/-- Why the columns of the key and those of the link to parents do not pair up. -/
inductive Unpaired (m : Model) : CompileError → Prop where
  | key {e : CompileError} (hkeys : m.keyFields = .error e) : Unpaired m e
  | parents {e : CompileError} {keys : List BasicField} (hkeys : m.keyFields = .ok keys)
      (hparents : m.parentFields = .error e) : Unpaired m e
  | counts {keys parents : List BasicField} (hkeys : m.keyFields = .ok keys)
      (hparents : m.parentFields = .ok parents) (hcounts : keys.length ≠ parents.length) :
      Unpaired m (.join m.name (",".intercalate (parents.map BasicField.name)) .parentColumnCounts)

theorem exists_unpaired_iff (m : Model) :
    (∃ e, m.Unpaired e) ↔ ¬ ∃ keys parents, m.Pairs keys parents := by
  constructor
  · rintro ⟨e, hunpaired⟩ ⟨keys, parents, hkeys, hparents, hlength⟩
    cases hunpaired with
    | key h => simp [hkeys] at h
    | parents _ h => simp [hparents] at h
    | counts hkeys' hparents' hcounts =>
      obtain rfl := Except.ok.inj (hkeys.symm.trans hkeys')
      obtain rfl := Except.ok.inj (hparents.symm.trans hparents')
      exact hcounts hlength
  · intro hnone
    cases hkeys : m.keyFields with
    | error e => exact ⟨e, .key hkeys⟩
    | ok keys =>
      cases hparents : m.parentFields with
      | error e => exact ⟨e, .parents hkeys hparents⟩
      | ok parents =>
        refine ⟨_, .counts hkeys hparents ?_⟩
        intro hlength
        exact hnone ⟨keys, parents, hkeys, hparents, hlength⟩

/-- There are as many columns of the key as the key has components. -/
theorem length_of_keyFields {keys : List BasicField} (h : m.keyFields = .ok keys) :
    keys.length = m.key.length :=
  (basicFields_eq_ok.1 h).length_eq.symm

end Model

/-! ## Compiled hierarchies -/

namespace HierarchyQuery

variable {catalog : Catalog} {names : Names Scope} {model : String} {access : Access}
  {q : HierarchyQuery} {start : Predicate} {s : Select} {e : CompileError} {p p' : Progress}

/-- Columns that do not pair up are refused before anything else of the table is resolved. -/
theorem table_of_unpaired (h : access.model.Unpaired e) :
    (q.table catalog access start).run p = .error (.rejected e) p := by
  cases h with
  | key hkeys =>
    simp only [table, hkeys]
    rfl
  | parents hkeys hparents =>
    simp only [table, hkeys, hparents]
    rfl
  | counts hkeys hparents hcounts =>
    simp only [table]
    rw [run_bind_of_ok (run_ofExcept_eq_ok.2 ⟨hkeys, rfl⟩),
      run_bind_of_ok (run_ofExcept_eq_ok.2 ⟨hparents, rfl⟩), if_pos (by simpa using hcounts)]
    rfl

theorem rows_of_unpaired (haccess : catalog.access model = .ok access)
    (hstart : (q.start? catalog access).run p = .ok start p') (htext : start.text.isEmpty = false)
    (h : access.model.Unpaired e) :
    (q.rows catalog names model).run p = .error (.rejected e) p' := by
  rw [rows, run_bind_of_ok (run_ofExcept_eq_ok.2 ⟨haccess, rfl⟩), run_bind_of_ok hstart,
    if_neg (Bool.eq_false_iff.1 htext)]
  exact run_bind_of_error (table_of_unpaired h)

theorem count_of_unpaired (haccess : catalog.access model = .ok access)
    (hstart : (q.start? catalog access).run p = .ok start p') (htext : start.text.isEmpty = false)
    (h : access.model.Unpaired e) :
    (q.count catalog names model).run p = .error (.rejected e) p' := by
  rw [count, run_bind_of_ok (run_ofExcept_eq_ok.2 ⟨haccess, rfl⟩), run_bind_of_ok hstart,
    if_neg (Bool.eq_false_iff.1 htext)]
  exact run_bind_of_error (table_of_unpaired h)

theorem table_tiedBy {h : Hierarchy} (hrun : (q.table catalog access start).run p = .ok h p') :
    ∃ keys parents, access.model.Pairs keys parents ∧ h.TiedBy q.direction keys parents := by
  obtain ⟨keys, parents, _, _, _, hkeys, hparents, hlength, -, -, rfl⟩ := table_eq_ok hrun
  exact ⟨keys, parents, ⟨hkeys, hparents, hlength⟩, Hierarchy.tiedBy_of_link hlength rfl⟩

end HierarchyQuery

theorem Select.text_step {s : Select} {table : Hierarchy} (h : s.hierarchy = some table)
    (d : Dialect) :
    ∃ before after, s.text d = before ++ " ON " ++ table.stepText ++ ") SELECT " ++ after := by
  obtain ⟨before, htext⟩ := table.text_eq_step d
  have hassoc (after : String) : before ++ " ON " ++ table.stepText ++ ") " ++ "SELECT " ++ after =
      before ++ " ON " ++ table.stepText ++ ") SELECT " ++ after := by
    simp only [String.append_assoc]
    rfl
  refine ⟨before, s.list.text d ++ s.tail.text d, ?_⟩
  rw [← hassoc, ← htext, ← String.append_assoc]
  unfold text
  rw [h]

/-- A compiled hierarchy that starts from rows asked for: its step has one equality for each component of
the key, with the column of the link to parents at its place, and so at least one unless the key is empty.
If the columns do not pair up, the request is refused. Going up is going down with the key and the link
exchanged. -/
theorem Request.hierarchy_tied {catalog : Catalog} {r : Request} {model : String}
    {q : HierarchyQuery} {access : Access} {start : Predicate} {p : Progress}
    (hr : r = .recursive model q ∨ r = .recursiveCount model q)
    (haccess : catalog.access model = .ok access)
    (hstart : (q.start? catalog access).run {} = .ok start p) (htext : start.text ≠ "") :
    (∀ statement events, r.compile catalog = (.ok statement, events) →
      ∃ s table keys parents, statement.command = .select s ∧ s.hierarchy = some table ∧
        access.model.Pairs keys parents ∧ keys.length = access.model.key.length ∧
        table.TiedBy q.direction keys parents ∧
        (∃ before after, statement.sql =
          before ++ " ON " ++ table.stepText ++ ") SELECT " ++ after) ∧
        (table.link = [] ↔ access.model.key = [])) ∧
    (∀ e, access.model.Unpaired e →
      ∃ events, r.compile catalog = (.error (.rejected e), events)) ∧
    ((∃ e, access.model.Unpaired e) ↔ ¬ ∃ keys parents, access.model.Pairs keys parents) ∧
    ∀ (table : Hierarchy) (keys parents : List BasicField),
      table.TiedBy .up keys parents ↔ table.TiedBy .down parents keys := by
  have hsome : start.text.isEmpty = false := by simpa using htext
  refine ⟨?_, ?_, access.model.exists_unpaired_iff, fun _ _ _ => Hierarchy.tiedBy_up_iff⟩
  · intro statement events h
    obtain ⟨s, _, _, hcommand, -, hs⟩ := Request.select_of_compile hr h
    obtain ⟨table, _, _, _, _, _, htable, -, -, -, hgrown, -⟩ :=
      HierarchyQuery.select_eq_ok haccess hstart hsome hs
    obtain ⟨keys, parents, hpairs, htied⟩ := HierarchyQuery.table_tiedBy htable
    have hlength := Model.length_of_keyFields hpairs.key
    refine ⟨s, table, keys, parents, hcommand, hgrown, hpairs, hlength, htied, ?_, ?_⟩
    · rw [Statement.sql, hcommand]
      exact Select.text_step hgrown statement.dialect
    · rw [htied.link_eq_nil_iff, ← List.length_eq_zero_iff, hlength, List.length_eq_zero_iff]
  · intro e hunpaired
    have hbuild (depth : Nat) : (r.build catalog (.ofTree catalog depth)).run {} =
        .error (.rejected e) p := by
      rcases hr with rfl | rfl
      · exact run_map_of_error (HierarchyQuery.rows_of_unpaired haccess hstart hsome hunpaired)
      · exact run_map_of_error (HierarchyQuery.count_of_unpaired haccess hstart hsome hunpaired)
    refine ⟨p.events ++ [.failed r.kind], ?_⟩
    rw [compile, compileWithin, hbuild]

/-- Regions within regions, each with a number inside its country; and notes on notes, whose key has been
left empty, and the link to the note above with it. -/
def regions : Catalog where
  models := [
    ("Note",
      { name := "Note", table := "note", key := []
        fields := [⟨"id", .basic ⟨"id", "id", true⟩⟩, ⟨"above", .relation ⟨.one, "Note", []⟩⟩] }),
    ("Region",
      { name := "Region", table := "region", key := ["country", "number"]
        fields := [⟨"country", .basic ⟨"country", "country", true⟩⟩,
          ⟨"number", .basic ⟨"number", "number", true⟩⟩,
          ⟨"parentCountry", .basic ⟨"parentCountry", "parent_country", true⟩⟩,
          ⟨"parentNumber", .basic ⟨"parentNumber", "parent_number", true⟩⟩,
          ⟨"parent", .relation ⟨.one, "Region", ["parentCountry", "parentNumber"]⟩⟩] })]

/-- The regions around those of number 7. -/
def aroundSeven : HierarchyQuery where
  query := { select := some ["number"] }
  start := some (.compare "number" .eq (.int 7) false)
  direction := .up

/-- The note 1 and all notes on it. -/
def notesOnOne : HierarchyQuery where
  query := { select := some ["id"] }
  start := some (.compare "id" .eq (.int 1) false)

/-- The regions are tied by both components of their key, and the notes are not tied at all. -/
theorem regions_tied_notes_untied :
    (∃ statement events s table, (Request.recursive "Region" aroundSeven).compile regions =
        (.ok statement, events) ∧ statement.command = .select s ∧ s.hierarchy = some table ∧
      table.stepText = "t.country = t0.parent_country AND t.number = t0.parent_number" ∧
      table.link.length = 2) ∧
    ∃ statement events s table, (Request.recursive "Note" notesOnOne).compile regions =
        (.ok statement, events) ∧ statement.command = .select s ∧ s.hierarchy = some table ∧
      table.link = [] ∧ statement.sql = "WITH RECURSIVE t0(id) AS (SELECT t.id FROM note t WHERE " ++
        "t.id = #\x7br_t01.v\x7d UNION ALL SELECT t.id FROM note t JOIN t0 ON ) " ++
        "SELECT t0.id AS \x60id\x60 FROM t0" := by
  constructor
  · obtain ⟨access, haccess⟩ : ∃ access, regions.access "Region" = .ok access := ⟨_, rfl⟩
    obtain ⟨start, hstart⟩ : ∃ start, (aroundSeven.start? regions access).run {} = .ok start {} := by
      cases haccess; exact ⟨_, rfl⟩
    have htext : start.text ≠ "" := by cases haccess; cases hstart; decide
    obtain ⟨statement, events, h⟩ : ∃ statement events,
        (Request.recursive "Region" aroundSeven).compile regions = (.ok statement, events) :=
      ⟨_, _, rfl⟩
    obtain ⟨s, table, keys, parents, hcommand, htable, -, hlength, htied, -⟩ :=
      (Request.hierarchy_tied (.inl rfl) haccess hstart htext).1 statement events h
    refine ⟨statement, events, s, table, h, hcommand, htable, ?_, ?_⟩
    · cases h; cases hcommand; cases htable; decide
    · rw [htied.length, hlength]
      cases haccess; rfl
  · obtain ⟨access, haccess⟩ : ∃ access, regions.access "Note" = .ok access := ⟨_, rfl⟩
    obtain ⟨start, hstart⟩ : ∃ start, (notesOnOne.start? regions access).run {} = .ok start {} := by
      cases haccess; exact ⟨_, rfl⟩
    have htext : start.text ≠ "" := by cases haccess; cases hstart; decide
    obtain ⟨statement, events, h⟩ : ∃ statement events,
        (Request.recursive "Note" notesOnOne).compile regions = (.ok statement, events) :=
      ⟨_, _, rfl⟩
    obtain ⟨s, table, keys, parents, hcommand, htable, -, -, -, -, hempty⟩ :=
      (Request.hierarchy_tied (.inl rfl) haccess hstart htext).1 statement events h
    refine ⟨statement, events, s, table, h, hcommand, htable, hempty.2 ?_, ?_⟩
    · cases haccess; rfl
    · cases h; decide +kernel

end QueryCompiler
