import QueryCompiler.Proofs.Enforcement.JoinedRows
import QueryCompiler.Proofs.Enforcement.Tables

/-!
# Which rows of joined tables are returned

What a joined table is held to stands in its `ON` clause. So each of its rows that a query returns meets
it, up to what escapes in the caller's text, but for joins that keep the rows for which the `ON` clause
never holds: among those are the rows that do not meet what is enforced (`Request.joined_rows_admitted`).
-/

namespace QueryCompiler

open Build

variable {R : Type} {db : Database R} {spell : Filled → Sentence} {catalog : Catalog}
  {names : Names Scope} {tree : JoinTree} {p p' : Progress}

/-- Why a row `r` of a joined table is in a joined row: the joined row meets what the table is held to; or
it is tied as the link says, and meets what stands behind the first `OR` of the caller's text; or the join
keeps the rows of its table that match none of the rows in front. -/
inductive JoinClause.Admits (db : Database R) (spell : Filled → Sentence) (c : JoinClause Predicate)
    (rows : JoinedRow R → Prop) (row : JoinedRow R) (r : R) : Prop where
  | held : c.filter.enforced.Passed spell (db.truth row) → Admits db spell c rows row r
  | slipped : (∀ e ∈ c.link, db.truth row e.text.toList = .holds) →
      c.filter.requested.Slips spell (db.truth row) → Admits db spell c rows row r
  | unmatched : c.type.keepsJoined = true → row = .only c.number r →
      (∀ front, rows front → ¬ c.Matches db spell (front.add c.number r)) →
      Admits db spell c rows row r

namespace JoinClause

variable {c : JoinClause Predicate} {rows : JoinedRow R → Prop} {row : JoinedRow R} {ns : List Nat} {r : R}

theorem Yields.admits (hrows : ∀ row, rows row → row.Within ns) (hnew : c.number ∉ ns)
    (htied : c.link ≠ []) (h : c.Yields db spell rows row) (hr : row c.number = some r) :
    db.stored c.model r ∧ c.Admits db spell rows row r := by
  cases h with
  | @matched row r' hrow hstored hmatches =>
    obtain rfl := Option.some.inj ((row.add_self c.number r').symm.trans hr)
    refine ⟨hstored, ?_⟩
    rcases Place.join_passed htied hmatches with henforced | ⟨hlink, hslips⟩
    · exact .held henforced
    · exact .slipped hlink hslips
  | frontAlone _ hrow _ => exact absurd ((hrows _ hrow _ hnew).symm.trans hr) nofun
  | @joinedAlone r' hkeeps hstored hunmatched =>
    obtain rfl := Option.some.inj ((JoinedRow.only_self c.number r').symm.trans hr)
    exact ⟨hstored, .unmatched hkeeps rfl hunmatched⟩

/-- A join that keeps no unmatched rows of its table admits only rows that are held, unless a template
has an `OR` outside brackets. -/
theorem Admits.held_of_not_keepsJoined (h : c.Admits db spell rows row r)
    (htype : c.type.keepsJoined = false) (htight : ∀ sql, (spell sql).Tight) :
    c.filter.enforced.Passed spell (db.truth row) := by
  cases h with
  | held henforced => exact henforced
  | slipped _ hslips => exact absurd hslips (Predicate.not_slips htight)
  | unmatched hkeeps _ _ => exact absurd (htype.symm.trans hkeeps) Bool.false_ne_true

end JoinClause

/-! ## Queries -/

namespace Tail

/-- The rows of the first table of a query. -/
def first (db : Database R) (t : Tail) : JoinedRow R → Prop :=
  fun row => ∃ m ∈ t.source.model, ∃ r, db.stored m r ∧ row = .only t.source.number r

/-- The rows that a query returns, or that it counts or aggregates. -/
def Returns (db : Database R) (spell : Filled → Sentence) (t : Tail) (row : JoinedRow R) : Prop :=
  JoinClause.AllYield db spell t.source.joins (t.first db) row ∧
    (Place.rows t.filter).Passed spell (db.truth row)

variable {t : Tail} {row : JoinedRow R}

/-- Every table of a query has a number of its own, and joined tables are tied to others. -/
structure Apart (t : Tail) : Prop where
  numbers : (t.source.number :: t.source.joins.map JoinClause.number).Nodup
  tied : ∀ c ∈ t.source.joins, c.link ≠ []

/-- A row of a joined table that is returned is one that was admitted when the table was joined. -/
theorem Apart.admits (h : t.Apart) {front back : List (JoinClause Predicate)} {c : JoinClause Predicate}
    (hsplit : t.source.joins = front ++ c :: back)
    (hyields : JoinClause.AllYield db spell t.source.joins (t.first db) row) {r : R}
    (hr : row c.number = some r) :
    db.stored c.model r ∧ c.Admits db spell (JoinClause.AllYield db spell front (t.first db))
      (row.upTo (t.source.number :: front.map JoinClause.number ++ [c.number])) r := by
  have hnumbers := h.numbers
  rw [hsplit, List.map_append, List.map_cons, ← List.cons_append, List.append_cons] at hnumbers
  have hc : c.number ∉ t.source.number :: front.map JoinClause.number := fun hmem =>
    (List.nodup_append'.1 (List.nodup_append'.1 hnumbers).1).2.2 hmem (List.mem_singleton_self _)
  have hfirst : ∀ row, t.first db row → row.Within [t.source.number] := by
    rintro _ ⟨m, -, r, -, rfl⟩
    exact JoinedRow.within_only (List.mem_singleton_self _)
  have hfront : ∀ row, JoinClause.AllYield db spell front (t.first db) row →
      row.Within (t.source.number :: front.map JoinClause.number) :=
    fun row hrow => JoinClause.AllYield.within hfirst hrow
  rw [hsplit, JoinClause.allYield_append] at hyields
  have hmem : c.number ∈ t.source.number :: front.map JoinClause.number ++ [c.number] :=
    List.mem_append_right _ (List.mem_singleton_self _)
  rcases JoinClause.allYield_upTo (fun row hrow => JoinClause.Yields.within hfront hrow) hnumbers
    hyields with hrow | hnone
  · refine hrow.admits hfront hc (h.tied c ?_) ((JoinedRow.upTo_of_mem hmem).trans hr)
    rw [hsplit]
    exact List.mem_append_right _ List.mem_cons_self
  · exact absurd ((hnone _ hmem).symm.trans hr) nofun

end Tail

/-! ## Compiled statements -/

theorem Carries.numbers : ∀ {js : List Joined} {clauses : List (JoinClause Predicate)},
    Carries catalog tree js clauses → clauses.map JoinClause.number = js.map fun j => j.number
  | _, _, .nil => rfl
  | _, _, .cons _ _ _ hnumber _ _ _ hrest => by
    rw [List.map_cons, List.map_cons, hnumber, hrest.numbers]

theorem Carries.tied : ∀ {js : List Joined} {clauses : List (JoinClause Predicate)},
    Carries catalog tree js clauses → ∀ c ∈ clauses, c.link ≠ []
  | _, _, .nil => fun _ hc => absurd hc List.not_mem_nil
  | _, _, .cons _ _ _ _ hlink _ _ hrest => List.forall_mem_cons.2 ⟨by
      have hsome := hlink.some
      rintro hnil
      exact hsome hnil, hrest.tied⟩

theorem Tail.CarriesFor.apart {a : Access} {d : Demand} {t : Tail}
    (h : t.CarriesFor catalog a d tree) : t.Apart where
  numbers := by
    rw [h.number, h.joins.numbers]
    exact h.isTree.listed_numbers
  tied := h.joins.tied

/-- A compiled query, count or aggregate. -/
theorem Request.carries_of_build (hn : names.Render catalog) {r : Request} {command : Command}
    (hkind : r.kind ∈ [.query, .count, .aggregate])
    (h : (r.build catalog names).run p = .ok command p') :
    ∃ d access s tree, r.demand? catalog.dialect = some d ∧ catalog.access r.model = .ok access ∧
      command = .select s ∧ s.hierarchy = none ∧ s.tail.CarriesFor catalog access d tree := by
  cases r with
  | query model q =>
    obtain ⟨s, hs, hcommand⟩ := run_map_eq_ok.1 h
    obtain ⟨hnone, access, tree, haccess, hcarries⟩ := Query.compile_carries hn hs
    exact ⟨q.demand, access, s, tree, rfl, haccess, hcommand.symm, hnone, hcarries⟩
  | count model condition joins ignoreDeleted =>
    obtain ⟨s, hs, hcommand⟩ := run_map_eq_ok.1 h
    obtain ⟨access, tree, r, haccess, hmade, hserves, -, -, hnone, htail⟩ := countRows_eq_ok hs
    exact ⟨_, access, s, tree, rfl, haccess, hcommand.symm, hnone,
      JoinTree.tail_carries hn hmade hserves htail⟩
  | aggregate model q =>
    obtain ⟨s, hs, hcommand⟩ := run_map_eq_ok.1 h
    obtain ⟨access, tree, columns, r, haccess, hmade, hserves, -, -, -, hnone, htail⟩ :=
      AggregateQuery.compile_eq_ok hs
    exact ⟨_, access, s, tree, rfl, haccess, hcommand.symm, hnone,
      JoinTree.tail_carries hn hmade hserves htail⟩
  | existence _ _ _ _ | deleteWhere _ _ _ | recursive _ _ | recursiveCount _ _ | vectorSearch _ _ =>
    exact absurd hkind (by simp [kind])

/-- A compiled query, count or aggregate: its joins carry what their tables are held to, and whatever the
database, a row of a joined table that is returned is a stored one, and when its table was joined it was
held to that, or escaped it by the caller's text, or it was kept without matching any row in front. -/
theorem Request.joined_rows_admitted {r : Request} {statement : Statement} {events : List Event}
    (hkind : r.kind ∈ [.query, .count, .aggregate])
    (h : r.compile catalog = (.ok statement, events)) :
    ∃ d access s tree, r.demand? catalog.dialect = some d ∧ catalog.access r.model = .ok access ∧
      statement.command = .select s ∧ s.hierarchy = none ∧ s.tail.CarriesFor catalog access d tree ∧
      (∀ spell, ∀ place ∈ statement.command.places, place.Spelled spell →
        Text.Within place.text statement.sql ∧ ∀ t ∈ place.sentence? spell,
          Formula.parse t.leaves place.text.toList = some t.formula) ∧
      ∀ (R : Type) (db : Database R) (spell : Filled → Sentence) (row : JoinedRow R),
        s.tail.Returns db spell row → ∀ front c back, s.tail.source.joins = front ++ c :: back →
        ∀ x, row c.number = some x →
          let joined := row.upTo (s.tail.source.number :: front.map JoinClause.number ++ [c.number])
          db.stored c.model x ∧
            c.Admits db spell (JoinClause.AllYield db spell front (s.tail.first db)) joined x ∧
            (c.type.keepsJoined = false → (∀ sql, (spell sql).Tight) →
              c.filter.enforced.Passed spell (db.truth joined)) := by
  obtain ⟨depth, q', hbuild, -⟩ := Request.build_of_compile h
  obtain ⟨d, access, s, tree, hdemand, haccess, hcommand, hnone, hcarries⟩ :=
    Request.carries_of_build (Names.render_ofTree catalog depth) hkind hbuild
  refine ⟨d, access, s, tree, hdemand, haccess, hcommand, hnone, hcarries, ?_, ?_⟩
  · intro spell place hplace hspelled
    refine ⟨Command.within_text statement.dialect hplace, fun t ht => ?_⟩
    have hspells := Place.spells_text hspelled (r.places_tied h place hplace)
    rw [ht] at hspells
    exact hspells.parse
  · intro R db spell row hreturns front c back hsplit x hx
    obtain ⟨hstored, hadmits⟩ := hcarries.apart.admits hsplit hreturns.1 hx
    exact ⟨hstored, hadmits, hadmits.held_of_not_keepsJoined⟩

/-- Employees of departments; the caller sees the departments of one company. -/
def ownDepartments : Catalog where
  models := [
    ("Department",
      { name := "Department", table := "department"
        fields := [⟨"id", .basic ⟨"id", "id", true⟩⟩,
          ⟨"companyId", .basic ⟨"companyId", "company_id", true⟩⟩] }),
    ("Employee",
      { name := "Employee", table := "employee"
        fields := [⟨"id", .basic ⟨"id", "id", true⟩⟩,
          ⟨"departmentId", .basic ⟨"departmentId", "department_id", true⟩⟩,
          ⟨"department", .relation ⟨.one, "Department", ["departmentId"]⟩⟩] })]
  permissions := [("Department", { rows := some (.compare "companyId" .eq (.text "1") false) })]

/-- Employees with their departments, and departments without employees. -/
def allDepartments : Query where
  joins := [{ path := "department", type := .right }]
  select := some ["id", "department.id"]

/-- A department of another company, and no employees. -/
def emptyDepartment : Database Unit where
  stored m _ := m.name = "Department"
  truth _ _ := .fails

/-- A department of another company is returned if it has no employees. -/
theorem allDepartments_unmatched : ∃ statement events s c,
    (Request.query "Employee" allDepartments).compile ownDepartments = (.ok statement, events) ∧
    statement.command = .select s ∧ s.tail.sourceText = " FROM employee AS t0 RIGHT JOIN department" ++
      " AS t1 ON t1.id = t0.department_id AND t1.company_id = #\x7bj10.v\x7d" ∧
    s.tail.source.joins = [c] ∧ s.tail.Returns emptyDepartment Filled.leaf (.only 1 ()) ∧
    emptyDepartment.stored c.model () ∧
    ¬ c.filter.enforced.Passed Filled.leaf (emptyDepartment.truth (.only 1 ())) := by
  obtain ⟨statement, events, hcompile⟩ : ∃ statement events,
      (Request.query "Employee" allDepartments).compile ownDepartments = (.ok statement, events) :=
    ⟨_, _, rfl⟩
  obtain ⟨d, access, s, tree, -, -, hcommand, -, -, -, hadmits⟩ :=
    Request.joined_rows_admitted (by decide) hcompile
  obtain ⟨htext, hfirst, hjoins, hfilter, henforced⟩ : s.tail.sourceText =
      " FROM employee AS t0 RIGHT JOIN department" ++
        " AS t1 ON t1.id = t0.department_id AND t1.company_id = #\x7bj10.v\x7d" ∧
      s.tail.source.model.map (fun m => m.name) = some "Employee" ∧
      s.tail.source.joins.map (fun c => (c.model.name, c.number, c.type.keepsJoined)) =
        [("Department", 1, true)] ∧
      (Place.rows s.tail.filter).sentence? Filled.leaf = none ∧
      ∀ c ∈ s.tail.source.joins, ∃ e, c.filter.enforced.sentence? Filled.leaf = some (.last (.leaf e)) := by
    cases hcompile
    cases hcommand
    exact ⟨by decide +kernel, by decide +kernel, by decide +kernel, by decide +kernel,
      List.forall_mem_singleton.2 ⟨_, rfl⟩⟩
  obtain ⟨c, hc, hclause⟩ := List.map_eq_singleton_iff.1 hjoins
  obtain ⟨hmodel, hclause⟩ := Prod.mk.inj hclause
  obtain ⟨hnumber, hkeeps⟩ := Prod.mk.inj hclause
  -- no employee is stored, so the department matches none
  have halone : c.Yields emptyDepartment Filled.leaf (s.tail.first emptyDepartment) (.only c.number ()) := by
    refine .joinedAlone hkeeps hmodel ?_
    rintro _ ⟨m, hm, r, hstored, -⟩
    rw [Option.mem_def.1 hm, Option.map_some] at hfirst
    exact absurd (hstored.symm.trans (Option.some.inj hfirst)) (by decide)
  have hreturns : s.tail.Returns emptyDepartment Filled.leaf (.only 1 ()) := by
    refine ⟨?_, fun t ht => absurd (hfilter ▸ ht) (Option.not_mem_none t)⟩
    rw [hc, ← hnumber]
    exact halone
  obtain ⟨hstored, -, -⟩ := hadmits Unit emptyDepartment Filled.leaf _ hreturns [] c [] hc ()
    (hnumber ▸ JoinedRow.only_self 1 ())
  refine ⟨statement, events, s, c, hcompile, hcommand, htext, hc, hreturns, hstored, fun hpassed => ?_⟩
  obtain ⟨e, he⟩ := henforced c (hc ▸ List.mem_singleton_self c)
  exact absurd (hpassed _ he) nofun

end QueryCompiler
