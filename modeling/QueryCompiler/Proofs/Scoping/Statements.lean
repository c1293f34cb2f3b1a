import QueryCompiler.Proofs.Scoping.Order
import QueryCompiler.Proofs.Enforcement.Places

/-!
# The order of tables in statements

The tables of a statement are brought in before they are named, but for one case at every depth of the
statement: an `ON` clause may name tables below its own, and these are joined behind it
(`Request.ons_scoped`). This happens exactly where the caller's rule on a joined table, or the condition
of an explicit join, looks something up over a relationship of that table.
-/

namespace QueryCompiler

open Build

variable {catalog : Catalog} {names : Names Scope} {p p' : Progress}

/-! ## `ON` clauses are written -/

namespace Predicate

mutual

theorem place_of_ons {on : On} : ∀ {p : Predicate}, on ∈ p.ons →
    Place.join on.clause.link on.clause.filter ∈ p.places
  | .absent, h | .filled _ _, h | .membership _ _ _, h => absurd h List.not_mem_nil
  | .group _ parts, h => place_of_onsOf (show on ∈ onsOf parts from h)
  | .negate inner, h => place_of_ons (p := inner) h
  | .related _ ⟨_, number, _, joins, enforced⟩ inner, h => by
    rw [ons, List.mem_append, List.mem_append] at h
    rw [places, List.mem_cons, List.mem_append, List.mem_append]
    rcases h with h | h | h
    · exact .inr (.inl (.inl (place_of_joinsOns h)))
    · exact .inr (.inl (.inr (place_of_ons h)))
    · exact .inr (.inr (place_of_ons h))

theorem place_of_onsOf {on : On} : ∀ {ps : List Predicate}, on ∈ onsOf ps →
    Place.join on.clause.link on.clause.filter ∈ placesOf ps
  | [], h => absurd h List.not_mem_nil
  | p :: ps, h => by
    rw [placesOf, List.mem_append]
    exact (List.mem_append.1 h).imp place_of_ons place_of_onsOf

theorem place_of_joinsOns {on : On} : ∀ {front : List Nat} {js : List (JoinClause Predicate)},
    on ∈ joinsOns front js → Place.join on.clause.link on.clause.filter ∈ joinsPlaces js
  | _, [], h => absurd h List.not_mem_nil
  | front, ⟨type, model, number, link, ⟨enforced, requested⟩⟩ :: js, h => by
    rw [joinsOns, List.mem_cons, List.mem_append, List.mem_append] at h
    rw [joinsPlaces, List.mem_cons, List.mem_append, List.mem_append]
    rcases h with rfl | (h | h) | h
    · exact .inl rfl
    · exact .inr (.inl (.inl (place_of_ons h)))
    · exact .inr (.inl (.inr (place_of_ons h)))
    · exact .inr (.inr (place_of_joinsOns h))

end
end Predicate

theorem Filter.place_of_ons {f : Filter Predicate} {on : On} (h : on ∈ f.ons) :
    Place.join on.clause.link on.clause.filter ∈ f.places := by
  rw [places, List.mem_cons, List.mem_append]
  exact .inr ((List.mem_append.1 h).imp Predicate.place_of_ons Predicate.place_of_ons)

/-- The `ON` clauses of a command stand in its text, if its growing table has none. -/
theorem Command.within_text_of_ons {command : Command} {on : On} (h : on ∈ command.ons)
    (hgrown : ∀ q, command = .select q → ∀ table ∈ q.hierarchy, table.ons = []) (d : Dialect) :
    Text.Within (Place.join on.clause.link on.clause.filter).text (command.text d) := by
  refine Command.within_text d ?_
  cases command with
  | mark _ _ filter => exact Filter.place_of_ons h
  | remove _ filter => exact Filter.place_of_ons h
  | select q =>
    have hnone : (q.hierarchy.map Hierarchy.ons).getD [] = [] := by
      cases htable : q.hierarchy with
      | none => rfl
      | some table => exact hgrown q rfl table htable
    rw [Command.ons, hnone, List.nil_append, List.mem_append] at h
    refine List.mem_append_right _ (List.mem_append.2 ?_)
    exact h.imp Predicate.place_of_joinsOns Filter.place_of_ons

/-! ## The clauses of a query -/

/-- The joins and the filter of a query over the tables of a tree. Over a growing table, nothing is
enforced. -/
structure Tail.SeenFrom (catalog : Catalog) (tree : JoinTree) (hierarchy : Bool)
    (condition : Option Condition) (lo hi : Nat) (t : Tail) : Prop where
  number : t.source.number = tree.root.number
  joins : ∃ mid, lo ≤ mid ∧ mid ≤ hi ∧ tree.JoinsSeen catalog lo mid t.source.joins
  enforced : hierarchy = true ∧ t.filter.enforced = .absent ∨
    hierarchy = false ∧ ∃ mid mid', lo ≤ mid ∧ mid' ≤ hi ∧
      t.filter.enforced.SeenFrom catalog ⟨tree, tree.root, false⟩
        (tree.root.access.enforced? tree.root.ignoreDeleted).toList mid mid'
  requested : ∃ mid, lo ≤ mid ∧
    t.filter.requested.SeenFrom catalog ⟨tree, tree.root, true⟩ condition.toList mid hi

theorem Tail.SeenFrom.ons {tree : JoinTree} {hierarchy : Bool} {condition : Option Condition}
    {lo hi : Nat} {t : Tail} (h : t.SeenFrom catalog tree hierarchy condition lo hi) :
    ∀ on ∈ Predicate.joinsOns [t.source.number] t.source.joins ++ t.filter.ons, on.Stands catalog := by
  obtain ⟨_, -, -, hjoins⟩ := h.joins
  obtain ⟨_, -, hrequested⟩ := h.requested
  intro on hon
  rw [h.number, Filter.ons, List.mem_append, List.mem_append] at hon
  rcases hon with hon | hon | hon
  · exact hjoins.ons hon
  · rcases h.enforced with ⟨-, hnone⟩ | ⟨-, _, _, -, -, henforced⟩
    · rw [hnone] at hon
      exact absurd hon List.not_mem_nil
    · exact henforced.ons on hon
  · exact hrequested.ons on hon

theorem JoinTree.Made.tail_seen (hn : names.Scoping catalog) {tree : JoinTree} {access : Access}
    {joins : List Join} {n : Nat} (hmade : Made catalog true access joins n tree p.nextNumber)
    {hierarchy : Bool} {condition : Option Condition} {keys : List Expression}
    {order : List OrderTerm} {page : Option Page} {t : Tail}
    (h : (tree.tail catalog names hierarchy condition keys order page).run p = .ok t p') :
    t.SeenFrom catalog tree hierarchy condition p.nextNumber p'.nextNumber := by
  obtain ⟨q, q', hclauses, hheld, hasked, -, -, -, hnumber, -⟩ := JoinTree.tail_eq_ok h
  have hbelow : ∀ m ∈ tree.numbers, m < p.nextNumber := fun m hm => (hmade.numbers.2 m hm).2
  have hscope : ∀ checked, Scope.Below catalog ⟨tree, tree.root, checked⟩ p.nextNumber :=
    fun checked => ⟨⟨hmade.walked, .root⟩, hmade.isTree, hbelow⟩
  have hjoins := JoinTree.clauses_seen hn hmade.walked hmade.isTree hbelow hclauses
  rcases hheld with ⟨hgrown, hnone, rfl⟩ | ⟨hgrown, hheld⟩
  · have hrequested := Condition.resolve?_seen hn ((hscope true).mono hjoins.le) hasked
    exact ⟨hnumber, ⟨_, hjoins.le, hrequested.le, hjoins⟩, .inl ⟨hgrown, hnone⟩,
      ⟨_, hjoins.le, hrequested⟩⟩
  · have henforced := Condition.resolve?_seen hn ((hscope false).mono hjoins.le) hheld
    have hle := hjoins.le.trans henforced.le
    have hrequested := Condition.resolve?_seen hn ((hscope true).mono hle) hasked
    exact ⟨hnumber, ⟨_, hjoins.le, henforced.le.trans hrequested.le, hjoins⟩,
      .inr ⟨hgrown, _, _, hjoins.le, hrequested.le, henforced⟩, ⟨_, hle, hrequested⟩⟩

/-! ## Statements -/

/-- The `ON` clauses of a command are those of tables, and its growing table has none. -/
structure Command.OnsStand (catalog : Catalog) (command : Command) : Prop where
  stand : ∀ on ∈ command.ons, on.Stands catalog
  grown : ∀ q, command = .select q → ∀ table ∈ q.hierarchy, table.ons = []

theorem Select.onsStand {s : Select} (hgrown : ∀ table ∈ s.hierarchy, table.ons = [])
    (htail : ∀ on ∈ Predicate.joinsOns [s.tail.source.number] s.tail.source.joins ++ s.tail.filter.ons,
      on.Stands catalog) : (Command.select s).OnsStand catalog := by
  refine ⟨fun on hon => ?_, fun q hq => ?_⟩
  · refine htail on ((List.mem_append.1 hon).resolve_left fun hon => ?_)
    cases htable : s.hierarchy with
    | none =>
      rw [htable] at hon
      exact absurd hon List.not_mem_nil
    | some table =>
      rw [htable] at hon
      rw [Option.map_some, Option.getD_some, hgrown table htable] at hon
      exact absurd hon List.not_mem_nil
  · obtain rfl := Command.select.inj hq
    exact hgrown

theorem Query.compile_onsStand (hn : names.Scoping catalog) {model : String} {q : Query}
    {hierarchy : Option Hierarchy} {s : Select} (hgrown : ∀ table ∈ hierarchy, table.ons = [])
    (h : (q.compile catalog names model hierarchy).run p = .ok s p') :
    (Command.select s).OnsStand catalog := by
  obtain ⟨access, tree, columns, r, -, hmade, -, -, -, rfl, htail⟩ := Query.compile_eq_ok h
  exact Select.onsStand hgrown (hmade.tail_seen hn htail).ons

theorem countRows_onsStand (hn : names.Scoping catalog) {model : String}
    {condition : Option Condition} {joins : List Join} {ignoreDeleted : Bool} {s : Select}
    (h : (countRows catalog names model condition joins ignoreDeleted).run p = .ok s p') :
    (Command.select s).OnsStand catalog := by
  obtain ⟨access, tree, r, -, hmade, -, -, -, hnone, htail⟩ := countRows_eq_ok h
  exact Select.onsStand (by rw [hnone]; exact nofun) (hmade.tail_seen hn htail).ons

theorem deleteWhere_onsStand {model : String} {condition : Condition} {physical : Bool}
    {command : Command}
    (h : (deleteWhere catalog model condition physical).run p = .ok command p') :
    command.OnsStand catalog := by
  obtain ⟨access, filter, r, -, hasked, hheld, hcommand⟩ := deleteWhere_eq_ok h
  obtain ⟨-, halone⟩ := condition.resolve_alone (Names.shut_ofTable access .bare) hasked
  obtain ⟨-, hheld, -⟩ := Condition.resolve?_alone (Names.shut_ofTable access .bare) hheld
  have hnone : ∀ on : On, on ∉ filter.ons := by
    rw [Filter.ons, hheld, halone.ons, List.append_nil]
    exact fun on => List.not_mem_nil
  rcases hcommand with rfl | ⟨flag, -, rfl⟩
  · exact ⟨fun on hon => absurd hon (hnone on), nofun⟩
  · exact ⟨fun on hon => absurd hon (hnone on), nofun⟩

theorem Request.build_onsStand (hn : names.Scoping catalog) {r : Request} {command : Command}
    (h : (r.build catalog names).run p = .ok command p') : command.OnsStand catalog := by
  cases r with
  | query model q =>
    obtain ⟨s, hs, rfl⟩ := run_map_eq_ok.1 h
    exact Query.compile_onsStand hn (fun _ h => absurd h (Option.not_mem_none _)) hs
  | count model condition joins ignoreDeleted =>
    obtain ⟨s, hs, rfl⟩ := run_map_eq_ok.1 h
    exact countRows_onsStand hn hs
  | existence model condition joins ignoreDeleted =>
    obtain ⟨s, hs, rfl⟩ := run_map_eq_ok.1 h
    obtain ⟨access, tree, r, -, hmade, -, -, -, hnone, htail⟩ := checkExistence_eq_ok hs
    exact Select.onsStand (by rw [hnone]; exact nofun) (hmade.tail_seen hn htail).ons
  | aggregate model q =>
    obtain ⟨s, hs, rfl⟩ := run_map_eq_ok.1 h
    obtain ⟨access, tree, columns, r, -, hmade, -, -, -, -, hnone, htail⟩ :=
      AggregateQuery.compile_eq_ok hs
    exact Select.onsStand (by rw [hnone]; exact nofun) (hmade.tail_seen hn htail).ons
  | deleteWhere model condition physical => exact deleteWhere_onsStand h
  | recursive model q =>
    obtain ⟨s, hs, rfl⟩ := run_map_eq_ok.1 h
    obtain ⟨access, start, r, -, hstart, hs⟩ := HierarchyQuery.rows_eq_ok hs
    rcases hs with ⟨-, hs⟩ | ⟨-, table, r', htable, hs⟩
    · exact Query.compile_onsStand hn (fun _ h => absurd h (Option.not_mem_none _)) hs
    · refine Query.compile_onsStand hn (fun t ht => ?_) hs
      obtain rfl := Option.some.inj ht
      exact (HierarchyQuery.table_alone hstart htable).2.1
  | recursiveCount model q =>
    obtain ⟨s, hs, rfl⟩ := run_map_eq_ok.1 h
    obtain ⟨access, start, r, -, hstart, hs⟩ := HierarchyQuery.count_eq_ok hs
    rcases hs with ⟨-, hs⟩ | ⟨-, table, tree, r₁, r₂, htable, hmade, -, -, hhierarchy, htail⟩
    · exact countRows_onsStand hn hs
    · refine Select.onsStand (fun t ht => ?_) (hmade.tail_seen hn htail).ons
      rw [hhierarchy] at ht
      obtain rfl := Option.some.inj ht
      exact (HierarchyQuery.table_alone hstart htable).2.1
  | vectorSearch model q =>
    obtain ⟨s, hs, rfl⟩ := run_map_eq_ok.1 h
    obtain ⟨query, _, hrun, hs⟩ := run_bind_eq_ok.1 hs
    obtain ⟨-, rfl⟩ := run_ofExcept_eq_ok.1 hrun
    exact Query.compile_onsStand hn (fun _ h => absurd h (Option.not_mem_none _)) hs

/-- The `ON` clause of a table, as it is written in a text. Its link names its own table and those in
front of it. All that it names ahead is of tables below its own, which are joined behind it, and it
names nothing ahead exactly if the conditions on the table keep to the table's own fields. -/
structure On.ScopedIn (catalog : Catalog) (on : On) (sql : String) (tree : JoinTree) (j : Joined) :
    Prop where
  written : Text.Within (Place.join on.clause.link on.clause.filter).text sql
  place : on.Of catalog tree j
  link : ∀ c ∈ Equality.columns on.clause.link, c.isOf (on.front ++ [on.clause.number]) = true
  ahead : ∀ c ∈ on.ahead, ∃ k ∈ tree.joined, j.path <+: k.path ∧ k.path ≠ j.path ∧
    k.number ∈ on.back ∧ c.qualifier = .table k.number
  nothing : on.ahead = [] ↔ (∀ c ∈ j.access.enforced? j.ignoreDeleted, c.StaysOn j.access) ∧
    ∀ c ∈ j.condition, c.StaysOn j.access

/-- Which tables the `ON` clauses of a compiled statement name, in its first query and in every
subquery. -/
theorem Request.ons_scoped {r : Request} {statement : Statement} {events : List Event}
    (h : r.compile catalog = (.ok statement, events)) :
    ∀ on ∈ statement.command.ons, ∃ tree j, on.ScopedIn catalog statement.sql tree j := by
  obtain ⟨depth, q, hbuild, hdialect⟩ := Request.build_of_compile h
  have hons := Request.build_onsStand (Names.scoping_ofTree catalog depth) hbuild
  intro on hon
  obtain ⟨tree, j, hof⟩ := hons.stand on hon
  exact ⟨tree, j, Command.within_text_of_ons hon hons.grown _, hof, fun _ => hof.link_isOf,
    fun _ => hof.ahead_below, hof.ahead_eq_nil_iff⟩

/-- Employees of departments of companies. -/
def companies : Catalog where
  models := [
    ("Company",
      { name := "Company", table := "company"
        fields := [⟨"id", .basic ⟨"id", "id", true⟩⟩, ⟨"name", .basic ⟨"name", "name", true⟩⟩] }),
    ("Department",
      { name := "Department", table := "department"
        fields := [⟨"id", .basic ⟨"id", "id", true⟩⟩,
          ⟨"companyId", .basic ⟨"companyId", "company_id", true⟩⟩,
          ⟨"company", .relation ⟨.one, "Company", ["companyId"]⟩⟩] }),
    ("Employee",
      { name := "Employee", table := "employee"
        fields := [⟨"id", .basic ⟨"id", "id", true⟩⟩,
          ⟨"departmentId", .basic ⟨"departmentId", "department_id", true⟩⟩,
          ⟨"department", .relation ⟨.one, "Department", ["departmentId"]⟩⟩] })]

/-- Employees, each with the department if that is one of a given company. -/
def ofCompany : Query where
  joins := [{ path := "department", condition := some (.compare "company.name" .eq (.text "x") false) }]
  select := some ["id"]

/-- The company is named before it is joined. -/
theorem ofCompany_names_ahead : ∃ statement events s on,
    (Request.query "Employee" ofCompany).compile companies = (.ok statement, events) ∧
    statement.command = .select s ∧ s.tail.sourceText = " FROM employee AS t0" ++
      " LEFT JOIN department AS t1 ON t1.id = t0.department_id AND t2.name = #\x7bj11.v\x7d" ++
      " LEFT JOIN company AS t2 ON t2.id = t1.company_id" ∧
    on ∈ statement.command.ons ∧ on.ahead = [⟨.table 2, "name"⟩] ∧ on.back = [2] ∧
    ∃ tree j, on.ScopedIn companies statement.sql tree j := by
  obtain ⟨statement, events, hcompile⟩ : ∃ statement events,
      (Request.query "Employee" ofCompany).compile companies = (.ok statement, events) := ⟨_, _, rfl⟩
  have hscoped := Request.ons_scoped hcompile
  have hons : statement.command.ons.map (fun on => (on.ahead, on.back)) =
      [([⟨.table 2, "name"⟩], [2]), ([], [])] := by
    cases hcompile
    decide +kernel
  obtain ⟨s, hcommand, htext⟩ : ∃ s, statement.command = .select s ∧
      s.tail.sourceText = " FROM employee AS t0" ++
        " LEFT JOIN department AS t1 ON t1.id = t0.department_id AND t2.name = #\x7bj11.v\x7d" ++
        " LEFT JOIN company AS t2 ON t2.id = t1.company_id" := by
    cases hcompile
    exact ⟨_, rfl, by decide +kernel⟩
  have hmem : (([⟨.table 2, "name"⟩], [2]) : List Column × List Nat) ∈
      statement.command.ons.map fun on => (on.ahead, on.back) := by
    rw [hons]
    exact List.mem_cons_self
  obtain ⟨on, hon, heq⟩ := List.mem_map.1 hmem
  exact ⟨statement, events, s, on, hcompile, hcommand, htext, hon, congrArg Prod.fst heq,
    congrArg Prod.snd heq, hscoped on hon⟩

end QueryCompiler
