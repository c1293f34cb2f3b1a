import QueryCompiler.Proofs.Compile.Pages
import QueryCompiler.Proofs.Compile.Parts

/-!
# Caps on the number of rows

A request that says how many rows it wants gets no more than these, and no more than the settings
allow. A search for nearest neighbours is capped like a query for its first page. A page of no rows
stands for the whole result: neither the number nor the bound of the settings applies to it.
-/

namespace QueryCompiler

open Build

variable {catalog : Catalog} {names : Names Scope} {model : String} {p p' : Progress}

/-- The page that the rows of a request are cut down to. -/
def Request.page? : Request → Option Page
  | .query _ q => q.page
  | .existence _ _ _ _ => some ⟨1, 1⟩
  | .aggregate _ q => q.page
  | .recursive _ q => q.query.page
  | .vectorSearch _ q => some ⟨1, q.count⟩
  | .count _ _ _ _ | .deleteWhere _ _ _ | .recursiveCount _ _ => none

/-! ## The limit of a command -/

theorem Query.limit_of_compile {q : Query} {hierarchy : Option Hierarchy} {s : Select}
    (h : (q.compile catalog names model hierarchy).run p = .ok s p') :
    s.tail.limit = catalog.settings.limit? q.page := by
  obtain ⟨_, _, _, _, _, _, _, htail⟩ := Query.compile_run.1 h
  obtain ⟨_, _, _, _, _, _, _, _, _, hlimit⟩ := JoinTree.tail_eq_ok htail
  exact hlimit

theorem AggregateQuery.limit_of_compile {q : AggregateQuery} {s : Select}
    (h : (q.compile catalog names model).run p = .ok s p') :
    s.tail.limit = catalog.settings.limit? q.page := by
  obtain ⟨_, _, _, _, _, _, _, _, _, _, _, htail⟩ := AggregateQuery.compile_eq_ok h
  obtain ⟨_, _, _, _, _, _, _, _, _, hlimit⟩ := JoinTree.tail_eq_ok htail
  exact hlimit

theorem checkExistence_limit {condition : Option Condition} {joins : List Join}
    {ignoreDeleted : Bool} {s : Select}
    (h : (checkExistence catalog names model condition joins ignoreDeleted).run p = .ok s p') :
    s.tail.limit = catalog.settings.limit? (some ⟨1, 1⟩) := by
  obtain ⟨_, _, _, _, _, _, _, _, _, htail⟩ := checkExistence_eq_ok h
  obtain ⟨_, _, _, _, _, _, _, _, _, hlimit⟩ := JoinTree.tail_eq_ok htail
  exact hlimit

theorem HierarchyQuery.limit_of_rows {q : HierarchyQuery} {s : Select}
    (h : (q.rows catalog names model).run p = .ok s p') :
    s.tail.limit = catalog.settings.limit? q.query.page := by
  obtain ⟨_, _, _, _, _, ⟨_, hquery⟩ | ⟨_, _, _, _, hquery⟩⟩ := HierarchyQuery.rows_eq_ok h
  · exact Query.limit_of_compile hquery
  · exact Query.limit_of_compile hquery

theorem NearestQuery.page_of_toQuery {d : Dialect} {q : NearestQuery} {query : Query}
    (h : q.toQuery d = .ok query) : query.page = some ⟨1, q.count⟩ := by
  rw [toQuery] at h
  obtain ⟨_, _, h⟩ := except_bind_eq_ok.1 h
  obtain ⟨_, _, h⟩ := except_bind_eq_ok.1 h
  obtain rfl := Except.ok.inj h
  rfl

theorem NearestQuery.limit_of_compile {q : NearestQuery} {s : Select}
    (h : (q.compile catalog names model).run p = .ok s p') :
    s.tail.limit = catalog.settings.limit? (some ⟨1, q.count⟩) := by
  rw [compile] at h
  obtain ⟨query, _, hrun, h⟩ := run_bind_eq_ok.1 h
  obtain ⟨hquery, rfl⟩ := run_ofExcept_eq_ok.1 hrun
  rw [Query.limit_of_compile h, page_of_toQuery hquery]

/-- The page of a request is the page of the query it is compiled to. -/
theorem Request.limit_of_build {r : Request} {page : Page} {command : Command}
    (hpage : r.page? = some page) (h : (r.build catalog names).run p = .ok command p') :
    ∃ s, command = .select s ∧ s.tail.limit = catalog.settings.limit? (some page) := by
  rw [← hpage]
  cases r with
  | query model q =>
    obtain ⟨s, hrun, rfl⟩ := run_map_eq_ok.1 h
    exact ⟨s, rfl, Query.limit_of_compile hrun⟩
  | existence model c joins ignoreDeleted =>
    obtain ⟨s, hrun, rfl⟩ := run_map_eq_ok.1 h
    exact ⟨s, rfl, checkExistence_limit hrun⟩
  | aggregate model q =>
    obtain ⟨s, hrun, rfl⟩ := run_map_eq_ok.1 h
    exact ⟨s, rfl, AggregateQuery.limit_of_compile hrun⟩
  | recursive model q =>
    obtain ⟨s, hrun, rfl⟩ := run_map_eq_ok.1 h
    exact ⟨s, rfl, HierarchyQuery.limit_of_rows hrun⟩
  | vectorSearch model q =>
    obtain ⟨s, hrun, rfl⟩ := run_map_eq_ok.1 h
    exact ⟨s, rfl, NearestQuery.limit_of_compile hrun⟩
  | count | deleteWhere | recursiveCount => exact absurd hpage nofun

/-! ## The clause of a statement -/

/-- A statement ends in a paging clause that names the number of rows, and binds that number. -/
structure Statement.LimitedBy (s : Statement) (l : Limit) : Prop where
  sql : ∃ whole, s.sql = whole ++ l.text s.dialect
  named : l.Mentions s.dialect rowsParam
  rows : s.params.get? rowsParam = some (.uint l.rows.toUInt64)

theorem Request.limitedBy_of_build {r : Request} {statement : Statement} {events : List Event}
    {s : Select} {l : Limit} (h : r.compile catalog = (.ok statement, events))
    (hcommand : statement.command = .select s) (hlimit : s.tail.limit = some l) :
    statement.LimitedBy l := by
  have hself : s.limited (some l) = s := by rw [Select.limited, ← hlimit]
  have hnodup := (Request.paths_nodup h).1
  refine ⟨⟨(s.limited none).text statement.dialect, ?_⟩, l.mentions_rows _, ?_⟩
  · rw [← Select.text_limited, hself, Statement.sql, hcommand]
    rfl
  · refine Params.get?_ofBindings hnodup (b := ⟨rowsParam, _⟩) ?_
    rw [hcommand, Command.bindings, ← hself, Select.bindings_limited]
    exact List.mem_append_right _ List.mem_cons_self

theorem Settings.rowsOf_le (s : Settings) (size : Nat) : s.rowsOf size ≤ size := by
  rw [rowsOf]
  split
  · split
    · exact le_rfl
    · exact min_le_left _ _
  · exact le_rfl

theorem Settings.rowsOf_le_bound {s : Settings} {bound : UInt32} (hbound : s.maxPageSize = some bound)
    (hpos : 0 < bound) (size : Nat) : s.rowsOf size ≤ bound.toNat := by
  simp only [rowsOf, hbound, if_neg (UInt32.pos_iff_ne_zero.1 hpos)]
  exact min_le_right _ _

/-- The rows of a request are capped. Whatever else a request asks for, if it asks for a page of some
rows, its statement ends in a paging clause with a number of rows that is at most the one asked for,
and at most the bound of the settings where these have one. -/
theorem Request.rows_capped {r : Request} {page : Page} {statement : Statement} {events : List Event}
    (hpage : r.page? = some page) (hsize : 0 < page.size)
    (h : r.compile catalog = (.ok statement, events)) :
    ∃ l, statement.LimitedBy l ∧ l.rows ≤ page.size ∧
      ∀ bound, catalog.settings.maxPageSize = some bound → 0 < bound → l.rows ≤ bound := by
  obtain ⟨depth, p, hbuild, -⟩ := build_of_compile h
  obtain ⟨s, hcommand, hlimit⟩ := limit_of_build hpage hbuild
  obtain ⟨l, hl, hrows, -⟩ := catalog.settings.limit?_of_pos page.current hsize
  refine ⟨l, limitedBy_of_build h hcommand (hlimit.trans hl), ?_, fun bound hbound hpos => ?_⟩
  · rw [UInt32.le_iff_toNat_le, hrows]
    exact catalog.settings.rowsOf_le _
  · rw [UInt32.le_iff_toNat_le, hrows]
    exact Settings.rowsOf_le_bound hbound hpos _

/-- The five nearest employees, if pages have three rows at most. -/
theorem rosters_rows_capped : ∃ statement events,
    (Request.vectorSearch "Employee" { path := "name", vector := [0.5, 1], count := 5 }).compile
      { rosters with settings.maxPageSize := some 3 } = (.ok statement, events) ∧
    ∃ l, statement.LimitedBy l ∧ l.rows ≤ 5 ∧ l.rows ≤ 3 := by
  obtain ⟨statement, events, h⟩ : ∃ statement events, (Request.vectorSearch "Employee"
      { path := "name", vector := [0.5, 1], count := 5 }).compile
      { rosters with settings.maxPageSize := some 3 } = (.ok statement, events) := ⟨_, _, rfl⟩
  have hpage : (Request.vectorSearch "Employee"
      { path := "name", vector := [0.5, 1], count := 5 }).page? = some ⟨1, 5⟩ := rfl
  obtain ⟨l, hlimited, hsize, hbound⟩ := Request.rows_capped hpage (by decide) h
  exact ⟨statement, events, h, l, hlimited, hsize, hbound 3 rfl (by decide)⟩

/-- The zero nearest employees, and a page of zero employees, are all of them: neither the number nor
the bound of the settings leaves a paging clause. -/
theorem rosters_zero_not_capped : ∃ nearest page events events',
    (Request.vectorSearch "Employee" { path := "name", vector := [0.5, 1], count := 0 }).compile
      { rosters with settings.maxPageSize := some 3 } = (.ok nearest, events) ∧
    (Request.query "Employee" { page := some ⟨1, 0⟩ }).compile
      { rosters with settings.maxPageSize := some 3 } = (.ok page, events') ∧
    ∀ l, ¬ nearest.LimitedBy l ∧ ¬ page.LimitedBy l := by
  refine ⟨_, _, _, _, rfl, rfl, fun l => ⟨fun h => ?_, fun h => ?_⟩⟩
  · exact absurd h.rows nofun
  · exact absurd h.rows nofun

end QueryCompiler
