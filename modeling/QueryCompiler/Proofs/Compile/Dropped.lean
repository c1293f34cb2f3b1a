import QueryCompiler.Proofs.Boolean.Silent
import QueryCompiler.Proofs.JoinTree.Idle
import QueryCompiler.Proofs.Compile.Depth
import QueryCompiler.Proofs.Compile.SameRows

/-!
# Dropped conditions

A condition that says nothing has no text and binds no value, but the paths that it names are joined
like any others. If explicit joins cover them, the tables are those of the request without the
condition, and so is the statement (`Request.dropped_agrees`). If they do not, the tables are joined
all the same.
-/

namespace QueryCompiler

/-! ## Statements that cannot be told apart -/

/-- Two filters with one text that bind the same values. -/
structure Filter.Agrees (f f' : Filter Predicate) : Prop where
  text : f.text = f'.text
  bindings : f.bindings = f'.bindings

theorem Filter.agrees_of_silent {enforced p p' : Predicate} (h : p.IsSilent) (h' : p'.IsSilent) :
    Filter.Agrees ⟨enforced, p⟩ ⟨enforced, p'⟩ := by
  constructor
  · rw [Filter.text, Filter.text, h.text, h'.text]
  · rw [Filter.bindings, Filter.bindings, h.bindings, h'.bindings]

/-- Two queries that differ in their filters alone, which agree. -/
def Select.Agrees (s s' : Select) : Prop :=
  s.tail.filter.Agrees s'.tail.filter ∧ s = { s' with tail.filter := s.tail.filter }

theorem Tail.text_filter {t : Tail} {f : Filter Predicate} (h : f.Agrees t.filter) (d : Dialect) :
    Tail.text { t with filter := f } d = t.text d := by
  simp only [Tail.text, Tail.sourceText, h.text]

theorem Tail.bindings_filter {t : Tail} {f : Filter Predicate} (h : f.Agrees t.filter) :
    Tail.bindings { t with filter := f } = t.bindings := by
  simp only [Tail.bindings, h.bindings]

/-- Two statements that cannot be told apart by what is read off them. -/
structure Statement.Agrees (s s' : Statement) : Prop where
  kind : s.kind = s'.kind
  model : s.model = s'.model
  dialect : s.dialect = s'.dialect
  sql : s.sql = s'.sql
  params : s.params = s'.params
  columns : s.columns = s'.columns

theorem Select.Agrees.statement {s s' : Select} (h : s.Agrees s') (kind : StatementKind)
    (model : String) (d : Dialect) :
    Statement.Agrees ⟨kind, model, d, .select s⟩ ⟨kind, model, d, .select s'⟩ := by
  obtain ⟨hfilter, hs⟩ := h
  rw [hs]
  refine ⟨rfl, rfl, rfl, ?_, ?_, rfl⟩
  · show Select.text _ d = Select.text _ d
    rw [Select.text, Select.text, Tail.text_filter hfilter]
  · show Params.ofBindings (Select.bindings _) = Params.ofBindings (Select.bindings _)
    rw [Select.bindings, Select.bindings, Tail.bindings_filter hfilter]

/-! ## Building with a dropped condition -/

open Build

variable {catalog : Catalog} {names : Names Scope} {model : String} {c : Condition}
  {joins : List Join}

/-- The paths of a condition on a model name fields that the caller may name. -/
def Catalog.ResolvesAll (catalog : Catalog) (model : String) (c : Condition) : Prop :=
  ∀ a, catalog.access model = .ok a → ∀ path ∈ c.joinPaths, catalog.Resolves true a (Path.all path)

/-- Explicit joins lead over all relationships that the paths of a condition on a model lead over. -/
def Catalog.CoversAll (catalog : Catalog) (model : String) (joins : List Join) (c : Condition) :
    Prop :=
  ∀ a, catalog.access model = .ok a → ∀ path ∈ c.joinPaths, catalog.Covers joins a path

/-- A condition whose paths are covered joins no table. -/
theorem JoinTree.ofDemand_dropped {d : Demand} (hresolves : catalog.ResolvesAll model c)
    (hcovers : catalog.CoversAll model d.joins c) :
    JoinTree.ofDemand catalog model { d with condition := some c } =
      JoinTree.ofDemand catalog model { d with condition := none } := by
  rw [JoinTree.ofDemand, JoinTree.ofDemand]
  funext p
  refine run_bind_congr fun access p₁ haccess => ?_
  obtain ⟨hmodel, rfl⟩ := run_ofExcept_eq_ok.1 haccess
  refine run_bind_congr fun first p₂ hsingle => ?_
  obtain ⟨rfl, hnumber⟩ := JoinTree.single_eq_ok hsingle
  refine run_bind_congr fun tree p₃ hjoins => ?_
  have hnamed : Demand.namedPaths { d with condition := some c } =
      c.joinPaths ++ Demand.namedPaths { d with condition := none } := by
    simp [Demand.namedPaths, List.append_assoc]
  rw [hnamed, JoinTree.addPaths_of_covers ⟨rfl, rfl, rfl, rfl, rfl⟩ hnumber hjoins
    (hresolves access hmodel) (hcovers access hmodel)]

/-- What is asked of the rows of the first table is all that a condition without text changes. -/
theorem JoinTree.tail_dropped {tree : JoinTree} {keys : List Expression} {order : List OrderTerm}
    {page : Option Page} (hc : c.saysNothing = true) :
    Matches .exact (fun t t' => t.filter.Agrees t'.filter ∧ t = { t' with filter := t.filter })
      (tree.tail catalog names false (some c) keys order page)
      (tree.tail catalog names false none keys order page) := by
  obtain ⟨asked, hasked, hsilent⟩ : ∃ asked,
      c.resolve catalog.dialect names tree.callerScope (rootMark ++ "1") = pure asked ∧
        asked.IsSilent := Condition.resolve_of_saysNothing c hc
  rw [JoinTree.tail, JoinTree.tail]
  refine (Matches.refl_exact _).bind ?_
  rintro clauses _ _ _ - rfl
  have hfilter : Matches .exact (fun f f' : Filter Predicate => f.Agrees f')
      (tree.filter catalog names tree.root rootMark (some c))
      (tree.filter catalog names tree.root rootMark none) := by
    rw [JoinTree.filter, JoinTree.filter]
    refine (Matches.refl_exact _).bind ?_
    rintro held _ _ _ - rfl
    show Matches .exact _ (c.resolve catalog.dialect names tree.callerScope (rootMark ++ "1") >>= _) _
    rw [hasked, pure_bind]
    exact .pure (Filter.agrees_of_silent hsilent Predicate.isSilent_absent)
  refine hfilter.bind fun filter filter' _ _ _ hagrees => ?_
  refine (Matches.refl_exact _).bind ?_
  rintro keys _ _ _ - rfl
  exact .pure ⟨hagrees, rfl⟩

theorem countRows_dropped {ignoreDeleted : Bool} (hc : c.saysNothing = true)
    (hresolves : catalog.ResolvesAll model c) (hcovers : catalog.CoversAll model joins c) :
    Matches .exact Select.Agrees (countRows catalog names model (some c) joins ignoreDeleted)
      (countRows catalog names model none joins ignoreDeleted) := by
  rw [countRows, countRows,
    JoinTree.ofDemand_dropped (d := { condition := none, joins, ignoreDeleted }) hresolves hcovers]
  refine (Matches.refl_exact _).bind ?_
  rintro tree _ _ _ - rfl
  refine (JoinTree.tail_dropped hc).bind ?_
  rintro tail tail' _ _ - ⟨hfilter, htail⟩
  exact .pure ⟨hfilter, congrArg (fun t => Select.mk none (.columns countColumns) [] t) htail⟩

theorem Query.compile_dropped {q : Query} (hc : c.saysNothing = true)
    (hresolves : catalog.ResolvesAll model c) (hcovers : catalog.CoversAll model q.joins c) :
    Matches .exact Select.Agrees
      (Query.compile catalog names model { q with condition := some c } none)
      (Query.compile catalog names model { q with condition := none } none) := by
  rw [Query.compile, Query.compile]
  have htree : JoinTree.ofDemand catalog model (Query.demand { q with condition := some c }) =
      JoinTree.ofDemand catalog model (Query.demand { q with condition := none }) :=
    JoinTree.ofDemand_dropped (d := q.demand) hresolves hcovers
  rw [htree]
  refine (Matches.refl_exact _).bind ?_
  rintro tree _ _ _ - rfl
  refine (Matches.refl_exact _).bind ?_
  rintro columns _ _ _ - rfl
  refine (JoinTree.tail_dropped hc).bind ?_
  rintro tail tail' _ _ - ⟨hfilter, htail⟩
  exact .pure ⟨hfilter, congrArg (fun t => Select.mk none (.columns columns.1) columns.2 t) htail⟩

/-! ## Requests -/

namespace Request

theorem compile_dropped {r r' : Request} {x x' : Names Scope → Build Select}
    (hnamed : catalog.Named) (hr : ∀ names, r.build catalog names = .select <$> x names)
    (hr' : ∀ names, r'.build catalog names = .select <$> x' names) (hkind : r.kind = r'.kind)
    (hmodel : r.model = r'.model) (h : ∀ names, Matches .exact Select.Agrees (x names) (x' names)) :
    ExceptRel Statement.Agrees (r.compile catalog).1 (r'.compile catalog).1 := by
  refine compile_rel (R := ExceptRel Statement.Agrees) hnamed hnamed fun depth => ?_
  rcases compileWithin_cases r r' (hr _) (hr' _) (h (.ofTree catalog depth)) with
    ⟨stop, hr, hr'⟩ | ⟨s, s', hr, hr', hagrees⟩
  · rw [hr, hr']
    exact .error stop
  · rw [hr, hr', ← hkind, ← hmodel]
    exact .ok (hagrees.statement _ _ _)

/-- A condition without templates of the caller's that is resolved to no text is dropped from counts
and lists of rows without a trace, as long as its paths resolve and lead over no relationship that
explicit joins do not lead over too. -/
theorem dropped_agrees {models : List Model} {permissions : Permissions} {settings : Settings}
    {σ : Type} {d : Dialect} {names : Names σ} {s : σ} {base : String} {p : Predicate}
    {q q' : Progress} (model : String) (c : Condition) (joins : List Join) (ignoreDeleted : Bool)
    (hplain : c.hasTemplate = false) (hrun : (c.resolve d names s base).run q = .ok p q')
    (htext : p.text = "")
    (hresolves : (Catalog.ofList models permissions settings).ResolvesAll model c)
    (hcovers : (Catalog.ofList models permissions settings).CoversAll model joins c) :
    let compile := fun r : Request => (r.compile (.ofList models permissions settings)).1
    ExceptRel Statement.Agrees (compile (count model (some c) joins ignoreDeleted))
        (compile (count model none joins ignoreDeleted)) ∧
      ∀ q : Query, q.joins = joins → ExceptRel Statement.Agrees
        (compile (query model { q with condition := some c }))
        (compile (query model { q with condition := none })) := by
  intro compile
  have hnamed := Catalog.named_ofList models permissions settings
  have hc := Condition.saysNothing_of_text hplain hrun htext
  constructor
  · exact compile_dropped hnamed (fun _ => rfl) (fun _ => rfl) rfl rfl fun _ =>
      countRows_dropped hc hresolves hcovers
  · rintro q rfl
    exact compile_dropped hnamed (fun _ => rfl) (fun _ => rfl) rfl rfl fun _ =>
      Query.compile_dropped hc hresolves hcovers

end Request

/-- Departments and their employees, of whom a caller may name the names. -/
def crews : List Model × Permissions where
  fst := [
    { name := "Department", table := "department"
      fields := [⟨"id", .basic ⟨"id", "id", true⟩⟩, ⟨"name", .basic ⟨"name", "name", true⟩⟩,
        ⟨"employees", .relation ⟨.many, "Employee", ["departmentId"]⟩⟩] },
    { name := "Employee", table := "employee"
      fields := [⟨"id", .basic ⟨"id", "id", true⟩⟩, ⟨"name", .basic ⟨"name", "name", true⟩⟩,
        ⟨"departmentId", .basic ⟨"departmentId", "department_id", true⟩⟩] }]
  snd := [("Employee", { fields := some ["name"] })]

/-- No name of an employee and no name of a department is given, so nothing is excluded. -/
def unnamed : Condition :=
  .negate (.group .or [.compare "employees.name" .eq .null true, .compare "name" .isIn (.list []) true])

theorem crews_resolves : (Catalog.ofList crews.1 crews.2 {}).ResolvesAll "Department" unnamed := by
  intro a ha path hpath
  obtain rfl := Except.ok.inj ha
  have hpath : path ∈ ["employees.name", "name"] := hpath
  rcases List.mem_pair.1 hpath with rfl | rfl
  · exact .through (by decide) rfl (.field (by decide) rfl rfl)
  · exact .field (by decide) rfl rfl

theorem crews_covers : (Catalog.ofList crews.1 crews.2 {}).CoversAll "Department"
    [{ path := "employees", type := .inner }] unnamed := by
  intro a ha path hpath hops b hne hway hwalk
  obtain rfl := Except.ok.inj ha
  have hpath : path ∈ ["employees.name", "name"] := hpath
  have hinits := (List.mem_inits _ _).2 hway
  rcases List.mem_pair.1 hpath with rfl | rfl
  · have hhops : hops ∈ [[], ["employees"], ["employees", "name"]] := hinits
    simp only [List.mem_cons, List.not_mem_nil, or_false] at hhops
    rcases hhops with rfl | rfl | rfl
    · exact absurd rfl hne
    · exact ⟨_, List.mem_cons_self, .inl (by decide)⟩
    · exact absurd hwalk nofun
  · have hhops : hops ∈ [[], ["name"]] := hinits
    rcases List.mem_pair.1 hhops with rfl | rfl
    · exact absurd rfl hne
    · exact absurd hwalk nofun

theorem crews_dropped_agrees : ∃ number number' rows rows' : Statement,
    let compile := fun r : Request => (r.compile (.ofList crews.1 crews.2 {})).1
    let employed : Join := { path := "employees", type := .inner }
    compile (.count "Department" (some unnamed) [employed] false) = .ok number ∧
    compile (.count "Department" none [employed] false) = .ok number' ∧ number.Agrees number' ∧
    compile (.query "Department" { condition := some unnamed, joins := [employed] }) = .ok rows ∧
    compile (.query "Department" { joins := [employed] }) = .ok rows' ∧ rows.Agrees rows' := by
  obtain ⟨p, hp⟩ : ∃ p, (unnamed.resolve .mysql Names.verbatim () "c").run {} = .ok p {} := ⟨_, rfl⟩
  have htext : p.text = "" := by cases hp; decide
  obtain ⟨hcount, hquery⟩ := Request.dropped_agrees "Department" unnamed
    [{ path := "employees", type := .inner }] false rfl hp htext crews_resolves crews_covers
  obtain ⟨number', hnumber', hnumbers⟩ := hcount.exists_of_eq_ok rfl
  obtain ⟨rows', hrows', hrows⟩ :=
    (hquery { joins := [{ path := "employees", type := .inner }] } rfl).exists_of_eq_ok rfl
  exact ⟨_, number', _, rows', rfl, hnumber', hnumbers, rfl, hrows', hrows⟩

/-- Without the explicit join, the dropped condition joins the employees all the same. -/
example : ((Request.count "Department" (some unnamed) [] false).compile
    (.ofList crews.1 crews.2 {})).1.map Statement.sql = .ok
      ("SELECT COUNT(*) AS `count` FROM department AS t0 " ++
        "LEFT JOIN employee AS t1 ON t1.department_id = t0.id") := by
  rfl

end QueryCompiler
