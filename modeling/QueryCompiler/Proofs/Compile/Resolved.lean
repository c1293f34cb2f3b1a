import QueryCompiler.Proofs.Compile.Outcome
import QueryCompiler.Proofs.Compile.Parts
import QueryCompiler.Proofs.Hierarchy.Table
import QueryCompiler.Proofs.JoinTree.Scopes
import QueryCompiler.Proofs.Parameters.Layout

/-!
# The predicates of a command

A command holds predicates in its growing table, in its joins and in its filter. Each of them was
resolved from a condition under a path of its own, and one of them from the condition of the request
(`Request.resolved`). So what the resolution of conditions ensures, it ensures for whole commands.
-/

namespace QueryCompiler

open Build Params

/-! ## The parts of a command -/

/-- The predicates of a filter. -/
def Filter.parts (f : Filter Predicate) : List Predicate :=
  [f.enforced, f.requested]

/-- The predicates of joins. -/
def Predicate.joinsParts (joins : List (JoinClause Predicate)) : List Predicate :=
  joins.flatMap fun j => j.filter.parts

/-- The predicates of a growing table. -/
def Hierarchy.parts (h : Hierarchy) : List Predicate :=
  h.anchor.parts ++ h.step.toList

/-- The predicates of the clauses of a query. -/
def Tail.parts (t : Tail) : List Predicate :=
  Predicate.joinsParts t.source.joins ++ t.filter.parts

/-- The predicates of a command. -/
def Command.parts : Command → List Predicate
  | .select s => (s.hierarchy.map Hierarchy.parts).getD [] ++ s.tail.parts
  | .mark _ _ filter | .remove _ filter => filter.parts

variable {part : Predicate} {b : Binding}

theorem Filter.mem_bindings {f : Filter Predicate} (hpart : part ∈ f.parts)
    (hb : b ∈ part.bindings) : b ∈ f.bindings := by
  rw [Filter.parts, List.mem_pair] at hpart
  rcases hpart with rfl | rfl
  · exact List.mem_append_left _ hb
  · exact List.mem_append_right _ hb

theorem Predicate.mem_joinsBindings {joins : List (JoinClause Predicate)}
    (hpart : part ∈ joinsParts joins) (hb : b ∈ part.bindings) : b ∈ joinsBindings joins := by
  induction joins with
  | nil => exact absurd hpart List.not_mem_nil
  | cons j joins ih =>
    obtain ⟨type, model, number, link, ⟨enforced, requested⟩⟩ := j
    rw [joinsParts, List.flatMap_cons] at hpart
    rw [joinsBindings]
    rcases List.mem_append.1 hpart with hpart | hpart
    · exact List.mem_append_left _ (Filter.mem_bindings hpart hb)
    · exact List.mem_append_right _ (ih hpart)

theorem Hierarchy.mem_bindings {h : Hierarchy} (hpart : part ∈ h.parts) (hb : b ∈ part.bindings) :
    b ∈ h.bindings := by
  rw [Hierarchy.bindings]
  rcases List.mem_append.1 hpart with hpart | hpart
  · refine List.mem_append_left _ ?_
    rw [Filter.parts, List.mem_pair] at hpart
    rcases hpart with rfl | rfl
    · exact List.mem_append_right _ hb
    · exact List.mem_append_left _ hb
  · refine List.mem_append_right _ ?_
    rw [Option.mem_toList] at hpart
    rw [Option.mem_def.1 hpart]
    exact hb

/-- What a predicate of a command binds, the command binds. -/
theorem Command.mem_bindings {command : Command} (hpart : part ∈ command.parts)
    (hb : b ∈ part.bindings) : b ∈ command.bindings := by
  cases command with
  | mark model flag filter => exact List.mem_append_left _ (Filter.mem_bindings hpart hb)
  | remove model filter => exact Filter.mem_bindings hpart hb
  | select s =>
    rw [bindings, Select.bindings]
    rcases List.mem_append.1 hpart with hpart | hpart
    · refine List.mem_append_left _ (List.mem_append_left _ ?_)
      cases hgrown : s.hierarchy with
      | none =>
        rw [hgrown] at hpart
        exact absurd hpart List.not_mem_nil
      | some h =>
        rw [hgrown] at hpart
        exact Hierarchy.mem_bindings hpart hb
    · refine List.mem_append_right _ ?_
      rw [Tail.bindings]
      refine List.mem_append_left _ (List.mem_append_left _ ?_)
      rcases List.mem_append.1 hpart with hpart | hpart
      · exact List.mem_append_left _ (Predicate.mem_joinsBindings hpart hb)
      · exact List.mem_append_right _ (Filter.mem_bindings hpart hb)

/-! ## Where predicates come from -/

/-- The predicate is what the condition is resolved to, somewhere and under some path. -/
def Names.Resolves {σ : Type} (d : Dialect) (names : Names σ) (c : Option Condition)
    (r : Predicate) : Prop :=
  ∃ s base n p p', IsBase base n ∧ (Condition.resolve? d names c s base).run p = .ok r p'

/-- The predicate was resolved by the names of a single table or of a join tree. -/
def Predicate.ResolvedFrom (catalog : Catalog) (c : Option Condition) (r : Predicate) : Prop :=
  (∃ access qualifier, (Names.ofTable access qualifier).Resolves catalog.dialect c r) ∨
    ∃ depth, (Names.ofTree catalog depth).Resolves catalog.dialect c r

/-- Every one of the predicates was resolved from some condition. -/
def Predicate.AllResolved (catalog : Catalog) (parts : List Predicate) : Prop :=
  ∀ part ∈ parts, ∃ c, part.ResolvedFrom catalog c

/-- The predicates of the command were resolved from conditions, and one of them from `c`. -/
structure Command.ResolvedFrom (catalog : Catalog) (c : Option Condition) (command : Command) :
    Prop where
  all : Predicate.AllResolved catalog command.parts
  requested : ∃ part ∈ command.parts, part.ResolvedFrom catalog c

variable {catalog : Catalog} {depth : Nat} {model : String} {c : Option Condition}
  {r : Predicate} {p p' : Progress} {s : Select}

theorem Names.resolves_part {σ : Type} {d : Dialect} {names : Names σ} {scope : σ} {base : String}
    (hbase : isPart base = true)
    (h : (Condition.resolve? d names c scope base).run p = .ok r p') : names.Resolves d c r :=
  ⟨scope, base, 0, p, p', isBase_of_isPart hbase, h⟩

theorem Filter.resolved {f : Filter Predicate} {c c' : Option Condition}
    (henforced : f.enforced.ResolvedFrom catalog c)
    (hrequested : f.requested.ResolvedFrom catalog c') :
    Predicate.AllResolved catalog f.parts := by
  intro part hpart
  rw [Filter.parts, List.mem_pair] at hpart
  rcases hpart with rfl | rfl
  · exact ⟨c, henforced⟩
  · exact ⟨c', hrequested⟩

/-- A predicate that asks for nothing is resolved from a missing condition. -/
theorem Predicate.resolved_absent (catalog : Catalog) (scope : Scope) :
    Predicate.absent.ResolvedFrom catalog none :=
  .inr ⟨0, scope, "c0", 0, {}, {}, isBase_of_isPart (by decide), rfl⟩

namespace JoinTree

variable {tree : JoinTree}

theorem clauses_resolved {names : Names Scope} {clauses : List (JoinClause Predicate)}
    (h : (tree.clauses catalog names).run p = .ok clauses p') :
    ∀ part ∈ Predicate.joinsParts clauses, ∃ c, names.Resolves catalog.dialect c part := by
  have hruns := run_mapM h
  clear h
  generalize tree.inOrder = js at hruns
  induction hruns with
  | nil => exact nofun
  | @cons j clause js clauses hrun _ ih =>
    obtain ⟨q, q', hclause⟩ := hrun
    obtain ⟨_, -, -, -, -, henforced, hasked⟩ := clause_eq_ok hclause
    have hbase (asked : Bool) : IsBase (joinBase j.number asked) (j.number + 1) :=
      isBase_joinBase asked (Nat.lt_succ_self _)
    rw [Predicate.joinsParts, List.flatMap_cons]
    refine List.forall_mem_append.2 ⟨fun part hpart => ?_, ih⟩
    rw [Filter.parts, List.mem_pair] at hpart
    rcases hpart with rfl | rfl
    · exact ⟨_, _, _, _, _, _, hbase false, henforced⟩
    · exact ⟨_, _, _, _, _, _, hbase true, hasked⟩

theorem tail_resolved {hierarchy : Bool} {keys : List Expression} {order : List OrderTerm}
    {page : Option Page} {t : Tail}
    (h : (tree.tail catalog (Names.ofTree catalog depth) hierarchy c keys order page).run p =
      .ok t p') :
    Predicate.AllResolved catalog t.parts ∧ t.filter.requested.ResolvedFrom catalog c := by
  obtain ⟨q, q', hclauses, henforced, hasked, -⟩ := tail_eq_ok h
  have hrequested : t.filter.requested.ResolvedFrom catalog c :=
    .inr ⟨depth, Names.resolves_part (by decide) hasked⟩
  obtain ⟨c', henforced⟩ : ∃ c', t.filter.enforced.ResolvedFrom catalog c' := by
    rcases henforced with ⟨-, habsent, -⟩ | ⟨-, hheld⟩
    · rw [habsent]
      exact ⟨none, Predicate.resolved_absent catalog tree.callerScope⟩
    · exact ⟨_, .inr ⟨depth, Names.resolves_part (by decide) hheld⟩⟩
  refine ⟨List.forall_mem_append.2 ⟨fun part hpart => ?_, Filter.resolved henforced hrequested⟩,
    hrequested⟩
  obtain ⟨c', hresolved⟩ := clauses_resolved hclauses part hpart
  exact ⟨c', .inr ⟨depth, hresolved⟩⟩

end JoinTree

/-! ## Compiled commands -/

theorem Command.select_resolved {grown : Option Hierarchy} (hhierarchy : s.hierarchy = grown)
    (hgrown : ∀ table ∈ grown, Predicate.AllResolved catalog table.parts)
    (htail : Predicate.AllResolved catalog s.tail.parts ∧
      s.tail.filter.requested.ResolvedFrom catalog c) :
    (Command.select s).ResolvedFrom catalog c where
  all := by
    refine List.forall_mem_append.2 ⟨?_, htail.1⟩
    subst hhierarchy
    cases hsome : s.hierarchy with
    | none => exact nofun
    | some table => exact hgrown table hsome
  requested := by
    refine ⟨s.tail.filter.requested, List.mem_append_right _ (List.mem_append_right _ ?_), htail.2⟩
    exact List.mem_pair.2 (.inr rfl)

theorem HierarchyQuery.table_resolved {q : HierarchyQuery} {access : Access} {start : Predicate}
    {h : Hierarchy} {r r' : Progress} (hstart : (q.start? catalog access).run p = .ok start p')
    (hrun : (q.table catalog access start).run r = .ok h r') :
    Predicate.AllResolved catalog h.parts := by
  obtain ⟨keys, parents, held, _, step, -, -, -, hheld, hstep, rfl⟩ := table_eq_ok hrun
  have hstart : start.ResolvedFrom catalog q.start :=
    .inl ⟨access, .row, true, hierarchyMark ++ "1", 0, _, _, isBase_of_isPart (by decide), hstart⟩
  have hheld : held.ResolvedFrom catalog (access.enforced? q.query.ignoreDeleted) :=
    .inl ⟨access, .row, Names.resolves_part (by decide) hheld⟩
  refine List.forall_mem_append.2 ⟨Filter.resolved hheld hstart, fun part hpart => ?_⟩
  rw [Option.mem_toList] at hpart
  obtain rfl := Option.mem_def.1 hpart
  exact ⟨some notDeleted, .inl ⟨access, .row, Names.resolves_part (by decide) hstep.2⟩⟩

theorem Query.compile_resolved {q : Query} {grown : Option Hierarchy}
    (hgrown : ∀ table ∈ grown, Predicate.AllResolved catalog table.parts)
    (h : (q.compile catalog (Names.ofTree catalog depth) model grown).run p = .ok s p') :
    (Command.select s).ResolvedFrom catalog q.condition := by
  obtain ⟨_, _, _, _, -, -, -, -, -, hhierarchy, htail⟩ := Query.compile_eq_ok h
  exact Command.select_resolved hhierarchy hgrown (JoinTree.tail_resolved htail)

theorem countRows_resolved {joins : List Join} {ignoreDeleted : Bool}
    (h : (countRows catalog (Names.ofTree catalog depth) model c joins ignoreDeleted).run p =
      .ok s p') : (Command.select s).ResolvedFrom catalog c := by
  obtain ⟨_, _, _, -, -, -, -, -, hnone, htail⟩ := countRows_eq_ok h
  exact Command.select_resolved hnone nofun (JoinTree.tail_resolved htail)

theorem deleteWhere_resolved {condition : Condition} {physical : Bool} {command : Command}
    (h : (deleteWhere catalog model condition physical).run p = .ok command p') :
    command.ResolvedFrom catalog (some condition) := by
  obtain ⟨access, filter, _, -, hasked, hheld, hcommand⟩ := deleteWhere_eq_ok h
  have hrequested : filter.requested.ResolvedFrom catalog (some condition) :=
    .inl ⟨access, .bare, Names.resolves_part (by decide) hasked⟩
  have henforced : filter.enforced.ResolvedFrom catalog access.rows? :=
    .inl ⟨access, .bare, Names.resolves_part (by decide) hheld⟩
  have hparts := Filter.resolved henforced hrequested
  have hmem : filter.requested ∈ filter.parts := List.mem_pair.2 (.inr rfl)
  rcases hcommand with rfl | ⟨flag, -, rfl⟩
  · exact ⟨hparts, _, hmem, hrequested⟩
  · exact ⟨hparts, _, hmem, hrequested⟩

/-- What a request asks of its rows, as a search for nearest neighbours does by the query that it
is. -/
def Request.condition? (d : Dialect) : Request → Option Condition
  | .query _ q => q.condition
  | .count _ c _ _ | .existence _ c _ _ => c
  | .aggregate _ q => q.condition
  | .deleteWhere _ c _ => some c
  | .recursive _ q | .recursiveCount _ q => q.query.condition
  | .vectorSearch _ q => (q.toQuery d).toOption.bind Query.condition

/-- The predicates of a compiled command were resolved from conditions, and one of them from that of
the request. -/
theorem Request.resolved {r : Request} {statement : Statement} {events : List Event}
    (h : r.compile catalog = (.ok statement, events)) :
    statement.command.ResolvedFrom catalog (r.condition? catalog.dialect) := by
  obtain ⟨depth, q', hbuild, -⟩ := Request.build_of_compile h
  generalize statement.command = command at hbuild
  have hselect : ∀ {build : Build Select}, (Command.select <$> build).run {} = .ok command q' →
      (∀ {s p'}, build.run {} = .ok s p' →
        (Command.select s).ResolvedFrom catalog (r.condition? catalog.dialect)) →
      command.ResolvedFrom catalog (r.condition? catalog.dialect) := by
    intro build hbuild hresolved
    obtain ⟨s, hs, rfl⟩ := run_map_eq_ok.1 hbuild
    exact hresolved hs
  cases r with
  | query model q => exact hselect hbuild fun hs => Query.compile_resolved (by exact nofun) hs
  | count model condition joins ignoreDeleted =>
    exact hselect hbuild fun hs => countRows_resolved hs
  | existence model condition joins ignoreDeleted =>
    refine hselect hbuild fun hs => ?_
    obtain ⟨_, _, _, -, -, -, -, -, hnone, htail⟩ := checkExistence_eq_ok hs
    exact Command.select_resolved hnone nofun (JoinTree.tail_resolved htail)
  | aggregate model q =>
    refine hselect hbuild fun hs => ?_
    obtain ⟨_, _, _, _, -, -, -, -, -, -, hnone, htail⟩ := AggregateQuery.compile_eq_ok hs
    exact Command.select_resolved hnone nofun (JoinTree.tail_resolved htail)
  | deleteWhere model condition physical => exact deleteWhere_resolved hbuild
  | recursive model q =>
    refine hselect hbuild fun hs => ?_
    obtain ⟨access, start, _, -, hstart, hs⟩ := HierarchyQuery.rows_eq_ok hs
    rcases hs with ⟨-, hs⟩ | ⟨-, table, _, htable, hs⟩
    · exact Query.compile_resolved (by exact nofun) hs
    · refine Query.compile_resolved (fun table' htable' => ?_) hs
      obtain rfl := Option.some.inj htable'
      exact HierarchyQuery.table_resolved hstart htable
  | recursiveCount model q =>
    refine hselect hbuild fun hs => ?_
    obtain ⟨access, start, _, -, hstart, hs⟩ := HierarchyQuery.count_eq_ok hs
    rcases hs with ⟨-, hs⟩ | ⟨-, table, _, _, _, htable, -, -, -, hsome, htail⟩
    · exact countRows_resolved hs
    · refine Command.select_resolved hsome (fun table' htable' => ?_) (JoinTree.tail_resolved htail)
      obtain rfl := Option.some.inj htable'
      exact HierarchyQuery.table_resolved hstart htable
  | vectorSearch model q =>
    refine hselect hbuild fun hs => ?_
    obtain ⟨query, _, hrun, hs⟩ := run_bind_eq_ok.1 hs
    obtain ⟨hquery, rfl⟩ := run_ofExcept_eq_ok.1 hrun
    have hcondition : (vectorSearch model q).condition? catalog.dialect = query.condition := by
      rw [condition?, hquery]
      rfl
    rw [hcondition]
    exact Query.compile_resolved (by exact nofun) hs

end QueryCompiler
