import QueryCompiler.Proofs.Compile.Likeness
import QueryCompiler.Proofs.Compile.Outcome
import QueryCompiler.Proofs.Compile.Parts

/-!
# One set of rows

A list of rows, a count and a check for existence that are asked for with the same condition and the
same joins read the same tables and hold their rows to the same filter. What is selected and what is
paged draws no number and joins no table, so the three trees are alike, and the same text stands
behind what each of them selects.
-/

namespace QueryCompiler

open Build

variable {catalog : Catalog} {names : Names Scope} {model : String} {condition : Option Condition}
  {joins : List Join} {ignoreDeleted : Bool}

/-- Tables and a filter, and nothing behind them. -/
def Tail.IsBare (t : Tail) : Prop :=
  t.groupKeys = [] ∧ t.order = [] ∧ t.limit = none

theorem Tail.IsBare.select_text {t : Tail} (h : t.IsBare) (d : Dialect) (list : SelectList) :
    Select.text { list, tail := t } d = "SELECT " ++ list.text d ++ t.sourceText := by
  obtain ⟨hkeys, horder, hlimit⟩ := h
  simp [Select.text, Tail.text, hkeys, horder, hlimit, optionalClause]

theorem Tail.IsBare.select_text_limit {t : Tail} (h : t.IsBare) (d : Dialect) (list : SelectList)
    (l : Limit) : Select.text { list, tail := { t with limit := some l } } d =
      "SELECT " ++ list.text d ++ t.sourceText ++ l.text d := by
  obtain ⟨hkeys, horder, -⟩ := h
  simp [Select.text, Tail.text, Tail.sourceText, hkeys, horder, optionalClause, String.append_assoc]

theorem Tail.IsBare.bindings_limit {t : Tail} (h : t.IsBare) (l : Limit) :
    Tail.bindings { t with limit := some l } = t.bindings ++ l.bindings := by
  simp [Tail.bindings, h.2.2]

theorem JoinTree.tail_isBare {tree : JoinTree} {p p' : Progress} {t : Tail}
    (h : (tree.tail catalog names false condition [] [] none).run p = .ok t p') : t.IsBare := by
  obtain ⟨_, _, -, -, -, horder, hkeys, -, -, hlimit⟩ := JoinTree.tail_eq_ok h
  exact ⟨hkeys, (Except.ok.inj horder).symm, hlimit⟩

/-- One row is a page within every bound. -/
theorem Settings.limit?_one (s : Settings) : s.limit? (some ⟨1, 1⟩) = some ⟨1, 0⟩ := by
  have hsize : s.pageSize 1 = 1 := by
    rw [Settings.pageSize]
    split
    · split
      case isTrue h =>
        obtain ⟨hpos, hlt⟩ := Bool.and_eq_true_iff.1 h
        have hpos := UInt32.lt_iff_toNat_lt.1 (of_decide_eq_true hpos)
        have hlt := UInt32.lt_iff_toNat_lt.1 (of_decide_eq_true hlt)
        simp at hpos hlt
        omega
      · rfl
    · rfl
  simp [Settings.limit?, Page.isUnbounded, hsize, Page.offset]

/-! ## Counts -/

/-- A list of rows and a count have the same clauses. -/
theorem countRows_query_matches {depth : Nat} {nested : Option Bool} :
    Matches .exact (fun s s' => ∃ tail columns, tail.IsBare ∧
        s = { list := .columns countColumns, tail } ∧ s' = { list := .columns columns, tail })
      (countRows catalog (.ofTree catalog depth) model condition joins ignoreDeleted)
      (Query.compile catalog (.ofTree catalog depth) model { condition, joins, ignoreDeleted, nested }
        none) := by
  have hn : (Names.ofTree catalog depth).Agree .exact (Scope.Like .exact) (fun _ _ => True)
      (Names.ofTree catalog depth) := Names.agree_ofTree trivial trivial depth
  have hdemand : Demand.Like { condition, joins, ignoreDeleted }
      (Query.demand { condition, joins, ignoreDeleted, nested }) :=
    ⟨rfl, rfl, rfl, .inr ⟨rfl, rfl⟩, .inl rfl⟩
  rw [countRows, Query.compile]
  refine (JoinTree.ofDemand_matches (.refl catalog) hdemand fun _ => trivial).bind
    fun tree tree' _ _ _ htree => ?_
  have hcolumns : ∃ columns, Query.columns catalog (.ofTree catalog depth) tree'
      { condition, joins, ignoreDeleted, nested } = .ok (columns, []) := ⟨_, rfl⟩
  obtain ⟨columns, hcolumns⟩ := hcolumns
  rw [hcolumns]
  refine (JoinTree.tail_matches trivial (.refl catalog) hn htree (fun _ => trivial)
    fun _ _ _ _ => trivial).bind ?_
  rintro tail _ _ _ hrun ⟨hlimit, rfl⟩
  rw [← hlimit]
  exact .pure ⟨tail, columns, JoinTree.tail_isBare hrun, rfl, rfl⟩

/-- A count and a check for existence have the same clauses but for the page. -/
theorem countRows_checkExistence_matches {depth : Nat}
    (hjoins : ∀ join ∈ joins, join.type.keepsJoined = false) :
    Matches .exact (fun s s' => ∃ tail, tail.IsBare ∧
        s = { list := .columns countColumns, tail } ∧
        s' = { list := .one, tail := { tail with limit := some ⟨1, 0⟩ } })
      (countRows catalog (.ofTree catalog depth) model condition joins ignoreDeleted)
      (checkExistence catalog (.ofTree catalog depth) model condition joins ignoreDeleted) := by
  have hn : (Names.ofTree catalog depth).Agree .exact (Scope.Like .exact) (fun _ _ => True)
      (Names.ofTree catalog depth) := Names.agree_ofTree trivial trivial depth
  have hdemand : Demand.Like { condition, joins, ignoreDeleted }
      { condition, joins, ignoreDeleted, place := some .existenceCheck } :=
    ⟨rfl, rfl, rfl, .inl rfl, .inr hjoins⟩
  rw [countRows, checkExistence]
  refine (JoinTree.ofDemand_matches (.refl catalog) hdemand fun _ => trivial).bind
    fun tree tree' _ _ _ htree => ?_
  refine (JoinTree.tail_matches trivial (.refl catalog) hn htree (fun _ => trivial)
    fun _ _ _ _ => trivial).bind ?_
  rintro tail _ _ _ hrun ⟨-, rfl⟩
  rw [Settings.limit?_one]
  exact .pure ⟨tail, JoinTree.tail_isBare hrun, rfl, rfl⟩

/-! ## Requests -/

namespace Request

variable {depth : Nat} {R : Select → Select → Prop} {x x' : Build Select}

/-- Requests whose builds match fail with the same error, or are compiled to related queries. -/
theorem compileWithin_cases (r r' : Request)
    (hx : r.build catalog (.ofTree catalog depth) = .select <$> x)
    (hx' : r'.build catalog (.ofTree catalog depth) = .select <$> x')
    (h : Matches .exact R x x') :
    (∃ stop, (r.compileWithin depth catalog).1 = .error stop ∧
        (r'.compileWithin depth catalog).1 = .error stop) ∨
      ∃ s s', (r.compileWithin depth catalog).1 =
          .ok ⟨r.kind, r.model, catalog.dialect, .select s⟩ ∧
        (r'.compileWithin depth catalog).1 =
          .ok ⟨r'.kind, r'.model, catalog.dialect, .select s'⟩ ∧ R s s' := by
  have hmap : Matches .exact (fun c c' => ∃ s s', c = .select s ∧ c' = .select s' ∧ R s s')
      (Command.select <$> x) (Command.select <$> x') :=
    h.map fun s s' hs => ⟨s, s', rfl, rfl, hs⟩
  have hends := hmap (.refl (m := .exact) ({} : Progress))
  rw [compileWithin, compileWithin, hx, hx']
  generalize (Command.select <$> x).run {} = u at hends
  generalize (Command.select <$> x').run {} = v at hends
  cases hends with
  | ok hc hp =>
    obtain ⟨s, s', rfl, rfl, hs⟩ := hc
    exact .inr ⟨s, s', rfl, rfl, hs⟩
  | rejected _ => exact .inl ⟨_, rfl, rfl⟩
  | deep _ => exact .inl ⟨_, rfl, rfl⟩
  | cut hcut => exact hcut.elim

/-- A list of rows, a count and a check for existence with the same condition and the same joins,
none of which keeps unmatched rows of its table, all fail with the same error or are all compiled.
Then one text of tables, joins and filter stands behind what each of them selects, and they bind the
same values but for the size of the one page. -/
theorem rows_agree (catalog : Catalog) (model : String) (condition : Option Condition)
    (joins : List Join) (ignoreDeleted : Bool) (nested : Option Bool)
    (hjoins : ∀ join ∈ joins, join.type.keepsJoined = false) :
    let listing := ((query model { condition, joins, ignoreDeleted, nested }).compile catalog).1
    let counting := ((count model condition joins ignoreDeleted).compile catalog).1
    let checking := ((existence model condition joins ignoreDeleted).compile catalog).1
    (∃ stop, listing = .error stop ∧ counting = .error stop ∧ checking = .error stop) ∨
      ∃ (rows number check : Statement) (source : From) (filter : Filter Predicate),
        listing = .ok rows ∧ counting = .ok number ∧ checking = .ok check ∧
        let text := source.text ++ optionalClause " WHERE " filter.text
        rows.sql = "SELECT " ++ ResultColumn.selectText catalog.dialect rows.columns ++ text ∧
        number.sql = "SELECT COUNT(*) AS " ++ catalog.dialect.quoteName "count" ++ text ∧
        check.sql = "SELECT 1" ++ text ++ Limit.text ⟨1, 0⟩ catalog.dialect ∧
        rows.params = number.params ∧
        check.params = number.params.bind ⟨rowsParam, .uint 1⟩ := by
  intro listing counting checking
  let depth := (count model condition joins ignoreDeleted).depthBound catalog
  have hlist := @countRows_query_matches catalog model condition joins ignoreDeleted depth nested
  have hcheck := @countRows_checkExistence_matches catalog model condition joins ignoreDeleted depth
    hjoins
  have hlisting := compileWithin_cases (count model condition joins ignoreDeleted)
    (query model { condition, joins, ignoreDeleted, nested }) rfl rfl hlist
  have hchecking := compileWithin_cases (count model condition joins ignoreDeleted)
    (existence model condition joins ignoreDeleted) rfl rfl hcheck
  rcases hlisting with ⟨stop, hcount, hlist⟩ | ⟨_, _, hcount, hlist, tail, columns, hbare, rfl, rfl⟩
  · rcases hchecking with ⟨stop', hcount', hcheck⟩ | ⟨_, _, hcount', -⟩
    · obtain rfl := Except.error.inj (hcount.symm.trans hcount')
      exact .inl ⟨stop, hlist, hcount, hcheck⟩
    · exact absurd (hcount.symm.trans hcount') nofun
  · rcases hchecking with ⟨stop', hcount', -⟩ | ⟨_, _, hcount', hcheck, tail', -, rfl, rfl⟩
    · exact absurd (hcount.symm.trans hcount') nofun
    · cases Except.ok.inj (hcount.symm.trans hcount')
      refine .inr ⟨_, _, _, tail.source, tail.filter, hlist, hcount, hcheck, ?_, ?_, ?_, rfl, ?_⟩
      · exact hbare.select_text catalog.dialect (.columns columns)
      · have hcount := hbare.select_text catalog.dialect (.columns countColumns)
        have hword : "SELECT COUNT(*) AS " = "SELECT " ++ "COUNT(*) AS " := by decide
        rw [hword, @String.append_assoc "SELECT "]
        exact hcount
      · exact hbare.select_text_limit catalog.dialect .one ⟨1, 0⟩
      · have hbindings := hbare.bindings_limit ⟨1, 0⟩
        have hone : Limit.bindings ⟨1, 0⟩ = [⟨rowsParam, .uint 1⟩] := rfl
        rw [hone] at hbindings
        show Params.ofBindings (Tail.bindings _) = (Params.ofBindings (Tail.bindings _)).bind _
        rw [hbindings, Params.ofBindings, List.foldl_append]
        rfl

end Request

/-- Departments and their employees, who may be marked as deleted. -/
def rosters : Catalog where
  models := [
    ("Department",
      { name := "Department", table := "department"
        fields := [⟨"id", .basic ⟨"id", "id", true⟩⟩,
          ⟨"employees", .relation ⟨.many, "Employee", ["departmentId"]⟩⟩] }),
    ("Employee",
      { name := "Employee", table := "employee"
        fields := [⟨"id", .basic ⟨"id", "id", true⟩⟩, ⟨"name", .basic ⟨"name", "name", true⟩⟩,
          ⟨"departmentId", .basic ⟨"departmentId", "department_id", true⟩⟩,
          ⟨"delete_flag", .basic ⟨"delete_flag", "delete_flag", true⟩⟩] })]

/-- Departments with an employee of a name: the list, the count and the check read the same rows. -/
theorem rosters_rows_agree : ∃ (rows number check : Statement) (text : String),
    let named := Condition.compare "employees.name" .eq (.text "x") false
    let employed : Join := { path := "employees", type := .inner }
    ((Request.query "Department" { condition := some named, joins := [employed] }).compile
      rosters).1 = .ok rows ∧
    ((Request.count "Department" (some named) [employed] false).compile rosters).1 = .ok number ∧
    ((Request.existence "Department" (some named) [employed] false).compile rosters).1 = .ok check ∧
    rows.sql = "SELECT " ++ ResultColumn.selectText .mysql rows.columns ++ text ∧
    number.sql = "SELECT COUNT(*) AS " ++ Dialect.mysql.quoteName "count" ++ text ∧
    check.sql = "SELECT 1" ++ text ++ Limit.text ⟨1, 0⟩ .mysql ∧
    check.params = rows.params.bind ⟨rowsParam, .uint 1⟩ := by
  obtain ⟨number, hnumber⟩ : ∃ number, ((Request.count "Department"
      (some (.compare "employees.name" .eq (.text "x") false))
      [{ path := "employees", type := .inner }] false).compile rosters).1 = .ok number := ⟨_, rfl⟩
  rcases Request.rows_agree rosters "Department"
    (some (.compare "employees.name" .eq (.text "x") false))
    [{ path := "employees", type := .inner }] false none (by decide) with
    ⟨stop, -, hcount, -⟩ | ⟨rows, _, check, source, filter, hlist, hcount, hcheck, htexts⟩
  · exact absurd (hnumber.symm.trans hcount) nofun
  · obtain ⟨hrows, hnumber, hchecked, hparams, hcheckParams⟩ := htexts
    exact ⟨rows, _, check, _, hlist, hcount, hcheck, hrows, hnumber, hchecked,
      hparams ▸ hcheckParams⟩

end QueryCompiler
