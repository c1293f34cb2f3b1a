import QueryCompiler.Proofs.Compile.Depth

/-!
# Rules that come to an end

The rule on a model may open subqueries that read rows of other models, which are held to rules in
turn. If that cannot go on forever, no opening runs out of the depth that is allowed for: by
induction over the models, the subqueries in the rules on what an opening reads come to an end, and
by induction over its joins, so do those in their conditions (`Opening.ends_of_rules`). Every request
is then compiled to a statement, or rejected (`Request.compile_ends`). A rule that leads back to its
own model has no end at any depth (`nestedRules_endless`).
-/

namespace QueryCompiler

open Build

/-- The making of the tree of the subquery. -/
def Opening.tree (catalog : Catalog) (o : Opening) : Build JoinTree := do
  let access ← Build.ofExcept (o.target catalog)
  JoinTree.ofSubquery catalog access o.joins ((o.inner.map Condition.joinPaths).getD []) o.checked

/-- The subquery has a table of the model. -/
def Opening.Reads (catalog : Catalog) (o : Opening) (model : String) : Prop :=
  ∃ p tree p', (o.tree catalog).run p = .ok tree p' ∧ ∃ t ∈ tree.tables, t.access.model.name = model

/-- The rule on the second model opens a subquery that has a table of the first. -/
def Catalog.RuleReads (catalog : Catalog) (read model : String) : Prop :=
  ∃ a, catalog.access model = .ok a ∧
    ∃ o ∈ Condition.openingsOpt catalog a.rows? a false, o.Reads catalog read

variable {catalog : Catalog} {K E : List Opening} {depth : Nat}

/-- Where openings do not run out of depth, no run over them does. -/
theorem Names.agree_of_ended (h : ∀ o ∈ E, ¬ o.Deep catalog (depth + 1)) :
    (Names.ofTree catalog (depth + 1)).Agree .ended (Scope.Like .ended) (Scope.Posed catalog E)
      (Names.ofTree catalog (depth + 1)) :=
  Names.agree_posed (m := .exact) ⟨id, .rfl, id⟩ ⟨id, .rfl, id⟩ trivial (fun _ => False.elim)
    (Names.agree_ofTree trivial trivial depth) fun o ho hdeep =>
    absurd hdeep (h o ho)

namespace Opening

/-- The openings among the given ones that do not run out of depth. -/
noncomputable def ended (catalog : Catalog) (K : List Opening) (depth : Nat) : List Opening :=
  open Classical in K.filter fun o => ¬ o.Deep catalog depth

theorem mem_ended {o : Opening} : o ∈ ended catalog K depth ↔ o ∈ K ∧ ¬ o.Deep catalog depth := by
  classical
  rw [ended, List.mem_filter, decide_eq_true_eq]

/-- What an opening leads to are the openings of its joins and of the rules on its tables. If they
do not run out of depth, then neither does the opening with one more step of it. -/
theorem ends_of_rules (hstays : Stays catalog K (depth + 1)) {o : Opening} (ho : o ∈ K)
    (hrules : ∀ model a, o.Reads catalog model → catalog.access model = .ok a →
      Condition.openingsOpt catalog a.rows? a false ⊆ ended catalog K (depth + 1))
    (hnamed : catalog.Named)
    (hjoins : ∀ b, o.target catalog = .ok b →
      Condition.openingsJoins catalog o.joins b ⊆ ended catalog K (depth + 1)) :
    o ∈ ended catalog K (depth + 1) := by
  refine mem_ended.2 ⟨ho, fun hdeep => ?_⟩
  obtain ⟨s, path, p, p', hat, hrun⟩ := hstays o ho hdeep
  have hknown : ∀ tree, s.Makes catalog path o.joins ((o.inner.map Condition.joinPaths).getD []) tree →
      tree.Known (Scope.Posed catalog (ended catalog K (depth + 1))) none s.checked := by
    rintro tree ⟨l, b, q, q', hl, hb, htree⟩
    obtain ⟨l', hl', hparent, hname, hrelation, hchecked⟩ := hat
    obtain rfl := Except.ok.inj (hl.symm.trans hl')
    have htarget : o.target catalog = .ok b := by
      rw [target, ← hparent, ← hname, ← hrelation]
      exact hb
    have hreads : (o.tree catalog).run q = .ok tree q' :=
      run_bind_eq_ok.2 ⟨b, q, run_ofExcept_eq_ok.2 ⟨htarget, rfl⟩, hchecked ▸ htree⟩
    have hmade := JoinTree.ofSubquery_made htree
    refine hmade.known (fun t ht => ?_) (hjoins b htarget) ?_
    · have hself := hnamed.access_self (hmade.knows (Catalog.knows_of_target hb) ht)
      exact hrules _ _ ⟨q, tree, q', hreads, t, ht, rfl⟩ hself
    · rw [Condition.openingsOpt]
      exact List.nil_subset _
  have hends := step_matches trivial (Names.agree_of_ended fun o' ho' => (mem_ended.1 ho').2)
    (.refl Link.Like.refl _) rfl hknown (.refl p)
  rw [hrun] at hends
  cases hends with
  | deep hdeep => exact hdeep
  | cut hcut => exact hcut

variable (hclosed : Closed catalog K) (hnamed : catalog.Named)
  (hrules : WellFounded catalog.RuleReads) (hstays : Stays catalog K (depth + 1))
include hclosed hnamed hrules hstays

/-- If rules come to an end, then so does every opening in one. -/
theorem rule_ended (model : String) {a : Access} (ha : catalog.access model = .ok a) :
    Condition.openingsOpt catalog a.rows? a false ⊆ ended catalog K (depth + 1) := by
  induction model using hrules.induction generalizing a with
  | _ model ih =>
    have hopenings : Condition.openingsOpt catalog a.rows? a false ⊆ K := fun o ho =>
      hclosed.rules (hnamed.rule_openings ⟨_, ha⟩ ho)
    have hinduct : Condition.Hereditary catalog fun o =>
        o ∈ Condition.openingsOpt catalog a.rows? a false → o ∈ ended catalog K (depth + 1) := by
      intro o hjoins ho
      refine ends_of_rules hstays (hopenings ho) (fun read b hreads hb => ?_) hnamed
        fun b hb o' ho' => ?_
      · exact ih read ⟨a, ha, o, ho, hreads⟩ hb
      · exact hjoins b hb o' ho' (Condition.joins_subset_openingsOpt _ ho hb ho')
    exact fun o ho => Condition.openingsOpt_induct hinduct _ o ho ho

/-- If rules come to an end, then so does every opening. -/
theorem all_ended (hinside : ∀ P, Condition.Hereditary catalog P → ∀ o ∈ K, P o) :
    ∀ o ∈ K, ¬ o.Deep catalog (depth + 1) := by
  have hinduct : Condition.Hereditary catalog fun o => o ∈ K → o ∈ ended catalog K (depth + 1) := by
    intro o hjoins ho
    refine ends_of_rules hstays ho (fun _ _ _ hb => ?_) hnamed fun b hb o' ho' => ?_
    · exact rule_ended hclosed hnamed hrules hstays _ hb
    · exact hjoins b hb o' ho' (hclosed.joins o ho b hb ho')
  exact fun o ho => (mem_ended.1 (hinside _ hinduct o ho ho)).2

end Opening

namespace Request

variable {r : Request}

/-- All that a request and the rules can open is inside one of their conditions. -/
theorem allOpenings_induct {P : Opening → Prop} (h : Condition.Hereditary catalog P) :
    ∀ o ∈ r.allOpenings catalog, P o := by
  intro o ho
  rcases List.mem_append.1 ho with ho | ho
  · rw [openings] at ho
    split at ho
    · obtain ⟨d, -, ho⟩ := List.mem_flatMap.1 ho
      rcases List.mem_append.1 ho with ho | ho
      · exact Condition.openingsOpt_induct h _ o ho
      · exact Condition.openingsJoins_induct h _ o ho
    · exact absurd ho List.not_mem_nil
  · obtain ⟨e, -, ho⟩ := List.mem_flatMap.1 ho
    split at ho
    · exact Condition.openingsOpt_induct h _ o ho
    · exact absurd ho List.not_mem_nil

/-- If rules come to an end, no request runs out of the depth that is allowed for. -/
theorem compile_ne_tooDeep (hnamed : catalog.Named) (hrules : WellFounded catalog.RuleReads)
    (r : Request) : (r.compile catalog).1 ≠ .error .tooDeep := by
  have hclosed := r.closed_allOpenings catalog
  have hstays : Opening.Stays catalog (r.allOpenings catalog) ((r.allOpenings catalog).length + 1) :=
    Opening.stays_of_lt hclosed hnamed (Nat.lt_succ_self _)
  have hended := Opening.all_ended hclosed hnamed hrules hstays fun _ => allOpenings_induct
  have hmatches := build_matches trivial trivial (Names.agree_of_ended hended) r
    fun _ hd => demand_known hnamed hd
  have hends := hmatches (.refl {})
  have hwithin : (r.compileWithin ((r.allOpenings catalog).length + 1) catalog).1 ≠
      .error .tooDeep := by
    rw [compileWithin]
    generalize (r.build catalog (.ofTree catalog ((r.allOpenings catalog).length + 1))).run {} = u
      at hends
    cases hends with
    | ok => simp
    | rejected => simp
    | deep hdeep => exact hdeep.elim
    | cut hcut => exact hcut.elim
  rw [← compileWithin_eq_compile hnamed hwithin]
  exact hwithin

/-- Every request is compiled to a statement or rejected, and subqueries nest no deeper than is allowed
for: with more depth, the outcome is the same. Otherwise rules lead back to models that they are about,
and no depth is enough. -/
theorem compile_ends (models : List Model) (permissions : Permissions) (settings : Settings)
    (r : Request) :
    (((∃ statement, (r.compile (.ofList models permissions settings)).1 = .ok statement) ∨
        ∃ e, (r.compile (.ofList models permissions settings)).1 = .error (.rejected e)) ∧
      ∀ depth, r.depthBound (.ofList models permissions settings) ≤ depth →
        r.compileWithin depth (.ofList models permissions settings) =
          r.compile (.ofList models permissions settings)) ∨
    (¬ WellFounded (Catalog.ofList models permissions settings).RuleReads ∧
      ∀ depth, (r.compileWithin depth (.ofList models permissions settings)).1 = .error .tooDeep) := by
  have hnamed := Catalog.named_ofList models permissions settings
  by_cases hdeep : (r.compile (.ofList models permissions settings)).1 = .error .tooDeep
  · refine .inr ⟨fun hrules => compile_ne_tooDeep hnamed hrules r hdeep, fun depth => ?_⟩
    by_contra hends
    exact hends (compileWithin_eq_compile hnamed hends ▸ hdeep)
  · refine .inl ⟨?_, fun depth hdepth => (compileWithin_le hdepth).resolve_left hdeep⟩
    match h : (r.compile (.ofList models permissions settings)).1 with
    | .ok statement => exact .inl ⟨statement, rfl⟩
    | .error (.rejected e) => exact .inr ⟨e, rfl⟩
    | .error .tooDeep => exact absurd h hdeep

end Request

/-- Employees are seen with a department, and departments with a company of a certain name. -/
def seenOffices : List Model × Permissions where
  fst := [
    { name := "Company", table := "company"
      fields := [⟨"id", .basic ⟨"id", "id", true⟩⟩, ⟨"name", .basic ⟨"name", "name", true⟩⟩] },
    { name := "Department", table := "department"
      fields := [⟨"id", .basic ⟨"id", "id", true⟩⟩,
        ⟨"companyId", .basic ⟨"companyId", "company_id", true⟩⟩,
        ⟨"company", .relation ⟨.one, "Company", ["companyId"]⟩⟩] },
    { name := "Employee", table := "employee"
      fields := [⟨"id", .basic ⟨"id", "id", true⟩⟩,
        ⟨"departmentId", .basic ⟨"departmentId", "department_id", true⟩⟩,
        ⟨"department", .relation ⟨.one, "Department", ["departmentId"]⟩⟩] }]
  snd := [
    ("Department",
      { rows := some (.related "company" (some (.compare "name" .eq (.text "x") false)) [] false) }),
    ("Employee", { rows := some (.related "department" none [] false) })]

theorem seenOffices_rules : WellFounded (Catalog.ofList seenOffices.1 seenOffices.2 {}).RuleReads := by
  let rank : String → Nat := fun model =>
    if model = "Employee" then 2 else if model = "Department" then 1 else 0
  refine Subrelation.wf ?_ (InvImage.wf rank Nat.lt_wfRel.wf)
  rintro read model ⟨a, ha, o, ho, ⟨n, events⟩, tree, p', hrun, t, ht, rfl⟩
  have hmodel : model = "Company" ∨ model = "Department" ∨ model = "Employee" := by
    rw [Catalog.access] at ha
    split at ha
    · rename_i m hm
      have hentry := Keyed.mem_of_get? hm
      change (model, m) ∈ [("Company", _), ("Department", _), ("Employee", _)] at hentry
      simp only [List.mem_cons, Prod.mk.injEq, List.not_mem_nil, or_false] at hentry
      exact hentry.imp And.left (Or.imp And.left And.left)
    · cases ha
  rcases hmodel with rfl | rfl | rfl <;> obtain rfl := Except.ok.inj ha
  · exact absurd (show o ∈ [] from ho) List.not_mem_nil
  · obtain rfl := List.mem_singleton.1 (show o ∈ [_] from ho)
    change EStateM.Result.ok _ _ = EStateM.Result.ok tree p' at hrun
    obtain ⟨rfl, -⟩ := EStateM.Result.ok.inj hrun
    obtain rfl := List.mem_singleton.1 (show t ∈ [_] from ht)
    exact Nat.lt_add_one 0
  · obtain rfl := List.mem_singleton.1 (show o ∈ [_] from ho)
    change EStateM.Result.ok _ _ = EStateM.Result.ok tree p' at hrun
    obtain ⟨rfl, -⟩ := EStateM.Result.ok.inj hrun
    obtain rfl := List.mem_singleton.1 (show t ∈ [_] from ht)
    exact Nat.lt_add_one 1

/-- The rule on employees leads to departments, the rule on departments to companies, and there it
ends, whatever is requested. -/
theorem seenOffices_end (r : Request) :
    (r.compile (.ofList seenOffices.1 seenOffices.2 {})).1 ≠ .error .tooDeep :=
  Request.compile_ne_tooDeep (Catalog.named_ofList seenOffices.1 seenOffices.2 {}) seenOffices_rules r

/-! ## Rules without end -/

/-- Categories are seen if they are below a category. -/
def nestedRules : List Model × Permissions where
  fst := [
    { name := "Category", table := "category"
      fields := [⟨"id", .basic ⟨"id", "id", true⟩⟩,
        ⟨"parentId", .basic ⟨"parentId", "parent_id", true⟩⟩,
        ⟨"parent", .relation ⟨.one, "Category", ["parentId"]⟩⟩] }]
  snd := [("Category", { rows := some (.related "parent" none [] false) })]

/-- The category above is held to the rule too, so the subqueries nest without end: no depth is
enough to list the categories. -/
theorem nestedRules_endless (depth : Nat) :
    ((Request.query "Category" {}).compileWithin depth (.ofList nestedRules.1 nestedRules.2 {})).1 =
      .error .tooDeep := by
  have hnamed := Catalog.named_ofList nestedRules.1 nestedRules.2 {}
  by_contra hends
  have hcompile := Request.compileWithin_eq_compile hnamed hends
  rw [hcompile] at hends
  exact hends rfl

end QueryCompiler
