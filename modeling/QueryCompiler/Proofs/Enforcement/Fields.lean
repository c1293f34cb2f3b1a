import QueryCompiler.Proofs.Compile.Endings

/-!
# Rules and permitted fields

What a rule names need not be permitted: its columns and its relationships are looked up as if every
field were. Only the explicit joins of its conditions over related rows are not. So callers who are
held to the same rules get the same counts, whatever fields are permitted to them, unless a rule has
such a join and one of the callers is refused over it (`Request.count_permitted`). That does happen:
the caller is kept from counting by the rule that says which rows count.

Each of the callers is compared with one who is held to the same rules and to whom every field is
permitted (`Names.agree_lenient`).
-/

namespace QueryCompiler

open Build

/-- A condition over related rows that stands in the condition, at whatever depth, has explicit
joins. -/
inductive Condition.HasJoins : Condition → Prop where
  | joins {path : String} {inner : Option Condition} {joins : List Join} {negated : Bool} :
      path ≠ "" → joins ≠ [] → HasJoins (.related path inner joins negated)
  | inside {path : String} {c : Condition} {joins : List Join} {negated : Bool} :
      path ≠ "" → c.HasJoins → HasJoins (.related path (some c) joins negated)
  | member {k : Connective} {cs : List Condition} {c : Condition} :
      c ∈ cs → c.HasJoins → HasJoins (.group k cs)
  | inner {c : Condition} : c.HasJoins → HasJoins (.negate c)

theorem Condition.PartOf.hasJoins {whole c : Condition} (h : whole.PartOf c) (hc : c.HasJoins) :
    whole.HasJoins := by
  induction h with
  | whole => exact hc
  | member _ hmem ih => exact ih (.member hmem hc)
  | inner _ ih => exact ih (.inner hc)

theorem Access.enforced_hasJoins {a : Access} {ignoreDeleted : Bool} {c : Condition}
    (h : a.enforced? ignoreDeleted = some c) (hc : c.HasJoins) :
    ∃ rule, a.rows? = some rule ∧ rule.HasJoins := by
  obtain rfl | hrule | ⟨rule, hrule, rfl⟩ := Access.enforced?_eq_some h
  · exact absurd hc nofun
  · exact ⟨c, hrule, hc⟩
  · obtain _ | _ | ⟨hmem, hc⟩ := hc
    rcases List.mem_pair.1 hmem with rfl | rfl
    · exact absurd hc nofun
    · exact ⟨_, hrule, hc⟩

namespace Permissions

/-- The rule that rows of a model have to meet. -/
def rule? (permissions : Permissions) (model : String) : Option Condition :=
  (Keyed.get? model permissions).bind (·.rows)

/-- Some rule has explicit joins. -/
def HasJoins (permissions : Permissions) : Prop :=
  ∃ model rule, permissions.rule? model = some rule ∧ rule.HasJoins

/-- The same rules, and every field is permitted. -/
def everyField (permissions : Permissions) : Permissions :=
  permissions.map fun e => (e.1, { e.2 with fields := none })

theorem get?_everyField (permissions : Permissions) (model : String) :
    Keyed.get? model permissions.everyField =
      (Keyed.get? model permissions).map fun p => { p with fields := none } := by
  induction permissions with
  | nil => rfl
  | cons e permissions ih =>
    rw [everyField, List.map_cons, Keyed.get?, Keyed.get?]
    split
    · rfl
    · exact ih

end Permissions

/-- The first may be refused a field, if that can happen at all. -/
def Comparison.lenient (possible : Prop) : Comparison where
  same := True
  deep := True
  cut stop := possible ∧ ∃ model name, stop = .rejected (.field model name .notPermitted)
  minded := possible

variable {possible : Prop} {catalog catalog' : Catalog}

/-- Models are seen under the same rules, but for fields that are not permitted. -/
theorem Catalog.like_everyField {permissions permissions' : Permissions}
    (hrules : ∀ model, permissions.rule? model = permissions'.rule? model) (models : List Model)
    (settings : Settings) :
    (ofList models permissions settings).Like (.lenient possible)
      (ofList models permissions'.everyField settings) := by
  refine ⟨rfl, fun name => ?_⟩
  simp only [access, ofList]
  cases (Registry.ofList models).model? name with
  | none => exact .error _
  | some m =>
    refine .ok ⟨rfl, ?_, fun hpossible field => ?_⟩
    · have hrule := hrules m.name
      simp only [Permissions.rule?] at hrule
      simp only [Access.rows?, Permissions.get?_everyField, hrule, Option.bind_map]
      rfl
    · have hopen : Access.permits ⟨m, Keyed.get? m.name permissions'.everyField⟩ field = true := by
        rw [Access.permits, Permissions.get?_everyField]
        cases Keyed.get? m.name permissions' <;> simp [Permission.allows]
      cases hpermits : Access.permits ⟨m, Keyed.get? m.name permissions⟩ field with
      | true => exact .inl hopen.symm
      | false => exact .inr ⟨fun model name => ⟨hpossible, model, name, rfl⟩, rfl⟩

/-! ## What is posed under the rules -/

/-- The rule on a model that the catalog knows has explicit joins only if a refusal is possible. -/
def Catalog.JoinsOnlyIf (catalog : Catalog) (possible : Prop) : Prop :=
  ∀ a rule, catalog.Knows a → a.rows? = some rule → rule.HasJoins → possible

theorem JoinTree.Made.known_joins {tree : JoinTree} {a : Access} {joins : List Join} {n n' : Nat}
    {asked : Option Condition} {checked minded : Bool} (hrules : catalog.JoinsOnlyIf possible)
    (ha : catalog.Knows a) (hmade : JoinTree.Made catalog checked a joins n tree n')
    (hjoins : joins ≠ [] → possible) (hasked : ∀ c ∈ asked, c.HasJoins → possible) :
    tree.Known (fun _ c => c.HasJoins → possible) asked minded := by
  intro t minded' c hposes hc
  cases hposes with
  | asked h => exact hasked c h hc
  | @joined j _ hj h =>
    obtain ⟨join, hjoin, -⟩ := hmade.settled.conditions j hj c h
    exact hjoins (List.ne_nil_of_mem hjoin)
  | enforced ht h =>
    obtain ⟨rule, hrule, hhas⟩ := Access.enforced_hasJoins h hc
    exact hrules t.access rule (hmade.knows ha ht) hrule hhas

/-- Names that stand in rules are looked up alike, whatever fields are permitted. -/
theorem Names.agree_lenient (hcat : catalog.Like (.lenient possible) catalog')
    (hrules : catalog.JoinsOnlyIf possible) (depth : Nat) :
    (Names.ofTree catalog depth).Agree (.lenient possible) (Scope.Like (.lenient possible))
      (fun _ c => c.HasJoins → possible) (Names.ofTree catalog' depth) := by
  induction depth with
  | zero =>
    exact ⟨fun hwhole hpart hc => hwhole (hpart.hasJoins hc), fun path hs => Scope.column_matches hs,
      fun _ _ _ _ _ _ => .deep trivial⟩
  | succ depth ih =>
    refine ⟨fun hwhole hpart hc => hwhole (hpart.hasJoins hc),
      fun path hs => Scope.column_matches hs, ?_⟩
    intro s s' path inner joins negated hs hknown hpath
    have hjoins : joins ≠ [] → possible := fun hne => hknown (.joins hpath hne)
    have hinner : ∀ c ∈ inner, c.HasJoins → possible := by
      rintro c rfl hc
      exact hknown (.inside hpath hc)
    refine (Scope.subquery_matches hcat ih (Scope.link_matches hs) hs.checked hs.minded hjoins
      fun tree htree => ?_).mono fun _ _ h => ⟨h.1, h.2.1, hinner⟩
    obtain ⟨l, a, p, p', -, htarget, hrun⟩ := htree
    exact (JoinTree.ofSubquery_made hrun).known_joins hrules (Catalog.knows_of_target htarget) hjoins
      nofun

/-! ## Counts -/

theorem countRows_lenient {names names' : Names Scope} {model : String} {ignoreDeleted : Bool}
    (hcat : catalog.Like (.lenient possible) catalog') (hrules : catalog.JoinsOnlyIf possible)
    (hn : names.Agree (.lenient possible) (Scope.Like (.lenient possible))
      (fun _ c => c.HasJoins → possible) names') :
    Matches (.lenient possible) Eq (countRows catalog names model none [] ignoreDeleted)
      (countRows catalog' names' model none [] ignoreDeleted) := by
  have hnone : ¬ Demand.NamesTables { ignoreDeleted } := by
    rintro (h | h | h) <;> exact h rfl
  refine (JoinTree.ofDemand_matches hcat (.refl _) fun h => absurd h hnone).bind
    fun tree tree' p p' hrun h => ?_
  obtain ⟨a, ha, hmade⟩ := JoinTree.ofDemand_made hrun
  have hknown : tree.Known (fun _ c => c.HasJoins → possible) none true :=
    hmade.known_joins hrules ⟨model, ha⟩ (absurd rfl) nofun
  refine (JoinTree.tail_matches trivial hcat hn h (fun h => h.elim (absurd rfl) (absurd rfl))
    hknown).bind ?_
  rintro tail _ _ _ _ ⟨hlimit, rfl⟩
  rw [← hlimit]
  exact .pure rfl

namespace Request

variable {model : String} {ignoreDeleted : Bool}

/-- The request was refused because of a field that is not permitted. -/
def Refused (result : Except Stop Statement) : Prop :=
  ∃ model field, result = .error (.rejected (.field model field .notPermitted))

/-- The result is the other one, or there is none because a field is not permitted. -/
def Yields (possible : Prop) (result other : Except Stop Statement) : Prop :=
  result = other ∨ possible ∧ Refused result

theorem count_yields (hnamed : catalog.Named) (hnamed' : catalog'.Named)
    (hcat : catalog.Like (.lenient possible) catalog') (hrules : catalog.JoinsOnlyIf possible) :
    Yields possible ((count model none [] ignoreDeleted).compile catalog).1
      ((count model none [] ignoreDeleted).compile catalog').1 := by
  refine compile_rel hnamed hnamed' fun depth => ?_
  have hrows := @countRows_lenient _ _ _ _ _ model ignoreDeleted hcat hrules
    (Names.agree_lenient hcat hrules depth)
  have hends := (hrows.map (f := Command.select) (g := Command.select) (S := Eq)
    fun _ _ => congrArg _) (.refl {})
  rw [compileWithin, compileWithin, build, build, ← hcat.dialect]
  generalize (Command.select <$> countRows catalog _ model none [] ignoreDeleted).run {} = u at hends
  generalize (Command.select <$> countRows catalog' _ model none [] ignoreDeleted).run {} = v at hends
  cases hends with
  | ok hcommand _ => exact .inl (by rw [hcommand])
  | rejected _ => exact .inl rfl
  | deep _ => exact .inl rfl
  | cut hcut =>
    obtain ⟨hpossible, model, name, rfl⟩ := hcut
    exact .inr ⟨hpossible, model, name, rfl⟩

/-- Callers who are held to the same rules get the same count of a model, whatever fields are
permitted to them. The exceptions are rules with explicit joins, over which a caller may be refused. -/
theorem count_permitted (models : List Model) {permissions permissions' : Permissions}
    (settings : Settings) (hrules : ∀ model, permissions.rule? model = permissions'.rule? model)
    (model : String) (ignoreDeleted : Bool) :
    let result := fun permissions =>
      ((count model none [] ignoreDeleted).compile (.ofList models permissions settings)).1
    result permissions = result permissions' ∨
      permissions.HasJoins ∧ (Refused (result permissions) ∨ Refused (result permissions')) := by
  intro result
  -- both are compared with the caller to whom every field is permitted
  have hcompare : ∀ ps : Permissions, (∀ model, permissions.rule? model = ps.rule? model) →
      Yields permissions.HasJoins (result ps) (result permissions.everyField) := by
    intro ps hps
    refine count_yields (Catalog.named_ofList _ _ _) (Catalog.named_ofList _ _ _)
      (Catalog.like_everyField (fun model => (hps model).symm) models settings) ?_
    rintro a rule ⟨name, ha⟩ hrule hjoins
    rw [Catalog.access] at ha
    split at ha
    · obtain rfl := Except.ok.inj ha
      exact ⟨_, rule, (hps _).trans hrule, hjoins⟩
    · cases ha
  rcases hcompare permissions fun _ => rfl with hsame | ⟨hjoins, hrefused⟩
  · rcases hcompare permissions' hrules with hsame' | ⟨hjoins, hrefused⟩
    · exact .inl (hsame.trans hsame'.symm)
    · exact .inr ⟨hjoins, .inr hrefused⟩
  · exact .inr ⟨hjoins, .inl hrefused⟩

end Request

/-- Employees are seen with a department whose company is joined. -/
def officeRules : Permissions :=
  [("Employee", { rows := some (.related "department" none [{ path := "company" }] false) })]

/-- The same, and of departments only the key is permitted. -/
def narrowOfficeRules : Permissions :=
  ("Department", { fields := some ["id"] }) :: officeRules

/-- The rule that says which employees count keeps the caller from counting them. -/
theorem officeRules_count_permitted : officeRules.HasJoins ∧
    (∃ statement, ((Request.count "Employee" none [] false).compile
      (.ofList seenOffices.1 officeRules {})).1 = .ok statement) ∧
    ((Request.count "Employee" none [] false).compile
      (.ofList seenOffices.1 narrowOfficeRules {})).1 =
        .error (.rejected (.field "Department" "company" .notPermitted)) := by
  have hrules : ∀ model, officeRules.rule? model = narrowOfficeRules.rule? model := by
    intro model
    by_cases hmodel : model = "Department"
    · subst hmodel
      rfl
    · rw [narrowOfficeRules, Permissions.rule?, Permissions.rule?, Keyed.get?, if_neg hmodel]
  obtain ⟨statement, hcounted⟩ : ∃ statement, ((Request.count "Employee" none [] false).compile
      (.ofList seenOffices.1 officeRules {})).1 = .ok statement := ⟨_, rfl⟩
  have hrefused : ((Request.count "Employee" none [] false).compile
      (.ofList seenOffices.1 narrowOfficeRules {})).1 =
        .error (.rejected (.field "Department" "company" .notPermitted)) := rfl
  refine ⟨?_, ⟨statement, hcounted⟩, hrefused⟩
  rcases Request.count_permitted seenOffices.1 {} hrules "Employee" false with hsame | ⟨hjoins, -⟩
  · cases hcounted.symm.trans (hsame.trans hrefused)
  · exact hjoins

end QueryCompiler
