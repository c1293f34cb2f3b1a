import QueryCompiler.Proofs.Boolean.Predicates
import QueryCompiler.Proofs.Hierarchy.Runs

/-!
# What the rows of a hierarchy are held to

A row comes into a growing table as one of the rows it starts from, or by a link to a row that it
has. The rows it starts from are held to all that reads of the model are held to; further rows are
held to the mark of deleted rows only, and the query around the table asks for no more than the
caller does. So the caller's rule on rows binds every returned row exactly if nothing grows, or if
what further rows are held to happens to imply the rule.
-/

namespace QueryCompiler

open Build

/-! ## The rows of a query over a growing table -/

section Rows

variable {Row Rest : Type}

/-- The table starts from the row. `v` tells which leaves of a predicate are true of a row. -/
def Hierarchy.Starts (h : Hierarchy) (v : Row → List Char → Bool) (r : Row) : Prop :=
  h.anchor.enforced.Holds (v r) ∧ h.anchor.requested.Holds (v r)

/-- The row may follow a row of the table that it is linked to. -/
def Hierarchy.Follows (h : Hierarchy) (v : Row → List Char → Bool) (r : Row) : Prop :=
  ∀ p ∈ h.step, p.Holds (v r)

/-- The rows of a growing table, where `stored` rows of the model's table are `linked` to others. -/
inductive Hierarchy.Grown (h : Hierarchy) (v : Row → List Char → Bool) (stored : Row → Prop)
    (linked : Row → Row → Prop) : Row → Prop where
  | start {r : Row} : stored r → h.Starts v r → h.Grown v stored linked r
  | follow {parent r : Row} : h.Grown v stored linked parent → stored r → linked parent r →
    h.Follows v r → h.Grown v stored linked r

/-- The query keeps the row with some of the rows of other tables that are `joined` to it. `w` tells
which leaves are true of them together. -/
def Select.Keeps (s : Select) (w : Row → Rest → List Char → Bool) (joined : Row → Rest → Prop)
    (r : Row) : Prop :=
  ∃ x, joined r x ∧ s.tail.filter.enforced.Holds (w r x) ∧ s.tail.filter.requested.Holds (w r x)

variable {h : Hierarchy} {v : Row → List Char → Bool} {keeps : Row → Prop} {rule : Predicate}

/-- If the rows that the table starts from meet a rule, then whatever is stored and linked, all kept
rows meet it exactly if there is no row to start from or the rule follows from the rest. -/
theorem Hierarchy.grown_holds_iff (hanchor : ∀ r, h.Starts v r → rule.Holds (v r)) :
    (∀ stored linked r, h.Grown v stored linked r → keeps r → rule.Holds (v r)) ↔
      (∀ r, ¬ h.Starts v r) ∨ ∀ r, h.Follows v r → keeps r → rule.Holds (v r) := by
  constructor
  · intro hall
    by_cases hstart : ∃ a, h.Starts v a
    · obtain ⟨a, ha⟩ := hstart
      right
      intro r hfollows hkeeps
      have hgrown : h.Grown v (fun _ => True) (fun _ _ => True) a := .start trivial ha
      exact hall _ _ r (.follow hgrown trivial trivial hfollows) hkeeps
    · left
      exact fun r hr => hstart ⟨r, hr⟩
  · intro hcond stored linked r hgrown hkeeps
    have hsome : ∃ a, h.Starts v a := by
      clear hkeeps
      induction hgrown with
      | start _ ha => exact ⟨_, ha⟩
      | follow _ _ _ _ ih => exact ih
    cases hgrown with
    | start _ hr => exact hanchor r hr
    | follow _ _ _ hfollows =>
      rcases hcond with hnone | himp
      · obtain ⟨a, ha⟩ := hsome
        exact absurd ha (hnone a)
      · exact himp r hfollows hkeeps

end Rows

/-! ## What the compiled table is held to -/

/-- A rule is resolved to a predicate on the rows of a table that stands alone. -/
def Condition.ResolvesOnRows (catalog : Catalog) (access : Access) (c : Condition)
    (p : Predicate) : Prop :=
  ∃ base q q', (c.resolve catalog.dialect (Names.ofTable access .row) false base).run q = .ok p q'

/-- The growing table of a request: where it starts, a row is held to the rule, and further on to
the mark of deleted rows if there is one to mind, and to nothing else. -/
structure Hierarchy.HeldBy (h : Hierarchy) (catalog : Catalog) (access : Access)
    (ignoreDeleted : Bool) (rule : Predicate) : Prop where
  anchor : h.anchor.enforced = rule ∨ ∃ mark, notDeleted.ResolvesOnRows catalog access mark ∧
    h.anchor.enforced = .group .and [mark, rule]
  step : if access.model.marksDeleted && !ignoreDeleted
    then ∃ mark, notDeleted.ResolvesOnRows catalog access mark ∧ h.step = some mark
    else h.step = none

theorem Hierarchy.HeldBy.holds_rule {h : Hierarchy} {catalog : Catalog} {access : Access}
    {ignoreDeleted : Bool} {rule : Predicate} (hh : h.HeldBy catalog access ignoreDeleted rule)
    {v : List Char → Bool} (hv : h.anchor.enforced.Holds v) : rule.Holds v := by
  rcases hh.anchor with heq | ⟨mark, -, heq⟩
  · exact heq ▸ hv
  · rw [heq, Predicate.holds_and] at hv
    exact hv rule (by simp)

/-- What every read of the model is held to, resolved on its rows, is the rule behind the mark. -/
theorem Access.resolve_enforced {catalog : Catalog} {access : Access} {rule : Condition}
    (hrule : access.rows? = some rule) {ignoreDeleted : Bool} {base : String} {held : Predicate}
    {p p' : Progress}
    (h : (Condition.resolve? catalog.dialect (Names.ofTable access .row)
      (access.enforced? ignoreDeleted) false base).run p = .ok held p') :
    ∃ ruled, rule.ResolvesOnRows catalog access ruled ∧
      (held = ruled ∨ ∃ mark, notDeleted.ResolvesOnRows catalog access mark ∧
        held = .group .and [mark, ruled]) := by
  rw [Access.enforced?, hrule] at h
  split at h
  · obtain ⟨parts, q, hparts, h⟩ := run_bind_eq_ok.1 h
    obtain ⟨rfl, -⟩ := run_pure_eq_ok.1 h
    obtain ⟨mark, q₁, hmark, hparts⟩ := run_bind_eq_ok.1 hparts
    obtain ⟨rest, q₂, hrest, hparts⟩ := run_bind_eq_ok.1 hparts
    obtain ⟨rfl, -⟩ := run_pure_eq_ok.1 hparts
    obtain ⟨ruled, q₃, hruled, hrest⟩ := run_bind_eq_ok.1 hrest
    obtain ⟨none, q₄, hnone, hrest⟩ := run_bind_eq_ok.1 hrest
    obtain ⟨rfl, -⟩ := run_pure_eq_ok.1 hrest
    obtain ⟨rfl, -⟩ := run_pure_eq_ok.1 hnone
    exact ⟨ruled, ⟨_, _, _, hruled⟩, .inr ⟨mark, ⟨_, _, _, hmark⟩, rfl⟩⟩
  · exact ⟨held, ⟨_, _, _, h⟩, .inl rfl⟩

namespace HierarchyQuery

variable {catalog : Catalog} {names : Names Scope} {model : String} {access : Access}
  {q : HierarchyQuery} {start : Predicate} {rule : Condition} {s : Select} {p p' : Progress}

theorem table_heldBy (hrule : access.rows? = some rule) {h : Hierarchy}
    (hrun : (q.table catalog access start).run p = .ok h p') :
    ∃ ruled, rule.ResolvesOnRows catalog access ruled ∧ h.anchor.requested = start ∧
      h.HeldBy catalog access q.query.ignoreDeleted ruled := by
  obtain ⟨keys, parents, held, _, step, -, -, -, hheld, hstep, rfl⟩ := table_eq_ok hrun
  obtain ⟨ruled, hruled, hanchor⟩ := Access.resolve_enforced hrule hheld
  refine ⟨ruled, hruled, rfl, hanchor, ?_⟩
  cases step with
  | some mark =>
    obtain ⟨hmarks, hmark⟩ := hstep
    rw [if_pos hmarks]
    exact ⟨mark, ⟨_, _, _, hmark⟩, rfl⟩
  | none => rw [if_neg (Bool.eq_false_iff.1 hstep.1)]

/-- The query around a growing table is held to nothing. -/
theorem tail_enforced {tree : JoinTree} {condition : Option Condition} {keys : List Expression}
    {order : List OrderTerm} {page : Option Page} {t : Tail}
    (h : (tree.tail catalog names true condition keys order page).run p = .ok t p') :
    t.filter.enforced = .absent := by
  obtain ⟨_, _, -, henforced, -⟩ := JoinTree.tail_eq_ok h
  rcases henforced with ⟨-, habsent, -⟩ | ⟨hfalse, -⟩
  · exact habsent
  · exact absurd hfalse nofun

/-- A query or a count over a hierarchy, which rows to start from are asked of. -/
theorem select_heldBy (hrule : access.rows? = some rule) (haccess : catalog.access model = .ok access)
    (hstart : (q.start? catalog access).run {} = .ok start p) (htext : start.text.isEmpty = false)
    (h : (q.rows catalog names model).run {} = .ok s p' ∨
      (q.count catalog names model).run {} = .ok s p') :
    ∃ table ruled, s.hierarchy = some table ∧ rule.ResolvesOnRows catalog access ruled ∧
      table.anchor.requested = start ∧
      table.HeldBy catalog access q.query.ignoreDeleted ruled ∧
      s.tail.filter.enforced = .absent := by
  obtain ⟨table, _, _, _, _, _, htable, -, -, htail, hsome, -⟩ := select_eq_ok haccess hstart htext h
  obtain ⟨ruled, hruled, hrequested, hheld⟩ := table_heldBy hrule htable
  exact ⟨table, ruled, hsome, hruled, hrequested, hheld, tail_enforced htail⟩

end HierarchyQuery

/-! ## Compiled hierarchies -/

/-- A compiled hierarchy that starts from rows asked for: where the table starts, rows are held to
the caller's rule, further rows to the mark of deleted rows only, and the query around the table
holds them to nothing. So whatever the tables store, every returned row meets the rule exactly if no
row can start the table, or if every row that may follow and is kept meets the rule by itself. -/
theorem Request.hierarchy_rows_meet_rule_iff {catalog : Catalog} {r : Request} {model : String}
    {q : HierarchyQuery} {access : Access} {rule : Condition} {start : Predicate} {p : Progress}
    {statement : Statement} {events : List Event}
    (hr : r = .recursive model q ∨ r = .recursiveCount model q)
    (haccess : catalog.access model = .ok access) (hrule : access.rows? = some rule)
    (hstart : (q.start? catalog access).run {} = .ok start p) (htext : start.text ≠ "")
    (h : r.compile catalog = (.ok statement, events)) :
    ∃ s table ruled, statement.command = .select s ∧ s.hierarchy = some table ∧
      rule.ResolvesOnRows catalog access ruled ∧ table.anchor.requested = start ∧
      table.HeldBy catalog access q.query.ignoreDeleted ruled ∧
      s.tail.filter.enforced = .absent ∧
      ∀ (Row Rest : Type) (v : Row → List Char → Bool) (w : Row → Rest → List Char → Bool)
        (joined : Row → Rest → Prop),
        (∀ stored linked r, table.Grown v stored linked r → s.Keeps w joined r →
          ruled.Holds (v r)) ↔
        (∀ r, ¬ table.Starts v r) ∨ ∀ r, table.Follows v r → s.Keeps w joined r →
          ruled.Holds (v r) := by
  obtain ⟨s, _, _, hcommand, -, hs⟩ := Request.select_of_compile hr h
  have hempty : start.text.isEmpty = false := by simpa using htext
  obtain ⟨table, ruled, htable, hruled, hrequested, hheld, houter⟩ :=
    HierarchyQuery.select_heldBy hrule haccess hstart hempty hs
  refine ⟨s, table, ruled, hcommand, htable, hruled, hrequested, hheld, houter, ?_⟩
  intro Row Rest v w joined
  exact Hierarchy.grown_holds_iff fun r hr => hheld.holds_rule hr.1

/-- Departments below other departments; the caller sees those of one company. -/
def departments : Catalog where
  models := [("Department",
    { name := "Department", table := "department"
      fields := [⟨"id", .basic ⟨"id", "id", true⟩⟩,
        ⟨"parentId", .basic ⟨"parentId", "parent_id", true⟩⟩,
        ⟨"companyId", .basic ⟨"companyId", "company_id", true⟩⟩,
        ⟨"parent", .relation ⟨.one, "Department", ["parentId"]⟩⟩] })]
  permissions := [("Department", { rows := some (.compare "companyId" .eq (.text "1") false) })]

/-- The department `1` and all below it. -/
def subtree : HierarchyQuery where
  start := some (.compare "id" .eq (.text "1") false)

/-- A department of another company is returned if it is below a department of the caller's. -/
theorem subtree_returns_other_company : ∃ statement events s table ruled,
    (Request.recursive "Department" subtree).compile departments = (.ok statement, events) ∧
    statement.command = .select s ∧ s.hierarchy = some table ∧
    (∃ access, departments.access "Department" = .ok access ∧
      (Condition.compare "companyId" .eq (.text "1") false).ResolvesOnRows departments access
        ruled) ∧
    ∃ (v : Bool → List Char → Bool) (stored : Bool → Prop) (linked : Bool → Bool → Prop) (r : Bool),
      table.Grown v stored linked r ∧ s.Keeps (fun r (_ : Unit) => v r) (fun _ _ => True) r ∧
      ¬ ruled.Holds (v r) := by
  obtain ⟨statement, events, hcompile⟩ : ∃ statement events,
      (Request.recursive "Department" subtree).compile departments = (.ok statement, events) :=
    ⟨_, _, rfl⟩
  obtain ⟨access, haccess⟩ : ∃ access, departments.access "Department" = .ok access := ⟨_, rfl⟩
  have hrule : access.rows? = some (.compare "companyId" .eq (.text "1") false) := by
    cases haccess; rfl
  obtain ⟨start, hstart⟩ : ∃ start, (subtree.start? departments access).run {} = .ok start {} := by
    cases haccess; exact ⟨_, rfl⟩
  have htext : start.text ≠ "" := by cases haccess; cases hstart; decide
  obtain ⟨s, table, ruled, hcommand, htable, hruled, hrequested, hheld, -, hiff⟩ :=
    Request.hierarchy_rows_meet_rule_iff (.inl rfl) haccess hrule hstart htext hcompile
  refine ⟨statement, events, s, table, ruled, hcompile, hcommand, htable, ⟨access, haccess, hruled⟩,
    fun r _ => r, ?_⟩
  by_contra hnone
  have hall : ∀ stored linked r, table.Grown (fun r _ => r) stored linked r →
      s.Keeps (fun r (_ : Unit) _ => r) (fun _ _ => True) r → ruled.Holds fun _ => r :=
    fun stored linked r hgrown hkeeps => by_contra fun hnot =>
      hnone ⟨stored, linked, r, hgrown, hkeeps, hnot⟩
  have hanchor := hheld.anchor
  cases hcompile
  cases hcommand
  cases htable
  rcases (hiff Bool Unit (fun r _ => r) (fun r _ _ => r) (fun _ _ => True)).1 hall with h | h
  · refine h true ⟨?_, ?_⟩
    · rintro f ⟨⟩; rfl
    · rintro f ⟨⟩; rfl
  · have hholds := h false nofun ⟨(), trivial, Predicate.holds_absent, Predicate.holds_absent⟩
    rcases hanchor with heq | ⟨mark, -, heq⟩
    · subst heq
      exact Bool.false_ne_true (hholds _ rfl)
    · exact absurd heq nofun

end QueryCompiler
