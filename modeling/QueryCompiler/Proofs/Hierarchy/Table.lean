import QueryCompiler.Compile.Hierarchy

/-!
# The growing table of a hierarchy

What the growing table of a compiled hierarchy is made of.
-/

namespace QueryCompiler.HierarchyQuery

open Build

variable {catalog : Catalog} {access : Access} {q : HierarchyQuery} {start : Predicate}
  {p p' : Progress}

/-- The mark that further rows of a hierarchy are held to, and the run that resolves it. -/
def StepHolds (catalog : Catalog) (access : Access) (q : HierarchyQuery) (p p' : Progress) :
    Option Predicate → Prop
  | some mark => (access.model.marksDeleted && !q.query.ignoreDeleted) = true ∧
      (notDeleted.resolve catalog.dialect (Names.ofTable access .row) false
        (hierarchyMark ++ "2")).run p = .ok mark p'
  | none => (access.model.marksDeleted && !q.query.ignoreDeleted) = false ∧ p = p'

theorem table_eq_ok {h : Hierarchy} (hrun : (q.table catalog access start).run p = .ok h p') :
    ∃ keys parents held r step, access.model.keyFields = .ok keys ∧
      access.model.parentFields = .ok parents ∧ keys.length = parents.length ∧
      (Condition.resolve? catalog.dialect (Names.ofTable access .row)
        (access.enforced? q.query.ignoreDeleted) false (hierarchyMark ++ "0")).run p =
          .ok held r ∧
      StepHolds catalog access q r p' step ∧
      h = { columns := hierarchyColumns access keys parents q.query.heads?, model := access.model
            anchor := ⟨held, start⟩, step, link := hierarchyLink q.direction keys parents } := by
  rw [table] at hrun
  obtain ⟨keys, _, hfirst, hrun⟩ := run_bind_eq_ok.1 hrun
  obtain ⟨hkeys, rfl⟩ := run_ofExcept_eq_ok.1 hfirst
  obtain ⟨parents, _, hsecond, hrun⟩ := run_bind_eq_ok.1 hrun
  obtain ⟨hparents, rfl⟩ := run_ofExcept_eq_ok.1 hsecond
  split at hrun
  · exact absurd hrun nofun
  case isFalse hlength =>
  obtain ⟨held, r, hheld, hrun⟩ := run_bind_eq_ok.1 hrun
  have hlength : keys.length = parents.length := by simpa using hlength
  -- the mark is resolved on one of two ways that meet in the record
  simp only at hrun
  split at hrun
  case isTrue hmarks =>
    obtain ⟨mark, _, hmark, hrun⟩ := run_bind_eq_ok.1 hrun
    obtain ⟨step, _, hstep, hrun⟩ := run_bind_eq_ok.1 hrun
    obtain ⟨rfl, rfl⟩ := run_pure_eq_ok.1 hstep
    obtain ⟨rfl, rfl⟩ := run_pure_eq_ok.1 hrun
    exact ⟨keys, parents, held, r, some mark, hkeys, hparents, hlength, hheld, ⟨hmarks, hmark⟩, rfl⟩
  case isFalse hmarks =>
    obtain ⟨step, _, hstep, hrun⟩ := run_bind_eq_ok.1 hrun
    obtain ⟨rfl, rfl⟩ := run_pure_eq_ok.1 hstep
    obtain ⟨rfl, rfl⟩ := run_pure_eq_ok.1 hrun
    exact ⟨keys, parents, held, r, none, hkeys, hparents, hlength, hheld,
      ⟨Bool.eq_false_iff.2 hmarks, rfl⟩, rfl⟩

theorem table_requested {h : Hierarchy} (hrun : (q.table catalog access start).run p = .ok h p') :
    h.anchor.requested = start := by
  obtain ⟨_, _, _, _, _, -, -, -, -, -, rfl⟩ := table_eq_ok hrun
  rfl

end QueryCompiler.HierarchyQuery
