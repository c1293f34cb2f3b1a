import QueryCompiler.Proofs.Compile.Outcome
import QueryCompiler.Proofs.Compile.Parts
import QueryCompiler.Proofs.Compile.SameRows
import QueryCompiler.Proofs.Selection.Absence

/-!
# Deletions are filtered

What a caller asks to be deleted has to have a text of its own: what the caller is held to does not
stand in for it (`deleteWhere_of_empty`). If it has a text, the filter of the deletion is read as the
conjunction of the two, and as what is asked for alone where the caller is held to nothing
(`Filter.Conjoined`).
-/

namespace QueryCompiler

open Build

variable {catalog : Catalog} {model : String} {p p' : Progress}

/-! ## How a filter is read -/

/-- The text of a predicate is read as `g`, which has the value of the predicate's formula `f`. -/
structure Predicate.ReadAs (p : Predicate) (f g : Formula) : Prop where
  formula : p.formula? = some f
  parse : Formula.parse f.atoms p.text.toList = some g
  eval : ∀ v, g.eval v = f.eval v

/-- The text of a filter is read as the conjunction of what its two predicates are read as. -/
inductive Filter.Conjoined (filter : Filter Predicate) : Prop where
  /-- Nothing is enforced. -/
  | requested {f g : Formula} (hheld : filter.enforced.text = "") (hasked : filter.requested.ReadAs f g)
      (hparse : Formula.parse f.atoms filter.text.toList = some g)
  | both {h f gh gf : Formula} (hheld : filter.enforced.ReadAs h gh)
      (hasked : filter.requested.ReadAs f gf)
      (hparse : Formula.parse (h.atoms ++ f.atoms) filter.text.toList = some (.group .and [gh, gf]))

theorem Filter.text_of_unheld {filter : Filter Predicate} (h : filter.enforced.text = "") :
    filter.text = filter.requested.text := by
  rw [text, h, Text.joinFragments]
  by_cases hasked : filter.requested.text = ""
  · rw [hasked]
    rfl
  · have hparts : ["", filter.requested.text].filter (fun p => !p.isEmpty) =
        [filter.requested.text] := by simp [hasked]
    rw [hparts]

theorem Filter.conjoined {filter : Filter Predicate} (hheld : filter.enforced.AtomicLeaves)
    (hasked : filter.requested.AtomicLeaves) (hsome : filter.requested.text ≠ "") :
    filter.Conjoined := by
  have hsaid := filter.requested.says_text hasked
  have hheldSaid := filter.enforced.says_text hheld
  cases hf : filter.requested.formula? with
  | none => exact absurd (hsaid.eq_empty_iff.2 hf) hsome
  | some f =>
    rw [hf] at hsaid
    cases hh : filter.enforced.formula? with
    | none =>
      have hnothing := hheldSaid.eq_empty_iff.2 hh
      obtain ⟨g, hparse, heval⟩ := Expresses.parse hsaid
      refine .requested hnothing ⟨hf, hparse, heval⟩ ?_
      rw [text_of_unheld hnothing]
      exact hparse
    | some h =>
      rw [hh] at hheldSaid
      obtain ⟨gh, gf, hgh, hevalh, hgf, hevalf, hboth⟩ := Expresses.parse_pair .and hheldSaid hsaid
      exact .both ⟨hh, hgh, hevalh⟩ ⟨hf, hgf, hevalf⟩ hboth

/-! ## Deletions -/

/-- What is asked for has no text: the deletion is refused, and what the caller is held to is not
looked at. -/
theorem deleteWhere_of_empty {access : Access} {c : Condition} {asked : Predicate} (physical : Bool)
    (haccess : catalog.access model = .ok access)
    (hasked : (c.resolve catalog.dialect (Names.ofTable access .bare) true (rootMark ++ "1")).run p =
      .ok asked p') (hempty : asked.text = "") :
    (deleteWhere catalog model c physical).run p =
      .error (.rejected (.condition (.unfilteredDelete model))) p' := by
  rw [deleteWhere, run_bind_of_ok (run_ofExcept_eq_ok.2 ⟨haccess, rfl⟩), run_bind_of_ok hasked,
    if_pos (String.isEmpty_iff.2 hempty)]
  rfl

/-- A statement that deletes the rows of a table that pass a filter: they are marked where the model
marks deleted rows, unless they are to be removed. -/
structure Statement.Deletes (s : Statement) (m : Model) (physical : Bool)
    (filter : Filter Predicate) : Prop where
  marks : ∀ flag, m.basicField? deleteFlag = some flag → physical = false →
    s.command = .mark m flag.column filter
  removes : m.basicField? deleteFlag = none ∨ physical = true → s.command = .remove m filter
  sql : ∃ head, s.sql = head ++ " WHERE " ++ filter.text

/-- The filter of a deletion: what is asked for and what the caller is held to, each resolved by
itself. -/
def Catalog.FiltersBy (catalog : Catalog) (access : Access) (c : Condition)
    (filter : Filter Predicate) : Prop :=
  ∃ q q',
    (c.resolve catalog.dialect (Names.ofTable access .bare) true (rootMark ++ "1")).run {} =
      .ok filter.requested q ∧
    (Condition.resolve? catalog.dialect (Names.ofTable access .bare) access.rows? false
      (rootMark ++ "0")).run q = .ok filter.enforced q'

theorem Statement.Deletes.of_commands {s : Statement} {m : Model} {physical : Bool}
    {filter : Filter Predicate}
    (hmarks : ∀ flag, m.basicField? deleteFlag = some flag → physical = false →
      s.command = .mark m flag.column filter)
    (hremoves : m.basicField? deleteFlag = none ∨ physical = true → s.command = .remove m filter) :
    s.Deletes m physical filter := by
  refine ⟨hmarks, hremoves, ?_⟩
  have hremoved (h : m.basicField? deleteFlag = none ∨ physical = true) :
      ∃ head, s.sql = head ++ " WHERE " ++ filter.text :=
    ⟨"DELETE FROM " ++ m.qualifiedTable, by rw [Statement.sql, hremoves h, Command.text]⟩
  cases hflag : m.basicField? deleteFlag with
  | none => exact hremoved (.inl hflag)
  | some flag =>
    cases physical with
    | true => exact hremoved (.inr rfl)
    | false =>
      refine ⟨"UPDATE " ++ m.qualifiedTable ++ " SET " ++ flag.column ++ " = " ++
        Params.placeholder deleteFlagParam, ?_⟩
      rw [Statement.sql, hmarks flag hflag rfl, Command.text]

theorem Condition.atomicLeaves_resolve? {σ : Type} {d : Dialect} {names : Names σ} {s : σ}
    {base : String} {c : Option Condition} {r : Predicate}
    (hc : ∀ held ∈ c, held.hasTemplate = false)
    (h : (Condition.resolve? d names c s base).run p = .ok r p') : r.AtomicLeaves := by
  cases c with
  | none =>
    obtain ⟨rfl, -⟩ := run_pure_eq_ok.1 h
    exact trivial
  | some held => exact (saysNothing_of_formula? held (hc held rfl) h).1

/-- A deletion is never unfiltered. If it is compiled, what is asked for has a text, the rows are
filtered by the conjunction of that text and of what the caller is held to, and memory finds the
condition absent on no row. If what is asked for has no text, the deletion is refused, whatever the
caller is held to. -/
theorem Request.deletes_filtered {access : Access} {c : Condition} (physical : Bool)
    (haccess : catalog.access model = .ok access) (hc : c.isDecided = true)
    (hrows : ∀ held ∈ access.rows?, held.hasTemplate = false) :
    (∀ statement events,
      (Request.deleteWhere model c physical).compile catalog = (.ok statement, events) →
      ∃ filter, catalog.FiltersBy access c filter ∧
        statement.Deletes access.model physical filter ∧ filter.requested.text ≠ "" ∧
        filter.Conjoined ∧ ∀ row, c.verdict row ≠ .absent) ∧
    ∀ asked q,
      (c.resolve catalog.dialect (Names.ofTable access .bare) true (rootMark ++ "1")).run {} =
        .ok asked q → asked.text = "" →
      ∃ events, (Request.deleteWhere model c physical).compile catalog =
        (.error (.rejected (.condition (.unfilteredDelete model))), events) := by
  constructor
  · intro statement events h
    obtain ⟨depth, q', hbuild, -⟩ := build_of_compile h
    obtain ⟨access', filter, q, haccess', hasked, hsome, hheld, hmarks, hremoves⟩ :=
      deleteWhere_run hbuild
    obtain rfl := Except.ok.inj (haccess.symm.trans haccess')
    have hatomic := (Condition.saysNothing_of_formula? c (Condition.hasTemplate_of_isDecided c hc)
      hasked).1
    have hheldAtomic := Condition.atomicLeaves_resolve? hrows hheld
    refine ⟨filter, ⟨q, q', hasked, hheld⟩, .of_commands hmarks hremoves, hsome,
      Filter.conjoined hheldAtomic hatomic hsome, fun row habsent => hsome ?_⟩
    have hnothing := ((Condition.verdict_eq_absent_iff row c hc).1 habsent).1
    exact (Condition.text_eq_empty_iff hc hasked).2 hnothing
  · intro asked q hasked hempty
    refine ⟨q.events ++ [.failed .deleteWhere], ?_⟩
    rw [compile, compileWithin, build, deleteWhere_of_empty physical haccess hasked hempty]
    rfl

/-- The caller is held to the employees of a department. A deletion by name marks those of them that
have the name; a deletion by the negation of nothing is refused. -/
theorem rosters_deletes_filtered :
    let own : Catalog := { rosters with
      permissions := [("Employee", { rows := some (.compare "departmentId" .eq (.text "1") false) })] }
    (∃ statement events, ∃ filter : Filter Predicate, (Request.deleteWhere "Employee"
        (.compare "name" .eq (.text "x") false) false).compile own = (.ok statement, events) ∧
      statement.sql = "UPDATE employee SET delete_flag = #\x7b_delete_flag\x7d WHERE " ++
        "(department_id = #\x7bc0.v\x7d AND name = #\x7bc1.v\x7d)" ∧
      filter.enforced.text ≠ "" ∧ filter.Conjoined) ∧
    ∃ events, (Request.deleteWhere "Employee" (.negate (.group .and [])) false).compile own =
      (.error (.rejected (.condition (.unfilteredDelete "Employee"))), events) := by
  intro own
  obtain ⟨access, haccess⟩ : ∃ access, own.access "Employee" = .ok access := ⟨_, rfl⟩
  have hrows : ∀ held ∈ access.rows?, held.hasTemplate = false := by
    cases haccess
    rintro held ⟨⟩
    rfl
  constructor
  · obtain ⟨statement, events, h⟩ : ∃ statement events, (Request.deleteWhere "Employee"
        (.compare "name" .eq (.text "x") false) false).compile own = (.ok statement, events) :=
      ⟨_, _, rfl⟩
    obtain ⟨filter, -, hdeletes, -, hconjoined, -⟩ :=
      (Request.deletes_filtered false haccess (by rfl) hrows).1 statement events h
    cases haccess
    have hcommand := hdeletes.marks ⟨"delete_flag", "delete_flag", true⟩ rfl rfl
    cases h
    cases hcommand
    exact ⟨_, _, _, rfl, by decide, by decide, hconjoined⟩
  · obtain ⟨asked, q, hasked⟩ : ∃ asked q, ((Condition.negate (.group .and [])).resolve own.dialect
        (Names.ofTable access .bare) true (rootMark ++ "1")).run {} = .ok asked q := ⟨_, _, rfl⟩
    refine (Request.deletes_filtered false haccess (by rfl) hrows).2 asked q hasked ?_
    cases hasked
    rfl

end QueryCompiler
