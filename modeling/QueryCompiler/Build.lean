import QueryCompiler.Event
import QueryCompiler.Error

/-!
# Building statements

Building a statement draws table aliases and reports events. What was drawn and reported before a
failure is not taken back.
-/

namespace QueryCompiler

/-- Why no statement is built. -/
inductive Stop where
  /-- The request is at fault. -/
  | rejected (error : CompileError)
  /-- Subqueries nest deeper than was allowed for. -/
  | tooDeep
  deriving DecidableEq, Repr

/-- How far the building of a statement has come. -/
structure Progress where
  /-- The number of the next table. -/
  nextNumber : Nat := 0
  /-- The events so far, in their order. -/
  events : List Event := []
  deriving DecidableEq, Repr

/-- A step in the building of a statement. -/
abbrev Build := EStateM Stop Progress

namespace Build

/-- Gives up because of an error. -/
def reject {α : Type} (e : CompileError) : Build α :=
  throw (.rejected e)

/-- The result of a step that draws and reports nothing. -/
def ofExcept {α : Type} : Except CompileError α → Build α
  | .ok a => pure a
  | .error e => reject e

/-- Draws the number of a table. -/
def freshNumber : Build Nat :=
  modifyGet fun p => (p.nextNumber, { p with nextNumber := p.nextNumber + 1 })

/-- Reports an event. -/
def report (e : Event) : Build Unit :=
  modify fun p => { p with events := p.events ++ [e] }

/-! ## Running steps -/

variable {α β : Type} {p p' : Progress}

/-- Two steps succeed if the first does and the second does from there on. -/
theorem run_bind_eq_ok {x : Build α} {f : α → Build β} {b : β} :
    (x >>= f).run p = .ok b p' ↔ ∃ a q, x.run p = .ok a q ∧ (f a).run q = .ok b p' := by
  show EStateM.bind x f p = _ ↔ ∃ a q, x p = _ ∧ f a q = _
  unfold EStateM.bind
  cases x p with
  | ok a q => exact ⟨fun h => ⟨a, q, rfl, h⟩, fun ⟨_, _, h, h'⟩ => by cases h; exact h'⟩
  | error e q => simp

@[simp] theorem run_pure_eq_ok {a b : α} :
    (pure a : Build α).run p = .ok b p' ↔ a = b ∧ p = p' := by
  show (EStateM.Result.ok a p : EStateM.Result Stop Progress α) = .ok b p' ↔ _
  simp

@[simp] theorem run_reject_ne_ok {e : CompileError} {a : α} :
    (reject e : Build α).run p ≠ .ok a p' :=
  nofun

@[simp] theorem run_ofExcept_eq_ok {x : Except CompileError α} {a : α} :
    (ofExcept x).run p = .ok a p' ↔ x = .ok a ∧ p = p' := by
  cases x with
  | ok b => simp [ofExcept]
  | error e => simp [ofExcept]

theorem run_freshNumber :
    freshNumber.run p = .ok p.nextNumber { p with nextNumber := p.nextNumber + 1 } :=
  rfl

theorem run_report (e : Event) :
    (report e).run p = .ok () { p with events := p.events ++ [e] } :=
  rfl

end Build
end QueryCompiler
