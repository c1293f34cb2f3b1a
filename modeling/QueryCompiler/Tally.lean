import QueryCompiler.Event
import QueryCompiler.Keyed

/-!
# Tallies

Counters over the events of compilations, in all and by model. A counter that is full stays full.
-/

namespace QueryCompiler

/-- One more, unless the counter is full. -/
def bump (n : UInt64) : UInt64 :=
  if n + 1 == 0 then n else n + 1

/-- The counters of a model. -/
structure ModelTally where
  statements : UInt64 := 0
  joined : UInt64 := 0
  subqueries : UInt64 := 0
  deriving DecidableEq, Repr, Inhabited

/-- The counters of all compilations, and those of the models in the order of their names. -/
structure Tally where
  query : UInt64 := 0
  count : UInt64 := 0
  existence : UInt64 := 0
  aggregate : UInt64 := 0
  recursive : UInt64 := 0
  vectorSearch : UInt64 := 0
  deleteWhere : UInt64 := 0
  joined : UInt64 := 0
  subqueries : UInt64 := 0
  failures : UInt64 := 0
  models : List (String × ModelTally) := []
  deriving DecidableEq, Repr, Inhabited

namespace Tally

/-- Counts a statement by its kind. Counts over hierarchies are counted with hierarchies. -/
def countKind (t : Tally) : StatementKind → Tally
  | .query => { t with query := bump t.query }
  | .count => { t with count := bump t.count }
  | .existence => { t with existence := bump t.existence }
  | .aggregate => { t with aggregate := bump t.aggregate }
  | .recursive | .recursiveCount => { t with recursive := bump t.recursive }
  | .vectorSearch => { t with vectorSearch := bump t.vectorSearch }
  | .deleteWhere => { t with deleteWhere := bump t.deleteWhere }

/-- Changes the counters of a model. -/
def countModel (t : Tally) (model : String) (f : ModelTally → ModelTally) : Tally :=
  { t with models := Keyed.alter model {} f t.models }

/-- Counts an event. -/
def record (t : Tally) : Event → Tally
  | .compiled kind model =>
    (t.countKind kind).countModel model fun m => { m with statements := bump m.statements }
  | .joined model =>
    { t with joined := bump t.joined }.countModel model fun m => { m with joined := bump m.joined }
  | .subquery model =>
    { t with subqueries := bump t.subqueries }.countModel model fun m =>
      { m with subqueries := bump m.subqueries }
  | .failed _ => { t with failures := bump t.failures }

/-- Counts events one after the other. -/
def recordAll (t : Tally) (events : List Event) : Tally :=
  events.foldl record t

end Tally
end QueryCompiler
