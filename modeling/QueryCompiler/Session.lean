import QueryCompiler.Compile.Request
import QueryCompiler.Tally

/-!
# Sessions

A session compiles requests one after the other and keeps a tally of their events. While a capture
is open, events go to the innermost one and not to the tally.
-/

namespace QueryCompiler

/-- A session: what it compiles against, its tally, and the events of the open captures, the
innermost first. -/
structure Session where
  catalog : Catalog := {}
  tally : Tally := {}
  captures : List (List Event) := []

/-- A step of a session. -/
inductive Step where
  | compile (request : Request)
  | report
  | reset
  /-- The steps are run with their events captured. -/
  | capture (steps : List Step)
  | register (model : Model)
  | configure (settings : Settings)
  | models

/-- A compiled statement, and the same by position in the style in effect. -/
structure Compiled where
  statement : Statement
  positional : Except CompileError Positional

/-- The outcome of a step. -/
inductive Outcome where
  | compiled (result : Except Stop Compiled)
  | report (tally : Tally)
  | reset
  | captured (outcomes : List Outcome) (events : List Event)
  | registered
  | configured
  /-- The names of the registered models and of their tables. -/
  | models (names : List (String × String))

namespace Session

instance : Inhabited Outcome := ⟨.reset⟩

/-- Hands events to the innermost capture, or to the tally if none is open. -/
def deliver (s : Session) (events : List Event) : Session :=
  match s.captures with
  | [] => { s with tally := s.tally.recordAll events }
  | inner :: outer => { s with captures := (inner ++ events) :: outer }

/-- Compiles a request. -/
def compile (s : Session) (r : Request) : Outcome × Session :=
  let (result, events) := r.compile s.catalog
  let style := s.catalog.settings.placeholderStyle
  (.compiled (result.map fun statement => ⟨statement, statement.lower style⟩), s.deliver events)

/-- Opens a capture. -/
def openCapture (s : Session) : Session :=
  { s with captures := [] :: s.captures }

/-- Closes the innermost capture and gives its events. -/
def closeCapture (s : Session) : List Event × Session :=
  match s.captures with
  | [] => ([], s)
  | inner :: outer => (inner, { s with captures := outer })

mutual

/-- Runs a step. -/
def run : Step → Session → Outcome × Session
  | .compile r, s => s.compile r
  | .report, s => (.report s.tally, s)
  | .reset, s => (.reset, { s with tally := {} })
  | .capture steps, s =>
    let (outcomes, s) := runAll steps s.openCapture
    let (events, s) := s.closeCapture
    (.captured outcomes events, s)
  | .register m, s =>
    (.registered, { s with catalog := { s.catalog with models := s.catalog.models.register m } })
  | .configure settings, s => (.configured, { s with catalog := { s.catalog with settings } })
  | .models, s =>
    (.models (s.catalog.models.map fun m => (m.2.name, m.2.qualifiedTable)), s)

/-- Runs steps one after the other. -/
def runAll : List Step → Session → List Outcome × Session
  | [], s => ([], s)
  | step :: steps, s =>
    let (outcome, s) := run step s
    let (outcomes, s) := runAll steps s
    (outcome :: outcomes, s)

end
end Session
end QueryCompiler
