import QueryCompiler.Session
import QueryCompiler.Proofs.Tally
import Mathlib.Data.List.DropRight

/-!
# Where the events of a session go

A log writes down what is recorded and hands nothing on: each event is entered with the address of the
innermost capture around it. What a capture yields is read off the entries of its own address when it
is closed, and a report counts the entries that no capture encloses since the counters were last
reset. A session that hands every event to the innermost open capture, or to its counters, comes to
the same outcomes.
-/

namespace QueryCompiler

/-- Where a capture stands: its place among the steps around it, and then the places of the captures
around it, the innermost first. Outside of all captures the address is empty. -/
abbrev Address := List Nat

/-- An entry in the log of a session. -/
inductive Entry where
  /-- An event, and the innermost capture around it. -/
  | event (address : Address) (event : Event)
  /-- The counters are reset. -/
  | reset

/-- All that was recorded in a session, in its order, and what the session compiles against by now. -/
structure Log where
  catalog : Catalog := {}
  entries : List Entry := []

namespace Log

/-- Whether the counters are reset. -/
def isReset : Entry → Bool
  | .event _ _ => false
  | .reset => true

/-- The event of an entry with an address. -/
def eventAt? (address : Address) : Entry → Option Event
  | .event a e => if a = address then some e else none
  | .reset => none

/-- The events with an address, in their order. -/
def eventsAt (address : Address) (entries : List Entry) : List Event :=
  entries.filterMap (eventAt? address)

/-- The count of the events outside of all captures since the last reset. -/
def tally (g : Log) : Tally :=
  Tally.recordAll {} (eventsAt [] (g.entries.rtakeWhile fun e => !isReset e))

/-- Enters events with an address. -/
def enter (g : Log) (address : Address) (events : List Event) : Log :=
  { g with entries := g.entries ++ events.map (.event address) }

mutual

/-- The outcome of the step at a place of a capture, as it is read off the log. -/
def outcome (address : Address) (place : Nat) : Step → Log → Outcome × Log
  | .compile r, g =>
    let (result, events) := r.compile g.catalog
    let style := g.catalog.settings.placeholderStyle
    (.compiled (result.map fun statement => ⟨statement, statement.lower style⟩),
      g.enter address events)
  | .report, g => (.report g.tally, g)
  | .reset, g => (.reset, { g with entries := g.entries ++ [.reset] })
  | .capture steps, g =>
    let (outcomes, g) := outcomes (place :: address) 0 steps g
    (.captured outcomes (eventsAt (place :: address) g.entries), g)
  | .register m, g =>
    (.registered, { g with catalog := { g.catalog with models := g.catalog.models.register m } })
  | .configure settings, g => (.configured, { g with catalog := { g.catalog with settings } })
  | .models, g =>
    (.models (g.catalog.models.map fun m => (m.2.name, m.2.qualifiedTable)), g)

/-- The outcomes of the steps from a place of a capture on. -/
def outcomes (address : Address) (place : Nat) : List Step → Log → List Outcome × Log
  | [], g => ([], g)
  | step :: steps, g =>
    let (o, g) := outcome address place step g
    let (os, g) := outcomes address (place + 1) steps g
    (o :: os, g)

end

/-! ## Events by address -/

variable {g : Log} {address other : Address} {place : Nat} {entries more : List Entry}
  {events : List Event}

theorem eventsAt_append : eventsAt address (entries ++ more) =
    eventsAt address entries ++ eventsAt address more :=
  List.filterMap_append

theorem eventsAt_map_self : eventsAt address (events.map (.event address)) = events := by
  rw [eventsAt, List.filterMap_map]
  simp [Function.comp_def, eventAt?]

theorem eventsAt_map_of_ne (h : other ≠ address) :
    eventsAt address (events.map (.event other)) = [] := by
  rw [eventsAt, List.filterMap_map, List.filterMap_eq_nil_iff]
  intro e _
  simp [eventAt?, h]

/-- No event has the address. -/
theorem eventsAt_eq_nil (h : ∀ a e, Entry.event a e ∈ entries → a ≠ address) :
    eventsAt address entries = [] := by
  rw [eventsAt, List.filterMap_eq_nil_iff]
  intro entry hentry
  cases entry with
  | event a e => simp [eventAt?, h a e hentry]
  | reset => rfl

theorem rtakeWhile_enter :
    (entries ++ events.map (Entry.event address)).rtakeWhile (fun e => !isReset e) =
      entries.rtakeWhile (fun e => !isReset e) ++ events.map (.event address) := by
  induction events using List.reverseRecOn with
  | nil => simp
  | append_singleton events e ih =>
    rw [List.map_append, List.map_singleton, ← List.append_assoc,
      List.rtakeWhile_concat_pos _ _ _ rfl, ih, List.append_assoc]

theorem tally_enter_outside : (g.enter [] events).tally = g.tally.recordAll events := by
  rw [tally, enter, rtakeWhile_enter, eventsAt_append, eventsAt_map_self, Tally.recordAll,
    List.foldl_append]
  rfl

theorem tally_enter_inside (h : address ≠ []) : (g.enter address events).tally = g.tally := by
  rw [tally, enter, rtakeWhile_enter, eventsAt_append, eventsAt_map_of_ne h, List.append_nil]
  rfl

theorem tally_reset : tally { g with entries := g.entries ++ [.reset] } = {} := by
  rw [tally, List.rtakeWhile_concat_neg _ _ _ (by decide)]
  rfl

/-! ## Addresses are used once -/

/-- No event is from the captures that begin at a place of a capture, or later. -/
def Ahead (address : Address) (place : Nat) (entries : List Entry) : Prop :=
  ∀ a e, Entry.event a e ∈ entries → ∀ n, place ≤ n → ¬ (n :: address) <:+ a

theorem Ahead.within (h : Ahead address place entries) : Ahead (place :: address) 0 entries :=
  fun a e ha n _ hsuffix => h a e ha place le_rfl ((List.suffix_cons n _).trans hsuffix)

/-- New entries are from a capture or from within it. -/
def From (address : Address) (entries : List Entry) : Prop :=
  ∀ a e, Entry.event a e ∈ entries → address <:+ a

theorem From.append (h : From address entries) (h' : From address more) :
    From address (entries ++ more) := fun a e ha =>
  (List.mem_append.1 ha).elim (h a e) (h' a e)

/-- What a step at a place adds is from its capture itself, or from the capture that the step is. -/
theorem Ahead.append (h : Ahead address place entries)
    (hmore : ∀ a e, Entry.event a e ∈ more → a = address ∨ (place :: address) <:+ a) :
    Ahead address (place + 1) (entries ++ more) := by
  intro a e ha n hn hsuffix
  rcases List.mem_append.1 ha with ha | ha
  · exact h a e ha n (Nat.le_of_succ_le hn) hsuffix
  rcases hmore a e ha with rfl | hfrom
  · have hlength := hsuffix.length_le
    rw [List.length_cons] at hlength
    omega
  · have heq := (List.suffix_of_suffix_length_le hsuffix hfrom (by simp)).eq_of_length (by simp)
    have hplace : n = place := (List.cons.inj heq).1
    omega

mutual

theorem outcome_entries (address : Address) (place : Nat) (step : Step) (g : Log) :
    ∃ more, (outcome address place step g).2.entries = g.entries ++ more ∧
      ∀ a e, Entry.event a e ∈ more → a = address ∨ (place :: address) <:+ a := by
  cases step with
  | compile r =>
    refine ⟨_, rfl, fun a e ha => .inl ?_⟩
    obtain ⟨_, -, heq⟩ := List.mem_map.1 ha
    exact (Entry.event.inj heq).1.symm
  | reset => exact ⟨[.reset], rfl, by simp⟩
  | capture steps =>
    obtain ⟨more, hmore, hfrom⟩ := outcomes_entries (place :: address) 0 steps g
    exact ⟨more, hmore, fun a e ha => .inr (hfrom a e ha)⟩
  | report | register | configure | models => exact ⟨[], (List.append_nil _).symm, nofun⟩

theorem outcomes_entries (address : Address) (place : Nat) (steps : List Step) (g : Log) :
    ∃ more, (outcomes address place steps g).2.entries = g.entries ++ more ∧ From address more := by
  cases steps with
  | nil => exact ⟨[], (List.append_nil _).symm, nofun⟩
  | cons step steps =>
    obtain ⟨first, hfirst, hfrom⟩ := outcome_entries address place step g
    obtain ⟨rest, hrest, hfrom'⟩ :=
      outcomes_entries address (place + 1) steps (outcome address place step g).2
    refine ⟨first ++ rest, ?_, .append (fun a e ha => ?_) hfrom'⟩
    · rw [← List.append_assoc, ← hfirst]
      exact hrest
    · rcases hfrom a e ha with rfl | hsuffix
      · exact List.suffix_refl _
      · exact (List.suffix_cons place address).trans hsuffix

end

end Log

/-! ## Sessions and logs -/

namespace Session

open Log

/-- The events of the captures around an address, the innermost first. -/
def capturesAt (entries : List Entry) : Address → List (List Event)
  | [] => []
  | place :: outer => eventsAt (place :: outer) entries :: capturesAt entries outer

/-- A session within the captures of an address has handed on what a log has entered. -/
structure Agrees (address : Address) (s : Session) (g : Log) : Prop where
  catalog : s.catalog = g.catalog
  tally : s.tally = g.tally
  captures : s.captures = capturesAt g.entries address

variable {s : Session} {g : Log} {address : Address} {place : Nat} {entries : List Entry}
  {events : List Event}

/-- Events with an address are none of the captures around it. -/
theorem capturesAt_enter {outer : Address} (h : outer.length < address.length) :
    capturesAt (entries ++ events.map (.event address)) outer = capturesAt entries outer := by
  induction outer with
  | nil => rfl
  | cons place outer ih =>
    have hne : address ≠ place :: outer := by
      rintro rfl
      exact Nat.lt_irrefl _ h
    rw [capturesAt, capturesAt, ih (Nat.lt_of_succ_lt h), eventsAt_append, eventsAt_map_of_ne hne,
      List.append_nil]

theorem capturesAt_reset :
    capturesAt (entries ++ [.reset]) address = capturesAt entries address := by
  induction address with
  | nil => rfl
  | cons place outer ih =>
    rw [capturesAt, capturesAt, ih, eventsAt_append]
    exact congrArg (· :: _) (List.append_nil _)

theorem Agrees.deliver (h : Agrees address s g) (events : List Event) :
    Agrees address (s.deliver events) (g.enter address events) := by
  cases address with
  | nil =>
    have hcaptures : s.captures = [] := h.captures
    rw [Session.deliver, hcaptures]
    refine ⟨h.catalog, ?_, rfl⟩
    rw [tally_enter_outside, ← h.tally]
  | cons place outer =>
    have hcaptures : s.captures = eventsAt (place :: outer) g.entries :: capturesAt g.entries outer :=
      h.captures
    rw [Session.deliver, hcaptures]
    refine ⟨h.catalog, ?_, ?_⟩
    · rw [tally_enter_inside (List.cons_ne_nil _ _)]
      exact h.tally
    · simp only [enter, capturesAt]
      rw [capturesAt_enter (Nat.lt_succ_self _), eventsAt_append, eventsAt_map_self]

/-- A capture that begins has no events yet. -/
theorem Agrees.openCapture (h : Agrees address s g) (hahead : Ahead address place g.entries) :
    Agrees (place :: address) s.openCapture g := by
  refine ⟨h.catalog, h.tally, ?_⟩
  have hnone : eventsAt (place :: address) g.entries = [] :=
    eventsAt_eq_nil fun a e ha heq => hahead a e ha place le_rfl (heq ▸ List.suffix_refl _)
  rw [Session.openCapture, capturesAt, hnone, h.captures]

theorem Agrees.closeCapture (h : Agrees (place :: address) s g) :
    s.closeCapture.1 = eventsAt (place :: address) g.entries ∧
      Agrees address s.closeCapture.2 g := by
  have hcaptures := h.captures
  rw [capturesAt] at hcaptures
  rw [Session.closeCapture, hcaptures]
  exact ⟨rfl, h.catalog, h.tally, rfl⟩

mutual

/-- A step of a session has the outcome that is read off the log. -/
theorem run_agrees (step : Step) (s : Session) (g : Log) (address : Address) (place : Nat)
    (h : Agrees address s g) (hahead : Ahead address place g.entries) :
    (run step s).1 = (outcome address place step g).1 ∧
      Agrees address (run step s).2 (outcome address place step g).2 := by
  cases step with
  | compile r =>
    refine ⟨?_, ?_⟩
    · show (s.compile r).1 = _
      rw [Session.compile, h.catalog]
      rfl
    · show Agrees address (s.compile r).2 _
      rw [Session.compile, h.catalog]
      exact h.deliver _
  | report => exact ⟨congrArg Outcome.report h.tally, h⟩
  | reset =>
    refine ⟨rfl, h.catalog, tally_reset.symm, ?_⟩
    show s.captures = capturesAt (g.entries ++ [.reset]) address
    rw [capturesAt_reset, h.captures]
  | capture steps =>
    obtain ⟨houtcomes, hagrees⟩ := runAll_agrees steps s.openCapture g (place :: address) 0
      (h.openCapture hahead) hahead.within
    obtain ⟨hevents, hclosed⟩ := hagrees.closeCapture
    exact ⟨congrArg₂ Outcome.captured houtcomes hevents, hclosed⟩
  | register m =>
    refine ⟨rfl, ?_, h.tally, h.captures⟩
    show { s.catalog with models := s.catalog.models.register m } = _
    rw [h.catalog]
    rfl
  | configure settings =>
    refine ⟨rfl, ?_, h.tally, h.captures⟩
    show { s.catalog with settings } = _
    rw [h.catalog]
    rfl
  | models =>
    refine ⟨?_, h⟩
    show Outcome.models (s.catalog.models.map _) = _
    rw [h.catalog]
    rfl

theorem runAll_agrees (steps : List Step) (s : Session) (g : Log) (address : Address) (place : Nat)
    (h : Agrees address s g) (hahead : Ahead address place g.entries) :
    (runAll steps s).1 = (outcomes address place steps g).1 ∧
      Agrees address (runAll steps s).2 (outcomes address place steps g).2 := by
  cases steps with
  | nil => exact ⟨rfl, h⟩
  | cons step steps =>
    obtain ⟨more, hmore, hfrom⟩ := outcome_entries address place step g
    obtain ⟨houtcome, hagrees⟩ := run_agrees step s g address place h hahead
    obtain ⟨houtcomes, hall⟩ := runAll_agrees steps _ _ address (place + 1) hagrees
      (hmore ▸ hahead.append hfrom)
    exact ⟨congrArg₂ List.cons houtcome houtcomes, hall⟩

end

end Session

/-! ## Reports -/

mutual

/-- The counters that an outcome reports, in a capture too. -/
def Outcome.reportsOf : Outcome → List Tally
  | .report t => [t]
  | .captured outcomes _ => reports outcomes
  | _ => []

/-- The counters that outcomes report, in captures too. -/
def Outcome.reports : List Outcome → List Tally
  | [] => []
  | o :: os => o.reportsOf ++ reports os

end

mutual

theorem Log.outcome_reports (step : Step) (g : Log) (address : Address) (place : Nat) :
    ∀ t ∈ (outcome address place step g).1.reportsOf, ∃ events, t = Tally.recordAll {} events := by
  cases step with
  | report =>
    intro t ht
    exact ⟨_, List.mem_singleton.1 ht⟩
  | capture steps => exact outcomes_reports steps g (place :: address) 0
  | compile | reset | register | configure | models => exact nofun

theorem Log.outcomes_reports (steps : List Step) (g : Log) (address : Address) (place : Nat) :
    ∀ t ∈ Outcome.reports (outcomes address place steps g).1,
      ∃ events, t = Tally.recordAll {} events := by
  cases steps with
  | nil => exact nofun
  | cons step steps =>
    intro t ht
    rcases List.mem_append.1 ht with ht | ht
    · exact outcome_reports step g address place t ht
    · exact outcomes_reports steps _ address (place + 1) t ht

end

/-- A session hands every event to the innermost capture around it, or to the counters if there is
none, in the order in which events are recorded: its outcomes are those that are read off the log, and
no capture is open in the end. Whenever counters are reported none of which is full, those of the
models add up to those of all compilations. -/
theorem Session.runAll_logged (catalog : Catalog) (steps : List Step) :
    let session := runAll steps { catalog }
    let log := Log.outcomes [] 0 steps { catalog }
    session.1 = log.1 ∧ session.2 = ⟨log.2.catalog, log.2.tally, []⟩ ∧
      ∀ t ∈ Outcome.reports session.1, t.HasRoom → t.Balanced := by
  intro session log
  have hstart : Agrees [] { catalog } { catalog } := ⟨rfl, rfl, rfl⟩
  obtain ⟨houtcomes, hend⟩ := runAll_agrees steps { catalog } { catalog } [] 0 hstart nofun
  refine ⟨houtcomes, ?_, fun t ht hroom => ?_⟩
  · show (⟨session.2.catalog, session.2.tally, session.2.captures⟩ : Session) = _
    rw [hend.catalog, hend.tally, hend.captures]
    rfl
  · rw [show session.1 = log.1 from houtcomes] at ht
    obtain ⟨events, rfl⟩ := Log.outcomes_reports steps { catalog } [] 0 t ht
    exact Tally.recordAll_balanced events hroom

/-- Departments, and the employees of each. -/
def headcount : Catalog where
  models := [
    ("Department",
      { name := "Department", table := "department"
        fields := [⟨"id", .basic ⟨"id", "id", true⟩⟩,
          ⟨"employees", .relation ⟨.many, "Employee", ["departmentId"]⟩⟩] }),
    ("Employee",
      { name := "Employee", table := "employee"
        fields := [⟨"id", .basic ⟨"id", "id", true⟩⟩,
          ⟨"departmentId", .basic ⟨"departmentId", "department_id", true⟩⟩] })]

/-- The departments with their employees are listed, and counted in a capture within a capture; the
counters are reset in between. -/
def audit : List Step :=
  let listing : Request := .query "Department" { select := some ["employees.id"] }
  let number : Request := .count "Department" none [] false
  [.compile number, .capture [.compile listing, .reset, .capture [.compile number, .report]],
    .compile listing, .report]

/-- What is captured is not counted, and what was counted before is reset in the capture. -/
theorem audit_logged : ∃ inner outer : Tally,
    Outcome.reports (Session.runAll audit { catalog := headcount }).1 = [inner, outer] ∧
      inner = {} ∧ outer.HasRoom ∧ outer.Balanced ∧ outer.query = 1 ∧ outer.count = 0 ∧
      outer.joined = 1 := by
  let outer : Tally :=
    { query := 1, joined := 1, models := [("Department", ⟨1, 0, 0⟩), ("Employee", ⟨0, 1, 0⟩)] }
  have hreports : Outcome.reports (Session.runAll audit { catalog := headcount }).1 = [{}, outer] := by
    decide +kernel
  have hroom : outer.HasRoom := by decide
  obtain ⟨-, -, hbalanced⟩ := Session.runAll_logged headcount audit
  have hmem : outer ∈ Outcome.reports (Session.runAll audit { catalog := headcount }).1 := by
    rw [hreports]
    exact List.mem_cons_of_mem _ List.mem_cons_self
  exact ⟨{}, outer, hreports, rfl, hroom, hbalanced outer hmem hroom, rfl, rfl, rfl⟩

end QueryCompiler
