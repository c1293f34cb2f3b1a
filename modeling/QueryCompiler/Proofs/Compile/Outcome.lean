import QueryCompiler.Compile.Request
import QueryCompiler.Proofs.Build.Run

/-!
# When a request is compiled

A statement is compiled exactly if building its command succeeds from the beginning.
-/

namespace QueryCompiler

namespace Request

variable {catalog : Catalog} {r : Request} {statement : Statement} {events : List Event}

theorem compileWithin_eq_ok {depth : Nat} :
    r.compileWithin depth catalog = (.ok statement, events) ↔ ∃ command p,
      (r.build catalog (.ofTree catalog depth)).run {} = .ok command p ∧
      statement = ⟨r.kind, r.model, catalog.dialect, command⟩ ∧
      events = p.events ++ [.compiled r.kind r.model] := by
  rw [compileWithin]
  cases (r.build catalog (.ofTree catalog depth)).run {} with
  | ok command p =>
    simp only [Prod.mk.injEq, Except.ok.injEq, EStateM.Result.ok.injEq]
    constructor
    · rintro ⟨rfl, rfl⟩
      exact ⟨command, p, ⟨rfl, rfl⟩, rfl, rfl⟩
    · rintro ⟨_, _, ⟨rfl, rfl⟩, rfl, rfl⟩
      exact ⟨rfl, rfl⟩
  | error stop p => simp

theorem build_of_compile (h : r.compile catalog = (.ok statement, events)) :
    ∃ depth p, (r.build catalog (.ofTree catalog depth)).run {} = .ok statement.command p ∧
      statement.dialect = catalog.dialect := by
  obtain ⟨command, p, hrun, rfl, -⟩ := compileWithin_eq_ok.1 h
  exact ⟨_, p, hrun, rfl⟩

end Request
end QueryCompiler
