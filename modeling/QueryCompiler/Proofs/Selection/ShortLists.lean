import QueryCompiler.Condition.Match
import QueryCompiler.Condition.Resolve

/-!
# Equal to an item or among the items

The operator `eqOrIn` takes a list. On a list of one item it is `eq` on the item, on a longer list it is
`isIn` on the list: it is resolved to the same predicate, and decided alike in memory. Whether a
comparison says nothing is asked of the value as it was given, though, and a list of one item is not
empty even if the item is. So what `eqOrIn` comes to on one item is `eq` without the licence to leave an
empty value out (`Condition.eqOrIn_degrades`).
-/

namespace QueryCompiler

namespace Operator

variable {column : Column} {base : String} {data v : Value} {items : List Value}

theorem exists_cons_cons (h : 2 ≤ items.length) : ∃ v w rest, items = v :: w :: rest := by
  match items, h with
  | v :: w :: rest, _ => exact ⟨v, w, rest, rfl⟩

theorem resolve_eqOrIn_single :
    eqOrIn.resolve column base (.list [v]) = eq.resolve column base v :=
  rfl

theorem resolve_eqOrIn_of_two_le (h : 2 ≤ items.length) :
    eqOrIn.resolve column base (.list items) = isIn.resolve column base (.list items) := by
  obtain ⟨v, w, rest, rfl⟩ := exists_cons_cons h
  rfl

theorem holds_eqOrIn_single : eqOrIn.holds data (.list [v]) = eq.holds data v :=
  rfl

theorem holds_eqOrIn_of_two_le (h : 2 ≤ items.length) :
    eqOrIn.holds data (.list items) = isIn.holds data (.list items) := by
  obtain ⟨v, w, rest, rfl⟩ := exists_cons_cons h
  rfl

end Operator

namespace Condition

/-- Two conditions that come to the same. Wherever they are resolved, the outcome is the same predicate,
and so the same text with the same bindings, or the same error. On every row they have one verdict. -/
structure Interchangeable (c c' : Condition) : Prop where
  resolve : ∀ {σ : Type} (d : Dialect) (names : Names σ) (s : σ) (base : String),
    c.resolve d names s base = c'.resolve d names s base
  verdict : ∀ row, c.verdict row = c'.verdict row

variable {path : String} {op op' : Operator} {value value' : Value} {skip skip' : Bool}

/-- Comparisons come to the same if they say nothing in the same cases, and their operators come to the
same on their values. -/
theorem interchangeable_compare
    (hnothing : comparesNothing path op value skip = comparesNothing path op' value' skip')
    (hresolve : ∀ column base, op.resolve column base value = op'.resolve column base value')
    (hholds : ∀ data, op.holds data value = op'.holds data value') :
    Interchangeable (compare path op value skip) (compare path op' value' skip') := by
  constructor
  · intro σ d names s base
    simp only [Condition.resolve, hnothing, hresolve]
  · intro row
    simp only [Condition.verdict, hnothing, hholds]

theorem comparesNothing_list {items : List Value} (h : items ≠ []) :
    comparesNothing path op (.list items) skip = path.isEmpty := by
  simp [comparesNothing, Value.isEmpty, h]

theorem comparesNothing_kept : comparesNothing path op value false = path.isEmpty := by
  simp [comparesNothing]

/-- A comparison with one item comes to an equality that may not be left out. -/
theorem interchangeable_single (path : String) (v : Value) (skip : Bool) :
    Interchangeable (compare path .eqOrIn (.list [v]) skip) (compare path .eq v false) := by
  apply interchangeable_compare
  · rw [comparesNothing_list (List.cons_ne_nil v []), comparesNothing_kept]
  · intro column base
    exact Operator.resolve_eqOrIn_single
  · intro data
    exact Operator.holds_eqOrIn_single

theorem interchangeable_of_two_le (path : String) {items : List Value} (skip : Bool)
    (h : 2 ≤ items.length) :
    Interchangeable (compare path .eqOrIn (.list items) skip)
      (compare path .isIn (.list items) skip) := by
  have hitems : items ≠ [] := by
    rintro rfl
    simp at h
  apply interchangeable_compare
  · rw [comparesNothing_list hitems, comparesNothing_list hitems]
  · intro column base
    exact Operator.resolve_eqOrIn_of_two_le h
  · intro data
    exact Operator.holds_eqOrIn_of_two_le h

/-! ## What is left out -/

/-- The condition is left out: it is resolved to no predicate, and absent on every row. -/
structure LeftOut (c : Condition) : Prop where
  resolve : ∀ {σ : Type} (d : Dialect) (names : Names σ) (s : σ) (base : String),
    c.resolve d names s base = pure .absent
  verdict : ∀ row, c.verdict row = .absent

theorem leftOut_of_comparesNothing (h : comparesNothing path op value skip = true) :
    LeftOut (compare path op value skip) := by
  constructor
  · intro σ d names s base
    rw [Condition.resolve, if_pos h]
  · intro row
    rw [Condition.verdict, if_pos h]

/-- An equality with an empty value is left out if it may be. -/
theorem leftOut_of_isEmpty (path : String) {v : Value} (hv : v.isEmpty = true) :
    LeftOut (compare path .eq v true) := by
  apply leftOut_of_comparesNothing
  simp [comparesNothing, Operator.needsValue, hv]

/-- A list of one item is not empty, so a comparison with it has a verdict if it names a field. -/
theorem verdict_single_ne_absent (hpath : path ≠ "") (v : Value) (skip : Bool) (row : Row) :
    (compare path .eqOrIn (.list [v]) skip).verdict row ≠ .absent := by
  have hnamed : path.isEmpty = false := by simpa using hpath
  rw [Condition.verdict, comparesNothing_list (List.cons_ne_nil v []), hnamed]
  cases Operator.eqOrIn.holds (row.read path) (.list [v]) <;> simp [Verdict.ofBool]

theorem interchangeable_single_iff (path : String) (v : Value) (skip : Bool) :
    Interchangeable (compare path .eqOrIn (.list [v]) skip) (compare path .eq v skip) ↔
      ¬(path ≠ "" ∧ skip = true ∧ v.isEmpty = true) := by
  constructor
  · rintro h ⟨hpath, rfl, hv⟩
    apply verdict_single_ne_absent hpath v true fun _ => none
    rw [h.verdict, (leftOut_of_isEmpty path hv).verdict]
  · intro hkept
    apply interchangeable_compare
    · rw [comparesNothing_list (List.cons_ne_nil v [])]
      by_cases hpath : path = ""
      · simp [comparesNothing, hpath]
      · cases skip with
        | false => rw [comparesNothing_kept]
        | true =>
          have hv : v.isEmpty = false := by
            rw [Bool.eq_false_iff]
            intro hv
            exact hkept ⟨hpath, rfl, hv⟩
          simp [comparesNothing, hv]
    · intro column base
      exact Operator.resolve_eqOrIn_single
    · intro data
      exact Operator.holds_eqOrIn_single

/-! ## Both lengths -/

/-- On one item `eqOrIn` comes to `eq` on the item without the licence to leave it out. That is `eq` with
the same licence, unless a field is named and the item is empty and may be left out; then `eq` is left
out and `eqOrIn` is not. On more items `eqOrIn` comes to `isIn` on the list. -/
theorem eqOrIn_degrades (path : String) (skip : Bool) :
    (∀ v, Interchangeable (compare path .eqOrIn (.list [v]) skip) (compare path .eq v false)) ∧
    (∀ v, Interchangeable (compare path .eqOrIn (.list [v]) skip) (compare path .eq v skip) ↔
      ¬(path ≠ "" ∧ skip = true ∧ v.isEmpty = true)) ∧
    (∀ v, skip = true → v.isEmpty = true → LeftOut (compare path .eq v skip)) ∧
    ∀ items, 2 ≤ items.length →
      Interchangeable (compare path .eqOrIn (.list items) skip)
        (compare path .isIn (.list items) skip) := by
  refine ⟨?_, ?_, ?_, ?_⟩
  · intro v
    exact interchangeable_single path v skip
  · intro v
    exact interchangeable_single_iff path v skip
  · rintro v rfl hv
    exact leftOut_of_isEmpty path hv
  · intro items hitems
    exact interchangeable_of_two_le path skip hitems

/-- An item that is not empty, an empty one and two items, all under the licence to leave an empty value
out. -/
theorem grades_degrade :
    Interchangeable (compare "grade" .eqOrIn (.list [.int 1]) true)
      (compare "grade" .eq (.int 1) true) ∧
    LeftOut (compare "grade" .eq .null true) ∧
    Interchangeable (compare "grade" .eqOrIn (.list [.null]) true)
      (compare "grade" .eq .null false) ∧
    2 ≤ [Value.int 1, .null].length ∧
    Interchangeable (compare "grade" .eqOrIn (.list [.int 1, .null]) true)
      (compare "grade" .isIn (.list [.int 1, .null]) true) := by
  obtain ⟨hkept, hsame, hleft, hlonger⟩ := eqOrIn_degrades "grade" true
  refine ⟨(hsame (.int 1)).2 ?_, hleft .null rfl rfl, hkept .null, by decide,
    hlonger [.int 1, .null] (by decide)⟩
  rintro ⟨-, -, hempty⟩
  exact Bool.false_ne_true hempty

/-- A name that is empty, or among a list of the empty text alone, where an empty value may be left out:
the first comparison is left out and the other one is not. -/
theorem blankName_not_degraded : ∃ among equals,
    ((compare "name" .eqOrIn (.list [.text ""]) true).resolve .mysql Names.verbatim () "c1").run {} =
      .ok among {} ∧
    ((compare "name" .eq (.text "") true).resolve .mysql Names.verbatim () "c1").run {} =
      .ok equals {} ∧
    among.text = "name = #\x7bc1.v\x7d" ∧ among.bindings = [⟨"c1.v", .text ""⟩] ∧
    equals.text = "" ∧ equals.bindings = [] ∧
    (compare "name" .eqOrIn (.list [.text ""]) true).verdict (fun _ => some (.text "a")) = .fails ∧
    (compare "name" .eq (.text "") true).verdict (fun _ => some (.text "a")) = .absent := by
  refine ⟨_, _, rfl, rfl, ?_, rfl, rfl, rfl, ?_, ?_⟩ <;> decide

end Condition
end QueryCompiler
