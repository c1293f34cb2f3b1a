import QueryCompiler.Proofs.Enforcement.Escape
import QueryCompiler.Proofs.Selection.Truth

/-!
# What SQL joins

SQL joins the tables of a query one after the other. Rows in front are joined with the rows of the next
table for which the `ON` clause holds. Besides, some joins keep the rows in front for which there are
none, and some keep the rows of the next table for which there are none (`JoinClause.Yields`). What is
joined later leaves a joined row as it is, or else nothing of it is left (`JoinClause.allYield_upTo`).
-/

namespace QueryCompiler

variable {R : Type} {spell : Filled → Sentence} {w : List Char → Truth}

/-! ## Predicates that hold -/

/-- The predicate holds as it is read; what has no text asks for nothing. -/
def Predicate.Passed (spell : Filled → Sentence) (w : List Char → Truth) (p : Predicate) : Prop :=
  ∀ s ∈ p.sentence? spell, s.formula.truth w = .holds

/-- What stands behind the first `OR` of the predicate, outside brackets, holds. -/
def Predicate.Slips (spell : Filled → Sentence) (w : List Char → Truth) (p : Predicate) : Prop :=
  ∃ s ∈ p.sentence? spell, s.PassesBehind fun o => o.formula.truth w = .holds

/-- What stands in the place holds as it is read. -/
def Place.Passed (spell : Filled → Sentence) (w : List Char → Truth) (place : Place) : Prop :=
  ∀ s ∈ place.sentence? spell, s.formula.truth w = .holds

theorem Predicate.passed_of_none {p : Predicate} (h : p.sentence? spell = none) : p.Passed spell w :=
  fun _ hs => absurd (h ▸ hs) (Option.not_mem_none _)

theorem Predicate.passed_of_passes {p : Predicate} {s : Sentence} (h : p.sentence? spell = some s)
    (hs : s.Passes fun o => o.formula.truth w = .holds) : p.Passed spell w := by
  intro t ht
  obtain rfl := Option.some.inj (h.symm.trans ht)
  exact Sentence.truth_eq_holds.2 hs

theorem Predicate.not_slips {p : Predicate} (h : ∀ sql, (spell sql).Tight) : ¬ p.Slips spell w :=
  fun ⟨_, hs, hbehind⟩ => (p.tight_sentence h hs).not_passesBehind hbehind

/-- An `ON` clause that holds, holds its row to what is enforced, or the row is tied as the link says and
meets what stands behind the first `OR` of the caller's text. -/
theorem Place.join_passed {link : List Equality} {filter : Filter Predicate} (htied : link ≠ [])
    (h : (Place.join link filter).Passed spell w) : filter.enforced.Passed spell w ∨
      (∀ e ∈ link, w e.text.toList = .holds) ∧ filter.requested.Slips spell w := by
  obtain ⟨e, es, rfl⟩ := List.exists_cons_of_ne_nil htied
  have hpasses := Sentence.truth_eq_holds.1 (h _ rfl)
  cases hrest : rest? spell (.join (e :: es) filter) with
  | none => exact .inl (Predicate.passed_of_none (Predicate.sentence?_eq_none_of_pair hrest))
  | some t =>
    rw [hrest, Sentence.andOpt, Sentence.Passes, (Equality.tight_chain e es).passesFrom_join,
      Equality.passesFrom_chain, true_and] at hpasses
    rw [rest?, Predicate.sentence?_pair] at hrest
    cases hp : filter.enforced.sentence? spell with
    | none => exact .inl (Predicate.passed_of_none hp)
    | some s =>
      rw [hp] at hrest
      cases hq : filter.requested.sentence? spell with
      | none =>
        rw [hq] at hrest
        obtain rfl := Option.some.inj hrest
        exact .inl (Predicate.passed_of_passes hp hpasses.passes)
      | some t' =>
        rw [hq] at hrest
        obtain rfl := Option.some.inj hrest
        -- between the brackets stands what is enforced, and the caller's text behind it
        obtain ⟨hlink, henclosed⟩ := hpasses
        have hinside : (s.join .and t').Passes fun o => o.formula.truth w = .holds :=
          Sentence.truth_eq_holds.1 henclosed
        exact (Sentence.passesFrom_join hinside).imp (Predicate.passed_of_passes hp)
          fun hbehind => ⟨hlink, t', hq, hbehind⟩

/-! ## Rows -/

/-- A row of each of several tables, by the number of the table; nothing where a table has none. -/
abbrev JoinedRow (R : Type) := Nat → Option R

namespace JoinedRow

/-- A row of one table. -/
def only (n : Nat) (r : R) : JoinedRow R :=
  fun m => if m = n then some r else none

/-- The row, with one of a further table. -/
def add (row : JoinedRow R) (n : Nat) (r : R) : JoinedRow R :=
  fun m => if m = n then some r else row m

/-- What the row has of some tables. -/
def upTo (row : JoinedRow R) (ns : List Nat) : JoinedRow R :=
  fun m => if m ∈ ns then row m else none

/-- The row has nothing of other tables. -/
def Within (ns : List Nat) (row : JoinedRow R) : Prop :=
  ∀ m, m ∉ ns → row m = none

variable {row : JoinedRow R} {ns : List Nat} {n : Nat} {r : R}

@[simp] theorem only_self (n : Nat) (r : R) : only n r n = some r :=
  if_pos rfl

@[simp] theorem add_self (row : JoinedRow R) (n : Nat) (r : R) : row.add n r n = some r :=
  if_pos rfl

theorem add_of_ne {m : Nat} (h : m ≠ n) : row.add n r m = row m :=
  if_neg h

theorem upTo_of_mem (h : n ∈ ns) : row.upTo ns n = row n :=
  if_pos h

theorem within_only (h : n ∈ ns) : (only n r).Within ns :=
  fun m hm => if_neg fun heq : m = n => hm (heq ▸ h)

theorem Within.add (h : row.Within ns) : (row.add n r).Within (ns ++ [n]) := by
  intro m hm
  rw [List.mem_append, List.mem_singleton, not_or] at hm
  rw [add_of_ne hm.2]
  exact h m hm.1

theorem Within.mono {ms : List Nat} (h : row.Within ns) (hsub : ns ⊆ ms) : row.Within ms :=
  fun m hm => h m fun hmem => hm (hsub hmem)

/-- A row that agrees with another on all tables that the other has. -/
theorem Within.upTo_eq {row' : JoinedRow R} (h : row.Within ns) (heq : ∀ m ∈ ns, row' m = row m) :
    row'.upTo ns = row := by
  funext m
  by_cases hm : m ∈ ns
  · rw [upTo_of_mem hm, heq m hm]
  · rw [upTo, if_neg hm, h m hm]

end JoinedRow

/-- The rows that are stored for a model, and what SQL says of a leaf on a joined row. -/
structure Database (R : Type) where
  stored : Model → R → Prop
  truth : JoinedRow R → List Char → Truth

/-! ## Joins -/

/-- Whether the join keeps unmatched rows in front of it. -/
def JoinType.keepsFront : JoinType → Bool
  | .left | .full => true
  | .right | .inner => false

namespace JoinClause

variable {db : Database R} {rows : JoinedRow R → Prop} {c : JoinClause Predicate}
  {cs : List (JoinClause Predicate)} {row : JoinedRow R} {ns : List Nat}

/-- The `ON` clause holds for the row. -/
def Matches (db : Database R) (spell : Filled → Sentence) (c : JoinClause Predicate)
    (row : JoinedRow R) : Prop :=
  (Place.join c.link c.filter).Passed spell (db.truth row)

/-- The rows that a join makes of the rows in front of it. -/
inductive Yields (db : Database R) (spell : Filled → Sentence) (c : JoinClause Predicate)
    (rows : JoinedRow R → Prop) : JoinedRow R → Prop where
  | matched {row : JoinedRow R} {r : R} : rows row → db.stored c.model r →
      c.Matches db spell (row.add c.number r) → Yields db spell c rows (row.add c.number r)
  | frontAlone {row : JoinedRow R} : c.type.keepsFront = true → rows row →
      (∀ r, db.stored c.model r → ¬ c.Matches db spell (row.add c.number r)) →
      Yields db spell c rows row
  | joinedAlone {r : R} : c.type.keepsJoined = true → db.stored c.model r →
      (∀ row, rows row → ¬ c.Matches db spell (row.add c.number r)) →
      Yields db spell c rows (.only c.number r)

/-- The rows that joins make one after the other. -/
def AllYield (db : Database R) (spell : Filled → Sentence) :
    List (JoinClause Predicate) → (JoinedRow R → Prop) → JoinedRow R → Prop
  | [], rows => rows
  | c :: cs, rows => AllYield db spell cs (c.Yields db spell rows)

theorem allYield_append (front back : List (JoinClause Predicate)) (rows : JoinedRow R → Prop) :
    AllYield db spell (front ++ back) rows = AllYield db spell back (AllYield db spell front rows) := by
  induction front generalizing rows with
  | nil => rfl
  | cons c front ih => exact ih _

theorem Yields.within (hrows : ∀ row, rows row → row.Within ns) (h : c.Yields db spell rows row) :
    row.Within (ns ++ [c.number]) := by
  cases h with
  | matched hrow _ _ => exact (hrows _ hrow).add
  | frontAlone _ hrow _ => exact (hrows _ hrow).mono (List.subset_append_left _ _)
  | joinedAlone _ _ _ => exact JoinedRow.within_only (List.mem_append_right _ (List.mem_singleton_self _))

theorem AllYield.within (hrows : ∀ row, rows row → row.Within ns) (h : AllYield db spell cs rows row) :
    row.Within (ns ++ cs.map JoinClause.number) := by
  induction cs generalizing rows ns with
  | nil => simpa using hrows row h
  | cons c cs ih =>
    rw [List.map_cons, List.append_cons]
    exact ih (fun row hrow => Yields.within hrows hrow) h

/-- What further joins make of rows: a row from in front is there as it was, or nothing of it is. -/
theorem allYield_upTo (hrows : ∀ row, rows row → row.Within ns)
    (hnew : (ns ++ cs.map JoinClause.number).Nodup) (h : AllYield db spell cs rows row) :
    rows (row.upTo ns) ∨ ∀ n ∈ ns, row n = none := by
  induction cs generalizing rows ns with
  | nil =>
    rw [(hrows row h).upTo_eq fun _ _ => rfl]
    exact .inl h
  | cons c cs ih =>
    rw [List.map_cons, List.append_cons] at hnew
    have hfresh : ∀ n ∈ ns, n ≠ c.number := by
      intro n hn heq
      have hdisjoint := (List.nodup_append'.1 (List.nodup_append'.1 hnew).1).2.2
      exact hdisjoint hn (heq ▸ List.mem_singleton_self _)
    have hstays : ∀ n ∈ ns, row.upTo (ns ++ [c.number]) n = row n := fun n hn =>
      JoinedRow.upTo_of_mem (List.mem_append_left _ hn)
    rcases ih (fun row hrow => Yields.within hrows hrow) hnew h with hyields | hnone
    · generalize row.upTo (ns ++ [c.number]) = row' at hyields hstays
      cases hyields with
      | @matched row₀ r hrow _ _ =>
        refine .inl ((hrows _ hrow).upTo_eq (fun n hn => ?_) ▸ hrow)
        rw [← hstays n hn, JoinedRow.add_of_ne (hfresh n hn)]
      | frontAlone _ hrow _ =>
        exact .inl ((hrows _ hrow).upTo_eq (fun n hn => (hstays n hn).symm) ▸ hrow)
      | joinedAlone _ _ _ =>
        exact .inr fun n hn => (hstays n hn).symm.trans (if_neg (hfresh n hn))
    · exact .inr fun n hn => hnone n (List.mem_append_left _ hn)

end JoinClause
end QueryCompiler
