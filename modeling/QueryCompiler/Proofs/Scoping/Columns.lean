import QueryCompiler.Sql.Command
import Mathlib.Data.List.Basic

/-!
# The columns that SQL names

A subquery brings in tables of its own; all other tables that a predicate names have to be brought in
around it. `columns` are the columns that a predicate names at every depth, `opened` the numbers of the
tables that its subqueries bring in, and `free` the columns of tables that are not brought in around
the place where they are named. `Command.ons` lists the `ON` clauses of a command at every depth, each
with the tables of its `FROM` in front of it and behind it.
-/

namespace QueryCompiler

/-- The column is of one of the numbered tables. -/
def Column.isOf (c : Column) (numbers : List Nat) : Bool :=
  match c.qualifier with
  | .table n => numbers.contains n
  | .bare | .row => false

/-- The columns of equalities. -/
def Equality.columns (es : List Equality) : List Column :=
  es.flatMap fun e => [e.left, e.right]

/-- The `ON` clause of a join, with the numbers of the tables in front of it and behind it in its
`FROM`. -/
structure On where
  front : List Nat
  clause : JoinClause Predicate
  back : List Nat

namespace Predicate

mutual

/-- The columns that a predicate names. -/
def columns : Predicate → List Column
  | .absent => []
  | .filled sql _ => sql.columns
  | .membership column _ _ => [column]
  | .group _ parts => columnsOf parts
  | .negate inner => inner.columns
  | .related _ ⟨_, _, link, joins, enforced⟩ inner =>
    Equality.columns link ++ (joinsColumns joins ++ (enforced.columns ++ inner.columns))

/-- The columns that the parts of a group name. -/
def columnsOf : List Predicate → List Column
  | [] => []
  | p :: ps => p.columns ++ columnsOf ps

/-- The columns that joins name. -/
def joinsColumns : List (JoinClause Predicate) → List Column
  | [] => []
  | ⟨_, _, _, link, ⟨enforced, requested⟩⟩ :: js =>
    Equality.columns link ++ (enforced.columns ++ requested.columns) ++ joinsColumns js

end

mutual

/-- The numbers of the tables that the subqueries of a predicate bring in. -/
def opened : Predicate → List Nat
  | .absent | .filled _ _ | .membership _ _ _ => []
  | .group _ parts => openedOf parts
  | .negate inner => inner.opened
  | .related _ ⟨_, number, _, joins, enforced⟩ inner =>
    number :: (joinsOpened joins ++ (enforced.opened ++ inner.opened))

/-- The numbers of the tables that the parts of a group bring in. -/
def openedOf : List Predicate → List Nat
  | [] => []
  | p :: ps => p.opened ++ openedOf ps

/-- The numbers of the tables that joins bring in. -/
def joinsOpened : List (JoinClause Predicate) → List Nat
  | [] => []
  | ⟨_, _, number, _, ⟨enforced, requested⟩⟩ :: js =>
    number :: (enforced.opened ++ requested.opened ++ joinsOpened js)

end

mutual

/-- The columns that a predicate names of tables that have to be brought in around it. -/
def free : Predicate → List Column
  | .absent => []
  | .filled sql _ => sql.columns
  | .membership column _ _ => [column]
  | .group _ parts => freeOf parts
  | .negate inner => inner.free
  | .related _ ⟨_, number, link, joins, enforced⟩ inner =>
    (Equality.columns link ++ (joinsFree joins ++ (enforced.free ++ inner.free))).filter
      fun c => !c.isOf (number :: joins.map JoinClause.number)

/-- The free columns of the parts of a group. -/
def freeOf : List Predicate → List Column
  | [] => []
  | p :: ps => p.free ++ freeOf ps

/-- The columns that joins name and their subqueries do not bring in. -/
def joinsFree : List (JoinClause Predicate) → List Column
  | [] => []
  | ⟨_, _, _, link, ⟨enforced, requested⟩⟩ :: js =>
    Equality.columns link ++ (enforced.free ++ requested.free) ++ joinsFree js

end

mutual

/-- The `ON` clauses in the subqueries of a predicate. -/
def ons : Predicate → List On
  | .absent | .filled _ _ | .membership _ _ _ => []
  | .group _ parts => onsOf parts
  | .negate inner => inner.ons
  | .related _ ⟨_, number, _, joins, enforced⟩ inner =>
    joinsOns [number] joins ++ (enforced.ons ++ inner.ons)

/-- The `ON` clauses in the parts of a group. -/
def onsOf : List Predicate → List On
  | [] => []
  | p :: ps => p.ons ++ onsOf ps

/-- The `ON` clauses of joins behind the tables `front`, and those in their subqueries. -/
def joinsOns (front : List Nat) : List (JoinClause Predicate) → List On
  | [] => []
  | ⟨type, model, number, link, ⟨enforced, requested⟩⟩ :: js =>
    ⟨front, ⟨type, model, number, link, ⟨enforced, requested⟩⟩, js.map JoinClause.number⟩ ::
      (enforced.ons ++ requested.ons ++ joinsOns (front ++ [number]) js)

end
end Predicate

/-- The columns that a filter names. -/
def Filter.columns (f : Filter Predicate) : List Column :=
  f.enforced.columns ++ f.requested.columns

/-- The columns of tables around a filter. -/
def Filter.free (f : Filter Predicate) : List Column :=
  f.enforced.free ++ f.requested.free

/-- The tables that the subqueries of a filter bring in. -/
def Filter.opened (f : Filter Predicate) : List Nat :=
  f.enforced.opened ++ f.requested.opened

/-- The `ON` clauses in the subqueries of a filter. -/
def Filter.ons (f : Filter Predicate) : List On :=
  f.enforced.ons ++ f.requested.ons

/-- The columns of tables around an `ON` clause. -/
def JoinClause.free (c : JoinClause Predicate) : List Column :=
  Equality.columns c.link ++ c.filter.free

/-- The `ON` clauses of a growing table. -/
def Hierarchy.ons (h : Hierarchy) : List On :=
  h.anchor.ons ++ (h.step.map Predicate.ons).getD []

/-- The `ON` clauses of a command. -/
def Command.ons : Command → List On
  | .select q =>
    (q.hierarchy.map Hierarchy.ons).getD [] ++
      (Predicate.joinsOns [q.tail.source.number] q.tail.source.joins ++ q.tail.filter.ons)
  | .mark _ _ filter | .remove _ filter => filter.ons

/-- The columns of an `ON` clause that are of none of the tables in front of it nor of its own. -/
def On.ahead (on : On) : List Column :=
  on.clause.free.filter fun c => !c.isOf (on.front ++ [on.clause.number])

/-! ## Members -/

theorem Column.isOf_iff {c : Column} {numbers : List Nat} :
    c.isOf numbers = true ↔ ∃ n ∈ numbers, c.qualifier = .table n := by
  rw [isOf]
  cases c.qualifier <;> simp

theorem Column.isOf_table {n : Nat} {name : String} {numbers : List Nat} :
    Column.isOf ⟨.table n, name⟩ numbers = true ↔ n ∈ numbers := by
  simp [isOf]

theorem Column.isOf_append (c : Column) (ns ms : List Nat) :
    c.isOf (ns ++ ms) = (c.isOf ns || c.isOf ms) := by
  rw [isOf, isOf, isOf]
  cases c.qualifier <;> simp

theorem Column.isOf_mono {c : Column} {ns ms : List Nat} (h : ns ⊆ ms) (hc : c.isOf ns = true) :
    c.isOf ms = true := by
  obtain ⟨n, hn, hc⟩ := isOf_iff.1 hc
  exact isOf_iff.2 ⟨n, h hn, hc⟩

theorem Equality.mem_columns {es : List Equality} {c : Column} :
    c ∈ columns es ↔ c ∈ es.map left ∨ c ∈ es.map right := by
  simp only [columns, List.mem_flatMap, List.mem_map, List.mem_cons, List.not_mem_nil, or_false]
  constructor
  · rintro ⟨e, he, rfl | rfl⟩
    · exact .inl ⟨e, he, rfl⟩
    · exact .inr ⟨e, he, rfl⟩
  · rintro (⟨e, he, rfl⟩ | ⟨e, he, rfl⟩)
    · exact ⟨e, he, .inl rfl⟩
    · exact ⟨e, he, .inr rfl⟩

namespace Predicate

variable {c : Column} {n : Nat} {on : On}

theorem mem_joinsFree {js : List (JoinClause Predicate)} :
    c ∈ joinsFree js ↔ ∃ j ∈ js, c ∈ j.free := by
  induction js with
  | nil => simp [joinsFree]
  | cons j js ih =>
    rw [joinsFree, List.mem_append, ih, List.exists_mem_cons_iff]
    rfl

theorem mem_joinsOpened {js : List (JoinClause Predicate)} :
    n ∈ joinsOpened js ↔ ∃ j ∈ js, n = j.number ∨ n ∈ j.filter.opened := by
  induction js with
  | nil => simp [joinsOpened]
  | cons j js ih => simp [joinsOpened, Filter.opened, ih, or_assoc]

/-- An `ON` clause of joins is that of one of them, or stands in a subquery of one of them. -/
theorem mem_joinsOns {front : List Nat} {js : List (JoinClause Predicate)}
    (h : on ∈ joinsOns front js) : (∃ before j after, js = before ++ j :: after ∧
        on = ⟨front ++ before.map JoinClause.number, j, after.map JoinClause.number⟩) ∨
      ∃ j ∈ js, on ∈ j.filter.ons := by
  induction js generalizing front with
  | nil => exact absurd h List.not_mem_nil
  | cons j js ih =>
    rw [joinsOns, List.mem_cons, List.mem_append] at h
    rcases h with rfl | h | h
    · exact .inl ⟨[], j, js, rfl, by simp⟩
    · exact .inr ⟨j, List.mem_cons_self, h⟩
    · rcases ih h with ⟨before, j', after, rfl, rfl⟩ | ⟨j', hj', hon⟩
      · exact .inl ⟨j :: before, j', after, rfl, by simp⟩
      · exact .inr ⟨j', List.mem_cons_of_mem _ hj', hon⟩

theorem numbers_subset_opened (number : Nat) (joins : List (JoinClause Predicate)) (ns : List Nat) :
    number :: joins.map JoinClause.number ⊆ number :: (joinsOpened joins ++ ns) := by
  refine List.cons_subset_cons _ fun n hn => List.mem_append_left _ (mem_joinsOpened.2 ?_)
  obtain ⟨j, hj, rfl⟩ := List.mem_map.1 hn
  exact ⟨j, hj, .inl rfl⟩

mutual

/-- A named column is free, or of a table that is brought in. -/
theorem free_or_opened : ∀ (p : Predicate) {c : Column}, c ∈ p.columns →
    c ∈ p.free ∨ c.isOf p.opened = true
  | .absent, _, h => .inl h
  | .filled _ _, _, h => .inl h
  | .membership _ _ _, _, h => .inl h
  | .group _ parts, _, h => free_or_openedOf parts h
  | .negate inner, _, h => free_or_opened inner h
  | .related _ ⟨_, number, link, joins, enforced⟩ inner, c, h => by
    have hparts : c ∈ Equality.columns link ++ (joinsFree joins ++ (enforced.free ++ inner.free)) ∨
        c.isOf (joinsOpened joins ++ (enforced.opened ++ inner.opened)) = true := by
      have hjoins : c ∈ joinsColumns joins → _ := joins_free_or_opened joins
      have henforced : c ∈ enforced.columns → _ := free_or_opened enforced
      have hinner : c ∈ inner.columns → _ := free_or_opened inner
      rw [columns] at h
      simp only [List.mem_append, Column.isOf_append, Bool.or_eq_true] at h ⊢
      tauto
    rw [free, opened]
    rcases hparts with hfree | hopened
    · by_cases hown : c.isOf (number :: joins.map JoinClause.number) = true
      · exact .inr (Column.isOf_mono (numbers_subset_opened _ _ _) hown)
      · exact .inl (List.mem_filter.2 ⟨hfree, by simpa using hown⟩)
    · exact .inr (Column.isOf_mono (List.subset_cons_self _ _) hopened)

theorem free_or_openedOf : ∀ (ps : List Predicate) {c : Column}, c ∈ columnsOf ps →
    c ∈ freeOf ps ∨ c.isOf (openedOf ps) = true
  | [], _, h => .inl h
  | p :: ps, c, h => by
    have hfirst : c ∈ p.columns → _ := free_or_opened p
    have hrest : c ∈ columnsOf ps → _ := free_or_openedOf ps
    rw [columnsOf] at h
    rw [freeOf, openedOf]
    simp only [List.mem_append, Column.isOf_append, Bool.or_eq_true] at h ⊢
    tauto

theorem joins_free_or_opened : ∀ (js : List (JoinClause Predicate)) {c : Column},
    c ∈ joinsColumns js → c ∈ joinsFree js ∨ c.isOf (joinsOpened js) = true
  | [], _, h => .inl h
  | ⟨type, model, number, link, ⟨enforced, requested⟩⟩ :: js, c, h => by
    have henforced : c ∈ enforced.columns → _ := free_or_opened enforced
    have hrequested : c ∈ requested.columns → _ := free_or_opened requested
    have hrest : c ∈ joinsColumns js → _ := joins_free_or_opened js
    have hparts : c ∈ joinsFree (⟨type, model, number, link, ⟨enforced, requested⟩⟩ :: js) ∨
        c.isOf (enforced.opened ++ requested.opened ++ joinsOpened js) = true := by
      rw [joinsColumns] at h
      rw [joinsFree]
      simp only [List.mem_append, Column.isOf_append, Bool.or_eq_true] at h ⊢
      tauto
    exact hparts.imp_right (Column.isOf_mono (List.subset_cons_self _ _))

end
end Predicate
end QueryCompiler
