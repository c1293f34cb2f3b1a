import QueryCompiler.Proofs.JoinTree.Scopes

/-!
# What a caller's conditions read

`Grounded` ties a resolved predicate to the caller's condition: every column in it is one that a path
of the condition leads to, over relationships and by a field that the caller may name each, and so is
the relationship of every subquery. Inside a subquery the same holds of its explicit joins, of their
conditions and of the inner condition.
-/

namespace QueryCompiler

/-- Where paths are read: from one of the tables of a query, or from a table that stands alone. -/
inductive View where
  | tables (all : List Table) (start : Table)
  | alone (a : Access) (qualifier : Qualifier)

namespace View

/-- The path leads to the column, and the caller may name every field on the way. -/
def Reads (catalog : Catalog) : View → String → Column → Prop
  | .tables all start, path, column => ∃ hops last t b, Path.all path = hops ++ last ∧ t ∈ all ∧
      t.path = start.path ++ hops ∧ catalog.walk? true start.access hops = some t.access ∧
      t.access.Shows true last b ∧ column = ⟨.table t.number, b.column⟩
  | .alone a qualifier, path, column => ∃ b,
      a.Shows true ((Path.splitFirst path).1 :: (Path.splitFirst path).2.toList) b ∧
      column = ⟨qualifier, b.column⟩

/-- The path leads to a relationship with the model at its other end, and the caller may name every
field on the way and the relationship. -/
def Relates (catalog : Catalog) : View → String → Access → Prop
  | .tables all start, path, target => ∃ hops name t, Path.all path = hops ++ [name] ∧ t ∈ all ∧
      t.path = start.path ++ hops ∧ catalog.walk? true start.access hops = some t.access ∧
      catalog.hop? true t.access name = some target
  | .alone _ _, _, _ => False

end View

/-- The tables of a query about a model, its root first: explicit joins lead over fields that the
caller may name, and so do all tables but those that a permitted table is held to. -/
structure Reachable (catalog : Catalog) (a : Access) (joins : List Join) (root : Table)
    (rest : List Table) : Prop where
  path : root.path = []
  access : root.access = a
  explicit : ∀ join ∈ joins, ∃ t ∈ root :: rest, t.path = Path.all join.path ∧
    catalog.walk? true a t.path = some t.access
  others : ∀ t ∈ rest, catalog.walk? true a t.path = some t.access ∨
    ∃ owner ∈ root :: rest, catalog.walk? true a owner.path = some owner.access ∧
      JoinTree.EnforcedFrom owner t.path

mutual

/-- A predicate reads what the paths of the caller's condition lead to. -/
inductive Grounded (catalog : Catalog) : View → Condition → Predicate → Prop where
  | nothing {v : View} {path : String} {op : Operator} {value : Value} {skipEmpty : Bool} :
      Condition.comparesNothing path op value skipEmpty = true →
      Grounded catalog v (.compare path op value skipEmpty) .absent
  | compare {v : View} {path : String} {op : Operator} {value : Value} {skipEmpty : Bool}
      {column : Column} {base : String} {p : Predicate} : v.Reads catalog path column →
      op.resolve column base value = .ok p →
      Grounded catalog v (.compare path op value skipEmpty) p
  | group {v : View} {k : Connective} {cs : List Condition} {ps : List Predicate} :
      GroundedAll catalog v cs ps → Grounded catalog v (.group k cs) (.group k ps)
  | negate {v : View} {c : Condition} {p : Predicate} : Grounded catalog v c p →
      Grounded catalog v (.negate c) (.negate p)
  | custom {v : View} {template base : String} {paths : List String} {value : Option Value}
      {columns : List Column} {bindings : List Binding} :
      List.Forall₂ (v.Reads catalog) paths columns →
      Grounded catalog v (.custom template paths value) (.filled ⟨template, columns, base⟩ bindings)
  | search {v : View} {template path base : String} {value : Value} {mode : SearchMode}
      {column : Column} {bindings : List Binding} : v.Reads catalog path column →
      Grounded catalog v (.search path value mode) (.filled ⟨template, [column], base⟩ bindings)
  | nowhere {v : View} {path : String} {inner : Option Condition} {joins : List Join}
      {negated : Bool} : path.isEmpty = true →
      Grounded catalog v (.related path inner joins negated) .absent
  | some {v : View} {path : String} {joins : List Join} {negated : Bool} {a : Access} {root : Table}
      {rest : List Table} {link : List Equality} {clauses : List (JoinClause Predicate)}
      {enforced : Predicate} : v.Relates catalog path a → Reachable catalog a joins root rest →
      GroundedJoins catalog (root :: rest) joins clauses rest →
      Grounded catalog v (.related path none joins negated)
        (.related negated ⟨a.model, root.number, link, clauses, enforced⟩ .absent)
  | meeting {v : View} {path : String} {inner : Condition} {joins : List Join} {negated : Bool}
      {a : Access} {root : Table} {rest : List Table} {link : List Equality}
      {clauses : List (JoinClause Predicate)} {enforced p : Predicate} :
      v.Relates catalog path a → Reachable catalog a joins root rest →
      GroundedJoins catalog (root :: rest) joins clauses rest →
      Grounded catalog (.tables (root :: rest) root) inner p →
      Grounded catalog v (.related path (some inner) joins negated)
        (.related negated ⟨a.model, root.number, link, clauses, enforced⟩ p)

/-- `Grounded` of the members of a group. -/
inductive GroundedAll (catalog : Catalog) : View → List Condition → List Predicate → Prop where
  | nil {v : View} : GroundedAll catalog v [] []
  | cons {v : View} {c : Condition} {cs : List Condition} {p : Predicate} {ps : List Predicate} :
      Grounded catalog v c p → GroundedAll catalog v cs ps →
      GroundedAll catalog v (c :: cs) (p :: ps)

/-- The joins of a query are those of its tables, and what the caller asks of them is the condition
of an explicit join to the table. -/
inductive GroundedJoins (catalog : Catalog) : List Table → List Join → List (JoinClause Predicate) →
    List Table → Prop where
  | nil {all : List Table} {joins : List Join} : GroundedJoins catalog all joins [] []
  | silent {all rest : List Table} {joins : List Join} {clause : JoinClause Predicate}
      {clauses : List (JoinClause Predicate)} {t : Table} : clause.number = t.number →
      clause.model = t.access.model → clause.filter.requested = .absent →
      GroundedJoins catalog all joins clauses rest →
      GroundedJoins catalog all joins (clause :: clauses) (t :: rest)
  | asking {all rest : List Table} {joins : List Join} {clause : JoinClause Predicate}
      {clauses : List (JoinClause Predicate)} {t : Table} {join : Join} {c : Condition} :
      clause.number = t.number → clause.model = t.access.model → join ∈ joins →
      join.condition = some c → t.path = Path.all join.path →
      Grounded catalog (.tables all t) c clause.filter.requested →
      GroundedJoins catalog all joins clauses rest →
      GroundedJoins catalog all joins (clause :: clauses) (t :: rest)

end

end QueryCompiler
