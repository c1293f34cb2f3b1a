import QueryCompiler.JoinTree.Path
import QueryCompiler.Condition.Resolve

/-!
# Scopes

A scope is a table of a join tree from which paths are read. Conditions over related rows open a
subquery with a join tree of its own; what that subquery enforces may open further ones, and `depth`
bounds how far this goes.
-/

namespace QueryCompiler

/-- A table from which paths are read. The caller's permissions are minded if `checked`. -/
structure Scope where
  tree : JoinTree
  table : Table
  checked : Bool

namespace Scope

/-- The column that a path leads to. -/
def column (s : Scope) (path : String) : Except CompileError Column := do
  let (t, found) ← s.tree.find s.table path s.checked
  match found with
  | .field f =>
    match f.kind with
    | .basic b => .ok ⟨.table t.number, b.column⟩
    | .group _ => .error (.field t.access.model.name path .groupAsColumn)
    | .relation _ => .error (.field s.table.access.model.name path .relationAsColumn)
  | .member _ b => .ok ⟨.table t.number, b.column⟩

/-- The table that owns the relationship at a path, and the relationship's name. -/
def owner (s : Scope) (path : String) : Except CompileError (Table × String) :=
  match Path.splitLast path with
  | none => .ok (s.table, path)
  | some (before, name) => do
    let (t, found) ← s.tree.find s.table before s.checked
    if found.isRelation then .ok (t, name)
    else .error (.field s.table.access.model.name before (.notRelation path))

/-- The relationship at a path. -/
def link (s : Scope) (path : String) : Except CompileError Link := do
  let (t, name) ← s.owner path
  let f ← t.access.field name s.checked
  match f.kind with
  | .relation r => .ok ⟨name, r, t.number, t.access.model⟩
  | _ => .error (.field t.access.model.name name .existsOverColumn)

end Scope

/-- The fields by which a relationship ties a row of its target to a row of its owner: the key of
the one side, and the fields of the relationship on the many side. -/
def Link.fields (l : Link) (child : Model) :
    Except CompileError (List BasicField × List BasicField) :=
  match l.relation.cardinality with
  | .one => do return (← child.keyFields, ← l.parentModel.basicFields l.relation.on)
  | .many => do return (← child.basicFields l.relation.on, ← l.parentModel.keyFields)

/-- The columns of a relationship in pairs, at least one. -/
def Link.equalities (l : Link) (t : Table) : Except CompileError (List Equality) := do
  let child := t.access.model
  let parent := l.parentModel
  let (childFields, parentFields) ← l.fields child
  if childFields.isEmpty || childFields.length != parentFields.length then
    .error (.join parent.name l.name
      (.columnCounts childFields.length child.name parentFields.length parent.name))
  else
    .ok ((childFields.zip parentFields).map fun p =>
      ⟨⟨.table t.number, p.1.column⟩, ⟨.table l.parentNumber, p.2.column⟩⟩)

/-! ## Filters and joins -/

namespace JoinTree

/-- The part of a request that the join of a table is. -/
def joinMark (t : Table) : String :=
  "j" ++ Nat.repr t.number

/-- What the rows of a table are held to. The caller's permissions do not bear on it. -/
def enforced (catalog : Catalog) (names : Names Scope) (tree : JoinTree) (t : Table)
    (mark : String) : Build Predicate :=
  Condition.resolve? catalog.dialect names (t.access.enforced? t.ignoreDeleted) ⟨tree, t, false⟩
    (mark ++ "0")

/-- What the rows of a table are held to, and what the caller asks of them. -/
def filter (catalog : Catalog) (names : Names Scope) (tree : JoinTree) (t : Table) (mark : String)
    (requested : Option Condition) : Build (Filter Predicate) := do
  let held ← tree.enforced catalog names t mark
  let asked ← Condition.resolve? catalog.dialect names requested ⟨tree, t, true⟩ (mark ++ "1")
  return ⟨held, asked⟩

/-- The join of a table. -/
def clause (catalog : Catalog) (names : Names Scope) (tree : JoinTree) (j : Joined) :
    Build (JoinClause Predicate) := do
  let link ← Build.ofExcept (j.link.equalities j.toTable)
  let filter ← tree.filter catalog names j.toTable (joinMark j.toTable) j.condition
  return ⟨j.type, j.access.model, j.number, link, filter⟩

/-- The joins of a query. -/
def clauses (catalog : Catalog) (names : Names Scope) (tree : JoinTree) :
    Build (List (JoinClause Predicate)) :=
  tree.inOrder.mapM (tree.clause catalog names)

/-- A tree with only a root. -/
def single (access : Access) : Build JoinTree := do
  let number ← Build.freshNumber
  return { root := { path := [], number, access } }

end JoinTree

/-! ## Subqueries -/

namespace Scope

/-- The subquery over the relationship at a path, and the scope inside it. `names` are those known
to what the subquery enforces and to the conditions of its joins. -/
def subquery (catalog : Catalog) (names : Names Scope) (s : Scope) (path : String)
    (joins : List Join) (paths : List String) : Build (Subquery Predicate × Scope) := do
  let link ← Build.ofExcept (s.link path)
  let access ← Build.ofExcept (catalog.target link.parentModel link.name link.relation)
  Build.report (.subquery access.model.name)
  let tree ← JoinTree.single access
  let tree ← { tree with place := some .existsSubquery : JoinTree }.addJoins catalog joins
  let tree ← tree.addPaths catalog tree.root paths s.checked
  let tree ← tree.addEnforcedPaths catalog
  let root := tree.root
  let equalities ← Build.ofExcept (link.equalities root)
  let clauses ← tree.clauses catalog names
  let enforced ← tree.enforced catalog names root (JoinTree.joinMark root)
  return (⟨access.model, root.number, equalities, clauses, enforced⟩,
    ⟨tree, root, s.checked⟩)

end Scope

/-- The names of a join tree. With no depth left, no subquery is opened. -/
def Names.ofTree (catalog : Catalog) : Nat → Names Scope
  | 0 => { column := Scope.column, subquery := fun _ _ _ _ => throw .tooDeep }
  | depth + 1 =>
    { column := Scope.column, subquery := Scope.subquery catalog (Names.ofTree catalog depth) }

/-- The names of one table that stands alone, read with or without regard to the caller's
permissions. -/
def Names.ofTable (access : Access) (qualifier : Qualifier) : Names Bool where
  column checked path := do
    let (name, rest) := Path.splitFirst path
    let f ← access.field name checked
    match f.kind, rest with
    | .basic b, none => .ok ⟨qualifier, b.column⟩
    | .basic _, some _ => .error (.field access.model.name name (.notRelation path))
    | .group g, some member =>
      match g.member? member with
      | some b => .ok ⟨qualifier, b.column⟩
      | none => .error (.field access.model.name path .unknownSubField)
    | .group _, none => .error (.field access.model.name path .groupAsColumn)
    | .relation _, _ => .error (.field access.model.name path .relationOnSingleTable)
  subquery _ path _ _ := Build.reject (.field access.model.name path .existsOnSingleTable)

end QueryCompiler
