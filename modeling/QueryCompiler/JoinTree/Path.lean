import QueryCompiler.JoinTree.Basic

/-!
# Paths through a join tree

`find` follows a path through tables that are joined already. `reach` follows it too, and joins the
tables that are missing on the way.
-/

namespace QueryCompiler.JoinTree

/-- Follows `segment` and the segments after it from a table. -/
def findFrom (tree : JoinTree) (path : String) (checked : Bool) :
    List String → Table → String → Except CompileError (Table × Found)
  | [], t, segment => do
    let f ← t.access.field segment checked
    match f.kind with
    | .relation _ =>
      match tree.child? t segment with
      | some j => .ok (j.toTable, .field f)
      | none => .error (.field t.access.model.name path .notJoined)
    | _ => .ok (t, .field f)
  | next :: rest, t, segment => do
    let f ← t.access.field segment checked
    match f.kind with
    | .basic _ => .error (.field t.access.model.name segment (.notRelation path))
    | .group g =>
      match rest with
      | [] =>
        match g.member? next with
        | some b => .ok (t, .member f b)
        | none => .error (.field t.access.model.name path .unknownSubField)
      | _ :: _ => .error (.field t.access.model.name segment (.notRelation path))
    | .relation _ =>
      match tree.child? t segment with
      | some j => findFrom tree path checked rest j.toTable next
      | none => .error (.field t.access.model.name path .notJoined)

/-- The table and the field that a path leads to from a table, through joined tables. -/
def find (tree : JoinTree) (t : Table) (path : String) (checked : Bool) :
    Except CompileError (Table × Found) :=
  let (segment, rest) := Path.segments path
  tree.findFrom path checked rest t segment

/-- The table at the other end of a relationship; it is joined if it is not yet. -/
def join (catalog : Catalog) (tree : JoinTree) (t : Table) (name : String) (r : Relation) :
    Build (JoinTree × Joined) :=
  match tree.child? t name with
  | some j => pure (tree, j)
  | none => do
    let access ← Build.ofExcept (catalog.target t.access.model name r)
    let number ← Build.freshNumber
    Build.report (.joined access.model.name)
    let j : Joined :=
      { path := t.path ++ [name], number, access, link := ⟨name, r, t.number, t.access.model⟩ }
    return ({ tree with joined := tree.joined ++ [j] }, j)

/-- Follows `segment` and the segments after it from a table, and joins what is missing. A wildcard
may stand last where `wildcard` allows it. -/
def reachFrom (catalog : Catalog) (path : String) (checked wildcard : Bool) :
    List String → JoinTree → Table → String → Build (JoinTree × Table × Target)
  | [], tree, t, segment => do
    if segment = "*" then
      if wildcard then return (tree, t, .wildcard)
      else Build.reject (.field t.access.model.name path .wildcardMisplaced)
    else
      let f ← Build.ofExcept (t.access.field segment checked)
      match f.kind with
      | .relation r =>
        let (tree, j) ← tree.join catalog t segment r
        return (tree, j.toTable, .found (.field f))
      | _ => return (tree, t, .found (.field f))
  | next :: rest, tree, t, segment => do
    if segment = "*" then Build.reject (.field t.access.model.name path .wildcardMisplaced)
    else
      let f ← Build.ofExcept (t.access.field segment checked)
      match f.kind with
      | .basic _ => Build.reject (.field t.access.model.name segment (.notRelation path))
      | .group g =>
        match rest with
        | [] =>
          if next = "*" && wildcard then return (tree, t, .groupWildcard f)
          else
            match g.member? next with
            | some b => return (tree, t, .found (.member f b))
            | none => Build.reject (.field t.access.model.name path .unknownSubField)
        | _ :: _ => Build.reject (.field t.access.model.name path .groupDepth)
      | .relation r =>
        let (tree, j) ← tree.join catalog t segment r
        reachFrom catalog path checked wildcard rest tree j.toTable next

/-- The table and the field that a path leads to from a table, with all tables on the way joined. -/
def reach (catalog : Catalog) (tree : JoinTree) (t : Table) (path : String)
    (checked wildcard : Bool) : Build (JoinTree × Table × Target) :=
  let (segment, rest) := Path.segments path
  reachFrom catalog path checked wildcard rest tree t segment

/-! ## Joining what a query names -/

/-- Joins the tables on paths from a table, in the order of the paths. -/
def addPaths (catalog : Catalog) (tree : JoinTree) (t : Table) (paths : List String)
    (checked : Bool) : Build JoinTree :=
  (Keyed.setOf (paths.filter fun p => !p.isEmpty)).foldlM (fun tree path => do
    let (tree, _, _) ← tree.reach catalog t path checked false
    return tree) tree

/-- Adds an explicit join and the tables that its condition names. -/
def addJoin (catalog : Catalog) (tree : JoinTree) (join : Join) : Build JoinTree := do
  let model := tree.root.access.model.name
  match tree.place with
  | some place =>
    if join.type.keepsJoined then
      Build.reject (.join model join.path (.keepsJoined join.type place))
  | none => pure ()
  let (tree, t, target) ← tree.reach catalog tree.root join.path true false
  if target.isRelation then
    let paths := (join.condition.map Condition.joinPaths).getD []
    (tree.applyJoin t.path join).addPaths catalog t paths true
  else Build.reject (.join model join.path .notRelation)

/-- Adds explicit joins in the order of their paths. -/
def addJoins (catalog : Catalog) (tree : JoinTree) (joins : List Join) : Build JoinTree :=
  (Keyed.sortBy JoinOf.path joins).foldlM (addJoin catalog) tree

/-- Joins the tables that the enforced conditions name, for each table that is there at the start.
What is enforced is not subject to the caller's permissions. -/
def addEnforcedPaths (catalog : Catalog) (tree : JoinTree) : Build JoinTree :=
  tree.tables.foldlM (fun tree t =>
    let paths := ((t.access.enforced? t.ignoreDeleted).map Condition.joinPaths).getD []
    tree.addPaths catalog t paths false) tree

end QueryCompiler.JoinTree
