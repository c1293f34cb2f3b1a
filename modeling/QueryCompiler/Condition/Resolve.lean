import QueryCompiler.Condition.Basic
import QueryCompiler.Dialect.Syntax
import QueryCompiler.Sql.Predicate
import QueryCompiler.Build

/-!
# Resolving conditions

A condition becomes a predicate once its paths have a meaning. `Names` gives them one: the column
that a path stands for in a scope, and the subquery over a relationship with the scope inside it.
-/

namespace QueryCompiler

/-- What paths stand for, in scopes of type `σ`. -/
structure Names (σ : Type) where
  column : σ → String → Except CompileError Column
  /-- The subquery over the relationship at a path, with its explicit joins and with the paths that
  the inner condition names, and the scope inside it. -/
  subquery : σ → String → List Join → List String → Build (Subquery Predicate × σ)

/-- Paths are columns as they stand, and no relationship is known. -/
def Names.verbatim : Names Unit where
  column _ path := .ok ⟨.bare, path⟩
  subquery _ path _ _ := Build.reject (.condition (.unresolvedExists path))

/-! ## Comparisons -/

/-- The items that a membership test runs over: those of a list, or a scalar itself; at least
one. -/
def Value.collection? : Value → Option (List Value)
  | .null => none
  | .list [] => none
  | .list items => some items
  | scalar => some [scalar]

namespace Operator

/-- The test that a column is among the items of the value. The operator named in the error is
`op`. -/
def membership (op : Operator) (negated : Bool) (column : Column) (base : String) (value : Value) :
    Except CompileError Predicate :=
  match value.collection? with
  | some items => .ok (.membership column negated (Binding.ofItems (Params.valuePath base) items))
  | none => .error (.condition (.emptyCollection op))

/-- A comparison by a fixed template. Only operators that read their value bind it. -/
def filled (op : Operator) (column : Column) (base : String) (value : Value) : Predicate :=
  let path := Params.valuePath base
  .filled ⟨op.template?.getD "", [column], path⟩ (if op.needsValue then [⟨path, value⟩] else [])

/-- The comparison of a column with a value that is bound under `base`. -/
def resolve (op : Operator) (column : Column) (base : String) (value : Value) :
    Except CompileError Predicate :=
  match op with
  | .isIn => membership .isIn false column base value
  | .notIn => membership .notIn true column base value
  | .eqOrIn =>
    match value with
    | .list [] => .error (.condition (.emptyCollection .eqOrIn))
    | .null => .error (.condition (.emptyCollection .eqOrIn))
    | .list [single] => .ok (filled .eq column base single)
    | .list items => membership .isIn false column base (.list items)
    | scalar => .ok (filled .eq column base scalar)
  | op => .ok (filled op column base value)

end Operator

/-! ## Conditions -/

namespace Names

/-- A template over the columns of paths. -/
def fill {σ : Type} (names : Names σ) (s : σ) (template : String) (paths : List String)
    (base : String) : Except CompileError Filled := do
  let columns ← paths.mapM (names.column s)
  return ⟨template, columns, Params.valuePath base⟩

end Names

namespace Condition

/-- The part of a group's member at place `i`. -/
def memberPath (base : String) (i : Nat) : String :=
  Params.childPath base ("c[" ++ Nat.repr i ++ "]")

/-- The part of the condition inside another one. -/
def innerPath (base : String) : String :=
  Params.childPath base "c"

mutual

/-- The predicate that a condition stands for. Its values are bound under `base`. -/
def resolve {σ : Type} (d : Dialect) (names : Names σ) : Condition → σ → String → Build Predicate
  | .compare path op value skipEmpty, s, base =>
    if comparesNothing path op value skipEmpty then pure .absent
    else do
      let column ← Build.ofExcept (names.column s path)
      Build.ofExcept (op.resolve column base value)
  | .group k members, s, base => do
    let parts ← resolveMembers d names members s base 0
    return .group k parts
  | .negate inner, s, base => do
    let p ← inner.resolve d names s (innerPath base)
    return .negate p
  | .related path none joins negated, s, _ =>
    if path.isEmpty then pure .absent
    else do
      let (body, _) ← names.subquery s path joins []
      return .related negated body .absent
  | .related path (some inner) joins negated, s, base =>
    if path.isEmpty then pure .absent
    else do
      let (body, s') ← names.subquery s path joins inner.joinPaths
      let p ← inner.resolve d names s' (innerPath base)
      return .related negated body p
  | .custom template paths value, s, base => do
    let sql ← Build.ofExcept (names.fill s template paths base)
    return .filled sql ((value.map (Binding.withItems (Params.valuePath base))).getD [])
  | .search path value mode, s, base => do
    let template ← Build.ofExcept (d.searchTemplate mode)
    let sql ← Build.ofExcept (names.fill s template [path] base)
    return .filled sql [⟨Params.valuePath base, value⟩]

/-- The predicates of the members of a group, from place `i` on. -/
def resolveMembers {σ : Type} (d : Dialect) (names : Names σ) :
    List Condition → σ → String → Nat → Build (List Predicate)
  | [], _, _, _ => return []
  | c :: cs, s, base, i => do
    let p ← c.resolve d names s (memberPath base i)
    let ps ← resolveMembers d names cs s base (i + 1)
    return p :: ps

end

/-- The predicate of a condition that may be missing. -/
def resolve? {σ : Type} (d : Dialect) (names : Names σ) (c : Option Condition) (s : σ)
    (base : String) : Build Predicate :=
  match c with
  | some c => c.resolve d names s base
  | none => pure .absent

end Condition
end QueryCompiler
