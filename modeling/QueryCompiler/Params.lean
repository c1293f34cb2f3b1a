import QueryCompiler.Json

/-!
# Parameters

Values are not written into SQL. They are bound to paths, and the SQL names the paths in
placeholders. A path tells which part of a request a value came from: `c1.c[0].v` is the value of
the first member of the caller's condition.
-/

namespace QueryCompiler

namespace Params

/-- A part of the request inside another part. -/
def childPath (base child : String) : String :=
  if base.isEmpty then child else base ++ "." ++ child

/-- The path of the value of a part of the request. -/
def valuePath (base : String) : String :=
  childPath base "v"

/-- The path of an item of a list that is bound to a path. -/
def itemPath (path : String) (i : Nat) : String :=
  path ++ "[" ++ Nat.repr i ++ "]"

/-- The placeholder of the value that is bound to a path. -/
def placeholder (path : String) : String :=
  "#\x7b" ++ path ++ "\x7d"

end Params

/-- A value and the path it is bound to. -/
structure Binding where
  path : String
  value : Value

/-- The bindings of the items of a list, at the places of the list. -/
def Binding.ofItems (path : String) (items : List Value) : List Binding :=
  items.zipIdx.map fun p => ⟨Params.itemPath path p.2, p.1⟩

/-- The bindings of a value of a template: a list is bound by its items and as a whole. -/
def Binding.withItems (path : String) (v : Value) : List Binding :=
  ofItems path (v.items?.getD []) ++ [⟨path, v⟩]

/-- The bound values of a statement, in the order of their paths. -/
abbrev Params := List (String × Value)

namespace Params

/-- Binds a value, in place of an earlier one at its path. -/
def bind (p : Params) (b : Binding) : Params :=
  Keyed.insert b.path b.value p

/-- The value at a path. -/
def get? (p : Params) (path : String) : Option Value :=
  Keyed.get? path p

/-- Binds values one after the other. -/
def ofBindings (bs : List Binding) : Params :=
  bs.foldl bind []

/-- The bag as JSON. -/
def toJson (p : Params) : Json :=
  (Value.record p).toJson

end Params
end QueryCompiler
