import QueryCompiler.Settings
import QueryCompiler.Toml.Document

/-!
# Documents of settings

Settings are written down in TOML. What is chosen from a list of names stands there as a text, or as
a table with that name for its only key and nothing below it.
-/

namespace QueryCompiler.Settings

/-- The name that a node chooses. -/
def chosen? : Toml.Node → Option String
  | .text name => some name
  | .table _ [(name, .emptyList)] => some name
  | .table _ [(name, .table _ [])] => some name
  | _ => none

/-- Sets what an entry of a document says. -/
def set? (s : Settings) (key : String) (node : Toml.Node) : Option Settings :=
  match key, node with
  | "dialect", node =>
    ((chosen? node).bind Dialect.ofName?).map fun d => { s with dialect := d }
  | "placeholder", node =>
    ((chosen? node).bind PlaceholderStyle.ofName?).map fun p => { s with placeholder := some p }
  | "max_page_size", .int i =>
    if 0 ≤ i && i < UInt32.size then some { s with maxPageSize := some i.toNat.toUInt32 } else none
  | "nested_select", .bool b => some { s with nested := b }
  | _, _ => none

/-- The settings that a document holds. What it does not set is as ever. -/
def ofDocument (s : String) : Except CompileError Settings :=
  let settings := (Toml.parse? s).bind fun entries =>
    entries.foldlM (fun s e => s.set? e.1 e.2) ({} : Settings)
  match settings with
  | some settings => .ok settings
  | none => .error (.settings .unreadable)

/-- The settings as JSON, without those that are missing. -/
def toJson (s : Settings) : Json :=
  .object ([("dialect", .text s.dialect.name)] ++
    (s.placeholder.map fun p => ("placeholder", Json.text p.name)).toList ++
    (s.maxPageSize.map fun n => ("max_page_size", Json.natural n.toUInt64)).toList ++
    [("nested_select", .bool s.nested)])

end QueryCompiler.Settings
