import QueryCompiler.Keyed

/-!
# Trees of tables

A TOML document is a tree of tables. How a table came to be decides what may still be added to it: a
table is named by one header at most, dotted keys add only to tables that dotted keys made, and what
stands in braces is complete. No key is given twice.
-/

namespace QueryCompiler.Toml

/-- How a table came to be. -/
inductive Origin where
  /-- By a header that names it. -/
  | header
  /-- By a header that names a table below it. -/
  | implied
  /-- By a dotted key. -/
  | dotted
  /-- Between braces. -/
  | braced
  deriving DecidableEq, Repr

/-- Whether a path that makes tables of the first origin passes through one of the second. -/
def Origin.passes : Origin → Origin → Bool
  | .dotted, o => o == .dotted
  | _, o => o != .braced

/-- A node of a document. Of lists only the empty one is kept. -/
inductive Node where
  | text (s : String)
  | int (i : Int)
  | bool (b : Bool)
  | emptyList
  | table (origin : Origin) (entries : List (String × Node))

/-- The nodes of a table by their keys. -/
abbrev Entries := List (String × Node)

/-- The place of a node: the tables on the way to it, and its key in the last of them. -/
structure KeyPath where
  parents : List String
  key : String
  deriving DecidableEq, Repr

/-- All keys of a place. -/
def KeyPath.toList (p : KeyPath) : List String :=
  p.parents ++ [p.key]

/-- Changes the table at the end of a path by `f`. Missing tables on the way are made with the
origin `made`. -/
def Entries.alterAt? (made : Origin) (f : Entries → Option Entries) :
    List String → Entries → Option Entries
  | [], es => f es
  | k :: ks, es =>
    match Keyed.get? k es with
    | none => (alterAt? made f ks []).map fun sub => Keyed.insert k (.table made sub) es
    | some (.table origin sub) =>
      if made.passes origin then
        (alterAt? made f ks sub).map fun sub => Keyed.insert k (.table origin sub) es
      else none
    | some _ => none

/-- Gives a place that is free a node. -/
def Entries.define? (p : KeyPath) (node : Node) (es : Entries) : Option Entries :=
  es.alterAt? .dotted (fun table =>
    match Keyed.get? p.key table with
    | none => some (Keyed.insert p.key node table)
    | some _ => none) p.parents

/-- Opens the table that a header names: a new one, or one that other headers only implied. -/
def Entries.openTable? (p : KeyPath) (es : Entries) : Option Entries :=
  es.alterAt? .implied (fun table =>
    match Keyed.get? p.key table with
    | none => some (Keyed.insert p.key (.table .header []) table)
    | some (.table .implied sub) => some (Keyed.insert p.key (.table .header sub) table)
    | some _ => none) p.parents

/-- What a line of a document says. -/
inductive Line where
  | header (p : KeyPath)
  | pair (p : KeyPath) (node : Node)

/-- What lines add to the table under the header `here`, and to those under the headers after it. -/
def Entries.addLines? : List String → Entries → List Line → Option Entries
  | _, es, [] => some es
  | _, es, .header p :: lines => (es.openTable? p).bind fun es => addLines? p.toList es lines
  | here, es, .pair p node :: lines =>
    (es.alterAt? .implied (fun table => table.define? p node) here).bind fun es =>
      addLines? here es lines

end QueryCompiler.Toml
