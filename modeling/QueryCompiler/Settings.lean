import QueryCompiler.Dialect.Syntax

/-!
# Settings

What holds for all statements of a caller.
-/

namespace QueryCompiler

/-- The settings of a compiler. -/
structure Settings where
  dialect : Dialect := .mysql
  /-- The style of placeholders; if missing, that of the dialect. -/
  placeholder : Option PlaceholderStyle := none
  /-- The largest page; if missing or zero, pages are not bounded. -/
  maxPageSize : Option UInt32 := none
  /-- Whether the columns of a relationship are grouped unless a request says otherwise. -/
  nested : Bool := false
  deriving DecidableEq, Repr, Inhabited

/-- The style of placeholders in effect. -/
def Settings.placeholderStyle (s : Settings) : PlaceholderStyle :=
  s.placeholder.getD s.dialect.placeholderStyle

/-- A page size within the bound. -/
def Settings.pageSize (s : Settings) (requested : UInt32) : UInt32 :=
  match s.maxPageSize with
  | some bound => if 0 < bound && bound < requested then bound else requested
  | none => requested

end QueryCompiler
