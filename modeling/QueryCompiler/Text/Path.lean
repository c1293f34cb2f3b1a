/-!
# Dotted paths

A path such as `dept.company.name` is a text whose dots part its segments. A text without a dot is
one segment, and the empty text is one empty segment.
-/

namespace QueryCompiler.Path

/-- The first segment and the segments after it. -/
def segments (path : String) : String × List String :=
  match path.toList.splitOn '.' with
  | [] => ("", [])
  | s :: ss => (.ofList s, ss.map .ofList)

/-- The first segment. -/
def head (path : String) : String :=
  (segments path).1

/-- The text before the first dot, and the text after it if there is a dot. -/
def splitFirst (path : String) : String × Option String :=
  match path.toList.span (· ≠ '.') with
  | (a, []) => (.ofList a, none)
  | (a, _ :: b) => (.ofList a, some (.ofList b))

/-- The texts before and after the last dot; nothing if there is no dot. -/
def splitLast (path : String) : Option (String × String) :=
  match path.toList.reverse.span (· ≠ '.') with
  | (_, []) => none
  | (b, _ :: a) => some (.ofList a.reverse, .ofList b.reverse)

/-- The path of the owner of the last segment, where there is one. -/
def owner? (path : String) : Option String :=
  (splitLast path).map (·.1)

end QueryCompiler.Path
