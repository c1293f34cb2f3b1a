import QueryCompiler.Sql.Command
import QueryCompiler.Event
import QueryCompiler.Build

/-!
# Statements

A compiled request: its command, and the text and the values that go to the database. For drivers
that know values only by position, `lower` numbers the placeholders.
-/

namespace QueryCompiler

/-- A compiled request. -/
structure Statement where
  kind : StatementKind
  model : String
  dialect : Dialect
  command : Command

namespace Statement

/-- The SQL of a statement. -/
def sql (s : Statement) : String :=
  s.command.text s.dialect

/-- The bound values of a statement. -/
def params (s : Statement) : Params :=
  .ofBindings s.command.bindings

/-- The result columns of a statement. -/
def columns (s : Statement) : List ResultColumn :=
  s.command.columns

end Statement

/-! ## Placeholders by position -/

/-- A part of SQL as it is read for placeholders. -/
inductive Piece where
  | char (c : Char)
  | placeholder (content : List Char)
  /-- A placeholder that does not end. -/
  | unterminated (content : List Char)
  deriving DecidableEq, Repr

/-- Reads SQL for placeholders. Inside one, `content` is what has been read of it, in reverse. -/
def Piece.scan : Option (List Char) → List Char → List Piece
  | none, [] => []
  | none, '#' :: '\x7b' :: cs => scan (some []) cs
  | none, c :: cs => .char c :: scan none cs
  | some content, [] => [.unterminated content.reverse]
  | some content, c :: cs =>
    if c = '\x7d' then .placeholder content.reverse :: scan none cs
    else scan (some (c :: content)) cs

/-- The path that a placeholder names; options stand behind a comma. -/
def Piece.path (content : List Char) : String :=
  .ofList (Text.trimChars (content.takeWhile (· ≠ ',')))

/-- The mark of the value at place `n`, counted from 1. -/
def PlaceholderStyle.mark (style : PlaceholderStyle) (n : Nat) : List Char :=
  match style with
  | .question => ['?']
  | .numbered => '$' :: (Nat.repr n).toList

/-- Puts marks for placeholders, `n` of which have been passed, and lists the values in the order of
the marks. -/
def Piece.lower (style : PlaceholderStyle) (params : Params) :
    Nat → List Piece → Except CompileError (List Char × List Value)
  | _, [] => .ok ([], [])
  | n, .char c :: ps => do
    let (sql, values) ← lower style params n ps
    return (c :: sql, values)
  | n, .placeholder content :: ps =>
    match params.get? (path content) with
    | some v => do
      let (sql, values) ← lower style params (n + 1) ps
      return (style.mark (n + 1) ++ sql, v :: values)
    | none => .error (.condition (.unboundParameter (path content)))
  | _, .unterminated content :: _ =>
    .error (.condition (.unterminatedPlaceholder ("#\x7b" ++ .ofList content)))

/-- SQL with values by position. -/
structure Positional where
  sql : String
  values : List Value

/-- Lowers SQL with named values to SQL with values by position. -/
def lower (style : PlaceholderStyle) (sql : String) (params : Params) :
    Except CompileError Positional := do
  let (text, values) ← Piece.lower style params 0 (Piece.scan none sql.toList)
  return ⟨.ofList text, values⟩

/-- Lowers a statement. -/
def Statement.lower (s : Statement) (style : PlaceholderStyle) : Except CompileError Positional :=
  QueryCompiler.lower style s.sql s.params

end QueryCompiler
