/-!
# Dialects

The database products whose SQL can be written.
-/

namespace QueryCompiler

/-- A database product. -/
inductive Dialect where
  | h2
  | mysql
  | oceanBase
  | oracle
  | postgresql
  | sqlite
  deriving DecidableEq, Repr, Inhabited

namespace Dialect

/-- The product's name. -/
def name : Dialect → String
  | .h2 => "h2"
  | .mysql => "mysql"
  | .oceanBase => "oceanbase"
  | .oracle => "oracle"
  | .postgresql => "postgresql"
  | .sqlite => "sqlite"

/-- All products, in the order of their names. -/
def all : List Dialect := [.h2, .mysql, .oceanBase, .oracle, .postgresql, .sqlite]

/-- The product of exactly this name. -/
def ofName? (s : String) : Option Dialect :=
  all.find? fun d => d.name == s

end Dialect

/-- How a full-text search reads its search text. -/
inductive SearchMode where
  | natural
  | boolean
  deriving DecidableEq, Repr, Inhabited

/-- The mode's name. -/
def SearchMode.name : SearchMode → String
  | .natural => "DEFAULT"
  | .boolean => "BOOLEAN"

/-- How placeholders look once they are numbered by position. -/
inductive PlaceholderStyle where
  | question
  | numbered
  deriving DecidableEq, Repr, Inhabited

/-- The style's name. -/
def PlaceholderStyle.name : PlaceholderStyle → String
  | .question => "question"
  | .numbered => "numbered"

/-- The style of exactly this name. -/
def PlaceholderStyle.ofName? (s : String) : Option PlaceholderStyle :=
  [PlaceholderStyle.question, .numbered].find? fun p => p.name == s

end QueryCompiler
