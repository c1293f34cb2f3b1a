import QueryCompiler.Operator
import QueryCompiler.Dialect.Basic
import QueryCompiler.Json

/-!
# Errors

Why a request cannot be compiled. A fault is a cause; `CompileError` says what it is a fault of, and
`CompileError.message` puts both into words.
-/

namespace QueryCompiler

/-- How a table is joined. -/
inductive JoinType where
  | left
  | right
  | inner
  | full
  deriving DecidableEq, Repr, Inhabited

/-- The join's SQL word. -/
def JoinType.word : JoinType → String
  | .left => "LEFT"
  | .right => "RIGHT"
  | .inner => "INNER"
  | .full => "FULL"

/-- Whether the join keeps unmatched rows of the joined table. -/
def JoinType.keepsJoined : JoinType → Bool
  | .right | .full => true
  | .left | .inner => false

/-- Where joins that keep unmatched rows of the joined table have no place. -/
inductive JoinPlace where
  | existsSubquery
  | existenceCheck
  deriving DecidableEq, Repr

/-- The place in words. -/
def JoinPlace.description : JoinPlace → String
  | .existsSubquery => "an exists subquery"
  | .existenceCheck => "an existence check"

/-! ## Faults -/

/-- What is wrong with a field or a path. -/
inductive FieldFault where
  | unknown
  | notPermitted
  | notBasic
  | wildcardMisplaced
  | notRelation (path : String)
  | unknownSubField
  | groupDepth
  | notJoined
  | groupAsColumn
  | relationAsColumn
  | existsOverColumn
  | relationOnSingleTable
  | existsOnSingleTable
  | other (message : String)
  deriving DecidableEq, Repr

/-- The fault in words. -/
def FieldFault.message : FieldFault → String
  | .unknown => "does not exist"
  | .notPermitted => "is not permitted"
  | .notBasic => "is not a basic field"
  | .wildcardMisplaced => "wildcard is not allowed here"
  | .notRelation path => s!"is not a relationship; cannot resolve '{path}'"
  | .unknownSubField => "group sub-field does not exist"
  | .groupDepth => "group fields have a single level of sub-fields"
  | .notJoined => "relationship is not joined"
  | .groupAsColumn => "group field needs a sub-field"
  | .relationAsColumn => "relationship cannot be used as a column"
  | .existsOverColumn => "exists requires a relationship field"
  | .relationOnSingleTable => "relationship paths cannot be resolved on a single table"
  | .existsOnSingleTable => "exists conditions cannot be resolved on a single table"
  | .other message => message

/-- What is wrong with a condition or with the values bound for it. -/
inductive ConditionFault where
  | emptyCollection (op : Operator)
  | unresolvedExists (path : String)
  | unfilteredDelete (model : String)
  | unterminatedPlaceholder (rest : String)
  | unboundParameter (path : String)
  | other (message : String)
  deriving DecidableEq, Repr

/-- The fault in words. -/
def ConditionFault.message : ConditionFault → String
  | .emptyCollection op => s!"'{op.name}' requires a non-empty collection value"
  | .unresolvedExists path => s!"exists condition on '{path}' requires a field resolver"
  | .unfilteredDelete model => s!"delete on [{model}] requires a non-empty condition"
  | .unterminatedPlaceholder rest => s!"unterminated placeholder in: {rest}"
  | .unboundParameter path => s!"unbound parameter '{path}'"
  | .other message => message

/-- What is wrong with a join. -/
inductive JoinFault where
  | keepsJoined (type : JoinType) (place : JoinPlace)
  | notRelation
  | columnCounts (child : Nat) (childModel : String) (parent : Nat) (parentModel : String)
  | parentColumnCounts
  | other (message : String)
  deriving DecidableEq, Repr

/-- The fault in words. -/
def JoinFault.message : JoinFault → String
  | .keepsJoined type place => s!"{type.word} JOIN is not allowed in {place.description}"
  | .notRelation => "join path must end at a relationship field"
  | .columnCounts child childModel parent parentModel =>
    s!"join columns do not pair up ({child} on {childModel}, {parent} on {parentModel})"
  | .parentColumnCounts => "parent columns do not pair up with the primary key"
  | .other message => message

/-- What a dialect has no syntax for. -/
inductive DialectFault where
  | booleanSearch
  | search
  | vectorDistance
  | other (message : String)
  deriving DecidableEq, Repr

/-- The fault in words. -/
def DialectFault.message : DialectFault → String
  | .booleanSearch => "full-text search does not support BOOLEAN mode"
  | .search => "full-text search is not supported"
  | .vectorDistance => "vector distance is not supported"
  | .other message => message

/-- What is wrong with the settings. -/
inductive SettingsFault where
  | unknownDialect (name : String)
  | unreadable
  | other (message : String)
  deriving DecidableEq, Repr

/-- The fault in words. -/
def SettingsFault.message : SettingsFault → String
  | .unknownDialect name => s!"unknown dialect '{name}'"
  | .unreadable => "the document is not a table of settings"
  | .other message => message

/-! ## Errors -/

/-- Why a request cannot be compiled. -/
inductive CompileError where
  | field (model field : String) (fault : FieldFault)
  | condition (fault : ConditionFault)
  | unsupported (dialect : String) (fault : DialectFault)
  | join (model field : String) (fault : JoinFault)
  | unregistered (model field target : String)
  | notHierarchical (model : String)
  | unknownModel (name : String)
  | settings (fault : SettingsFault)
  deriving DecidableEq, Repr

/-- Who can mend an error. -/
inductive ErrorClass where
  | caller
  | unsupported
  | settings
  deriving DecidableEq, Repr

/-- The class's name. -/
def ErrorClass.name : ErrorClass → String
  | .caller => "caller"
  | .unsupported => "unsupported"
  | .settings => "config"

/-- The part of the compiler that raises an error. -/
inductive ErrorOrigin where
  | condition
  | settings
  | joins
  | recursion
  deriving DecidableEq, Repr

/-- The origin's name. -/
def ErrorOrigin.name : ErrorOrigin → String
  | .condition => "condition"
  | .settings => "config"
  | .joins => "join_graph"
  | .recursion => "recursive"

/-- The origin's name in a public report. -/
def ErrorOrigin.publicName : ErrorOrigin → String
  | .condition => "Condition"
  | .settings => "Config"
  | .joins => "JoinGraph"
  | .recursion => "Recursive"

/-- The public kinds of error. All but `settings` are kinds of compile error. -/
inductive PublicKind where
  | invalidField
  | invalidCondition
  | invalidJoin
  | notHierarchical
  | unsupported
  | settings
  deriving DecidableEq, Repr

/-- The kind as it stands in a public report. -/
def PublicKind.toJson : PublicKind → Json
  | .invalidField => .object [("Compile", .text "InvalidField")]
  | .invalidCondition => .object [("Compile", .text "InvalidCondition")]
  | .invalidJoin => .object [("Compile", .text "InvalidJoin")]
  | .notHierarchical => .object [("Compile", .text "NotHierarchical")]
  | .unsupported => .object [("Compile", .text "Unsupported")]
  | .settings => .text "Config"

namespace CompileError

/-- The error in words. -/
def message : CompileError → String
  | .field model name fault => s!"model [{model}] field [{name}]: {fault.message}"
  | .condition fault => s!"condition parameter error: {fault.message}"
  | .unsupported dialect fault => s!"unsupported operation for dialect [{dialect}]: {fault.message}"
  | .join model name fault => s!"model [{model}] join field [{name}]: {fault.message}"
  | .unregistered model name target =>
    s!"model [{model}] field [{name}] references unregistered model [{target}]"
  | .notHierarchical model => s!"model [{model}] has no self-referencing relationship field"
  | .unknownModel name => s!"unknown model [{name}]"
  | .settings fault => s!"config error: {fault.message}"

/-- Who can mend the error. -/
def errorClass : CompileError → ErrorClass
  | .unsupported _ _ => .unsupported
  | .settings _ => .settings
  | _ => .caller

/-- The part of the compiler that raises the error. -/
def origin : CompileError → ErrorOrigin
  | .condition _ | .unsupported _ _ => .condition
  | .field _ _ _ | .join _ _ _ | .unregistered _ _ _ | .unknownModel _ => .joins
  | .notHierarchical _ => .recursion
  | .settings _ => .settings

/-- The public kind of the error. -/
def publicKind : CompileError → PublicKind
  | .field _ _ _ | .unknownModel _ => .invalidField
  | .condition _ => .invalidCondition
  | .join _ _ _ | .unregistered _ _ _ => .invalidJoin
  | .notHierarchical _ => .notHierarchical
  | .unsupported _ _ => .unsupported
  | .settings _ => .settings

/-- The public report of an error: its kind, its origin and its words. -/
def publicReport (e : CompileError) : Json :=
  .object [("kind", e.publicKind.toJson), ("origin", .text e.origin.publicName),
    ("message", .text e.message)]

end CompileError
end QueryCompiler
