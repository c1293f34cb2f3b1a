import QueryCompiler.Sql.Template
import QueryCompiler.Text.Fragment
import QueryCompiler.Model.Basic

/-!
# Predicates

A condition that has been resolved against tables is a predicate: a tree whose leaves name columns
and bind values. Its text and its bindings are read off the tree. A predicate without text asks for
nothing.
-/

namespace QueryCompiler

/-- What a table's rows are held to, and what the caller asks of them. -/
structure Filter (P : Type) where
  enforced : P
  requested : P

/-- A joined table of a model: how its columns are linked to the table it hangs on, and its
filter. -/
structure JoinClause (P : Type) where
  type : JoinType
  model : Model
  number : Nat
  link : List Equality
  filter : Filter P

/-- A subquery over the rows of a model related to a row of the query around it. -/
structure Subquery (P : Type) where
  model : Model
  number : Nat
  link : List Equality
  joins : List (JoinClause P)
  enforced : P

/-- A predicate on rows. -/
inductive Predicate where
  | absent
  | filled (sql : Filled) (bindings : List Binding)
  | membership (column : Column) (negated : Bool) (items : List Binding)
  | group (connective : Connective) (parts : List Predicate)
  | negate (inner : Predicate)
  /-- Some row of the subquery (or none) meets the inner predicate. -/
  | related (negated : Bool) (body : Subquery Predicate) (inner : Predicate)

namespace Predicate

instance : Inhabited Predicate := ⟨.absent⟩

/-- A further condition behind a text that is there already. -/
def andText (s : String) : String :=
  if s.isEmpty then "" else " AND " ++ s

/-- The negation of a text; nothing negated is nothing. -/
def negateText (s : String) : String :=
  if s.isEmpty then "" else Text.bracket ("NOT " ++ s)

/-- The text of a membership in the listed values. -/
def membershipText (column : Column) (negated : Bool) (items : List Binding) : String :=
  column.text ++ (if negated then " NOT IN (" else " IN (") ++
    ",".intercalate (items.map fun b => Params.placeholder b.path) ++ ")"

/-- The head of a join, up to its link. -/
def joinHead (type : JoinType) (model : Model) (number : Nat) (link : List Equality) : String :=
  " " ++ type.word ++ " JOIN " ++ model.qualifiedTable ++ " AS " ++ tableAlias number ++ " ON " ++
    Equality.texts link

mutual

/-- The text of a predicate. -/
def text : Predicate → String
  | .absent => ""
  | .filled sql _ => sql.text
  | .membership column negated items => membershipText column negated items
  | .group k parts => Text.joinFragments k (texts parts)
  | .negate inner => negateText inner.text
  | .related negated ⟨model, number, link, joins, enforced⟩ inner =>
    (if negated then "NOT EXISTS (" else "EXISTS (") ++ "SELECT 1 FROM " ++ model.qualifiedTable ++
      " AS " ++ tableAlias number ++ joinsText joins ++ " WHERE " ++ Equality.texts link ++
      andText enforced.text ++ andText inner.text ++ ")"

/-- The texts of the parts of a group. -/
def texts : List Predicate → List String
  | [] => []
  | p :: ps => p.text :: texts ps

/-- The text of joins. -/
def joinsText : List (JoinClause Predicate) → String
  | [] => ""
  | ⟨type, model, number, link, ⟨enforced, requested⟩⟩ :: js =>
    joinHead type model number link ++
      andText (Text.joinFragments .and [enforced.text, requested.text]) ++ joinsText js

end

mutual

/-- The values that a predicate binds, in the order of its text. -/
def bindings : Predicate → List Binding
  | .absent => []
  | .filled _ bs => bs
  | .membership _ _ items => items
  | .group _ parts => bindingsOf parts
  | .negate inner => inner.bindings
  | .related _ ⟨_, _, _, joins, enforced⟩ inner =>
    joinsBindings joins ++ enforced.bindings ++ inner.bindings

/-- The values that the parts of a group bind. -/
def bindingsOf : List Predicate → List Binding
  | [] => []
  | p :: ps => p.bindings ++ bindingsOf ps

/-- The values that joins bind. -/
def joinsBindings : List (JoinClause Predicate) → List Binding
  | [] => []
  | ⟨_, _, _, _, ⟨enforced, requested⟩⟩ :: js =>
    enforced.bindings ++ requested.bindings ++ joinsBindings js

end
end Predicate

/-- The text of a filter. -/
def Filter.text (f : Filter Predicate) : String :=
  Text.joinFragments .and [f.enforced.text, f.requested.text]

/-- The values that a filter binds. -/
def Filter.bindings (f : Filter Predicate) : List Binding :=
  f.enforced.bindings ++ f.requested.bindings

end QueryCompiler
