/-!
# SQL fragments

Predicates are put together as text. Empty fragments contribute nothing, one fragment stands alone,
and several are joined by a connective and bracketed.
-/

namespace QueryCompiler

/-- How the members of a group of predicates are combined. -/
inductive Connective where
  | and
  | or
  deriving DecidableEq, Repr

/-- The connective's SQL word. -/
def Connective.word : Connective → String
  | .and => "AND"
  | .or => "OR"

namespace Text

/-- One pair of brackets encloses the text, and no second one opens in it. -/
def isBracketed (s : List Char) : Bool :=
  s.head? == some '(' && s.getLast? == some ')' && !s.tail.contains '('

/-- Encloses a non-empty text in brackets unless it already is one bracketed atom. -/
def bracket (s : String) : String :=
  if s.isEmpty then "" else if isBracketed s.toList then s else "(" ++ s ++ ")"

/-- Joins the non-empty parts; two or more are bracketed together. -/
def joinFragments (k : Connective) (parts : List String) : String :=
  match parts.filter fun p => !p.isEmpty with
  | [] => ""
  | [p] => p
  | ps => bracket ((" " ++ k.word ++ " ").intercalate ps)

@[simp] theorem bracket_empty : bracket "" = "" := rfl

@[simp] theorem joinFragments_nil (k : Connective) : joinFragments k [] = "" := rfl

end Text
end QueryCompiler
