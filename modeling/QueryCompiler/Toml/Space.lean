/-!
# Blanks, comments and line ends

What may stand between the parts of a TOML document. Each reader returns the rest of the text.
-/

namespace QueryCompiler.Toml

/-- Characters that stand nowhere but in line ends. -/
def isControl (c : Char) : Bool :=
  (c.toNat < 32 && c != '\t') || c.toNat == 127

/-- Passes over spaces and tabs. -/
def skipBlanks (s : List Char) : List Char :=
  s.dropWhile fun c => c == ' ' || c == '\t'

/-- Passes over the rest of a comment. -/
def skipComment : List Char → Option (List Char)
  | [] => some []
  | '\n' :: cs => some ('\n' :: cs)
  | '\r' :: '\n' :: cs => some ('\r' :: '\n' :: cs)
  | c :: cs => if isControl c then none else skipComment cs

/-- Passes over a line end, or finds the text at its end. -/
def lineEnd? : List Char → Option (List Char)
  | [] => some []
  | '\n' :: cs => some cs
  | '\r' :: '\n' :: cs => some cs
  | _ => none

/-- Passes over blanks, a comment and the line end. -/
def endLine? (s : List Char) : Option (List Char) :=
  match skipBlanks s with
  | '#' :: cs => (skipComment cs).bind lineEnd?
  | cs => lineEnd? cs

/-- Passes over blanks, line ends and comments, from the inside of a comment if `comment` is set. -/
def skipGaps? : Bool → List Char → Option (List Char)
  | _, [] => some []
  | _, '\n' :: cs => skipGaps? false cs
  | _, '\r' :: '\n' :: cs => skipGaps? false cs
  | true, c :: cs => if isControl c then none else skipGaps? true cs
  | false, c :: cs =>
    if c == '#' then skipGaps? true cs
    else if c == ' ' || c == '\t' then skipGaps? false cs
    else some (c :: cs)

end QueryCompiler.Toml
