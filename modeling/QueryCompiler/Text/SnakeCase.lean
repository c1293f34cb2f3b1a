import QueryCompiler.Text.LetterCase

/-!
# Snake case

Column names that are not given follow from field names: the name is cut into words, each word is
written small, and the words are joined by `_`.
-/

namespace QueryCompiler.Text

/-- Characters that part two words and belong to neither. -/
def isWordSeparator (c : Char) : Bool :=
  c == '_' || c == '-' || c == ' '

/-- Whether a word ends with `c` when the text goes on with `rest`: where small turns capital, at
either side of digits, and before the last capital of a row of capitals that a small letter
follows. -/
def wordEndsAt (c : Char) (rest : List Char) : Bool :=
  match rest with
  | [] => false
  | d :: ds =>
    (isSmall c && (isCapital d || d.isDigit)) || (isCapital c && d.isDigit) ||
      (c.isDigit && (isSmall d || isCapital d)) ||
      (isCapital c && isCapital d && ds.head?.any isSmall)

/-- The first word of a text and the words after it. Words may be empty. -/
def wordsOf : List Char → List Char × List (List Char)
  | [] => ([], [])
  | c :: cs =>
    let (w, ws) := wordsOf cs
    if isWordSeparator c then ([], w :: ws)
    else if wordEndsAt c cs then ([c], w :: ws)
    else (c :: w, ws)

/-- The words of a text, written small and joined by `_`. -/
def snakeCase (s : String) : String :=
  let (w, ws) := wordsOf s.toList
  "_".intercalate ((w :: ws).map fun x => .ofList (lowerWord x))

end QueryCompiler.Text
