import QueryCompiler.Toml.Space
import QueryCompiler.Toml.Number

/-!
# Quoted texts

The four forms of a text in TOML: on one line or on several, with escapes between double quotes and
without between single ones.
-/

namespace QueryCompiler.Toml

/-- A character by its code point in `n` hexadecimal digits. -/
def codePoint? (n : Nat) (s : List Char) : Option (Char × List Char) :=
  let ds := s.take n
  if ds.length == n && ds.all (fun c => (digit? 16 c).isSome) then
    match digits? 16 ds with
    | some v => if v.isValidChar then some (Char.ofNat v, s.drop n) else none
    | none => none
  else none

/-- The character behind a backslash. -/
def escape? : List Char → Option (Char × List Char)
  | 'b' :: cs => some (Char.ofNat 8, cs)
  | 't' :: cs => some ('\t', cs)
  | 'n' :: cs => some ('\n', cs)
  | 'f' :: cs => some (Char.ofNat 12, cs)
  | 'r' :: cs => some ('\r', cs)
  | 'e' :: cs => some (Char.ofNat 27, cs)
  | '\x22' :: cs => some ('\x22', cs)
  | '\\' :: cs => some ('\\', cs)
  | 'x' :: cs => codePoint? 2 cs
  | 'u' :: cs => codePoint? 4 cs
  | 'U' :: cs => codePoint? 8 cs
  | _ => none

/-- The rest of a text of one line, up to the mark `quote`; `escapes` says whether a backslash
escapes. At most `fuel` characters are read. -/
def lineText? (quote : Char) (escapes : Bool) : Nat → List Char → Option (List Char × List Char)
  | 0, _ => none
  | _, [] => none
  | fuel + 1, c :: cs =>
    if c == quote then some ([], cs)
    else if escapes && c == '\\' then do
      let (e, cs) ← escape? cs
      let (text, cs) ← lineText? quote escapes fuel cs
      return (e :: text, cs)
    else if isControl c then none
    else do
      let (text, cs) ← lineText? quote escapes fuel cs
      return (c :: text, cs)

/-- Blanks and line ends. -/
def skipLines : List Char → List Char
  | [] => []
  | '\r' :: '\n' :: cs => skipLines cs
  | c :: cs => if c == ' ' || c == '\t' || c == '\n' then skipLines cs else c :: cs

/-- The rest of a text of several lines, up to three marks `quote`, before which one or two more may
stand. A backslash at the end of a line joins the lines. -/
def blockText? (quote : Char) (escapes : Bool) : Nat → List Char → Option (List Char × List Char)
  | 0, _ => none
  | _, [] => none
  | fuel + 1, c :: cs =>
    let marks := ((c :: cs).takeWhile (· == quote)).length
    if 3 ≤ marks then
      if marks ≤ 5 then some (List.replicate (marks - 3) quote, (c :: cs).drop marks) else none
    else if escapes && c == '\\' then
      match lineEnd? (skipBlanks cs), cs with
      | some rest, _ :: _ => blockText? quote escapes fuel (skipLines rest)
      | _, _ => do
        let (e, cs) ← escape? cs
        let (text, cs) ← blockText? quote escapes fuel cs
        return (e :: text, cs)
    else if c == '\r' && cs.head? == some '\n' then blockText? quote escapes fuel cs
    else if isControl c && c != '\n' then none
    else do
      let (text, cs) ← blockText? quote escapes fuel cs
      return (c :: text, cs)

/-- A text in quotes. -/
def text? : List Char → Option (List Char × List Char)
  | a :: b :: c :: cs =>
    if (a == '\x22' || a == '\x27') && a == b && b == c then
      let body := match lineEnd? cs with
        | some rest => if cs.isEmpty then cs else rest
        | none => cs
      blockText? a (a == '\x22') (body.length + 1) body
    else if a == '\x22' || a == '\x27' then
      lineText? a (a == '\x22') (cs.length + 3) (b :: c :: cs)
    else none
  | [a, b] => if (a == '\x22' || a == '\x27') && a == b then some ([], []) else none
  | _ => none

end QueryCompiler.Toml
