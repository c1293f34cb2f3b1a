import QueryCompiler.Toml.Quoted
import QueryCompiler.Toml.Tree

/-!
# Documents

A TOML document is read line by line into its tree. Fractions, dates and lists with elements are not
read.
-/

namespace QueryCompiler.Toml

/-! ## Keys -/

/-- A key: letters, digits, dashes and underscores, or a text in quotes on one line. -/
def key? : List Char → Option (String × List Char)
  | [] => none
  | c :: cs =>
    if c == '\x22' || c == '\x27' then
      (lineText? c (c == '\x22') (cs.length + 1) cs).map fun r => (.ofList r.1, r.2)
    else
      let isBare (d : Char) : Bool := d.isAlphanum || d == '_' || d == '-'
      let word := (c :: cs).takeWhile isBare
      if word.isEmpty then none else some (.ofList word, (c :: cs).dropWhile isBare)

/-- At most `fuel` keys, joined by points, and the blanks after them. -/
def keyPath? : Nat → List Char → Option (KeyPath × List Char)
  | 0, _ => none
  | fuel + 1, s => do
    let (key, s) ← key? s
    match skipBlanks s with
    | '.' :: s =>
      let (p, s) ← keyPath? fuel (skipBlanks s)
      return (⟨key :: p.parents, p.key⟩, s)
    | s => return (⟨[], key⟩, s)

/-- A key path and the value behind it, which `value` reads. -/
def pair? (value : List Char → Option (Node × List Char)) (s : List Char) :
    Option (KeyPath × Node × List Char) := do
  let (p, s) ← keyPath? (s.length + 1) s
  match s with
  | '=' :: s =>
    let (node, s) ← value (skipBlanks s)
    return (p, node, s)
  | _ => none

/-! ## Values -/

/-- A text, a truth value or a whole number. -/
def scalar? : List Char → Option (Node × List Char)
  | [] => none
  | c :: cs =>
    if c == '\x22' || c == '\x27' then
      (text? (c :: cs)).map fun r => (.text (.ofList r.1), r.2)
    else
      let isWord (d : Char) : Bool := d.isAlphanum || d == '_' || d == '-' || d == '+'
      let word := (c :: cs).takeWhile isWord
      let rest := (c :: cs).dropWhile isWord
      if word == "true".toList then some (.bool true, rest)
      else if word == "false".toList then some (.bool false, rest)
      else (integer? word).map fun i => (.int i, rest)

mutual

/-- A value. At most `fuel` braces and keys in braces are read. -/
def value? : Nat → List Char → Option (Node × List Char)
  | 0, _ => none
  | _, '[' :: cs =>
    match skipGaps? false cs with
    | some (']' :: rest) => some (.emptyList, rest)
    | _ => none
  | fuel + 1, '\x7b' :: cs =>
    (members? fuel [] cs).map fun r => (.table .braced r.1, r.2)
  | _, cs => scalar? cs

/-- The rest of a table in braces behind the entries `es`. A comma may follow the last entry. -/
def members? : Nat → Entries → List Char → Option (Entries × List Char)
  | 0, _, _ => none
  | fuel + 1, es, s =>
    match skipGaps? false s with
    | some ('\x7d' :: rest) => some (es, rest)
    | some s => do
      let (p, node, s) ← pair? (value? fuel) s
      let es ← es.define? p node
      match skipGaps? false s with
      | some (',' :: rest) => members? fuel es rest
      | some ('\x7d' :: rest) => some (es, rest)
      | _ => none
    | none => none

end

/-! ## Lines -/

/-- What a line that is not blank says. -/
def line? : List Char → Option (Line × List Char)
  | '[' :: cs => do
    let (p, s) ← keyPath? (cs.length + 1) (skipBlanks cs)
    match s with
    | ']' :: rest => return (.header p, rest)
    | _ => none
  | s => do
    let (p, node, rest) ← pair? (value? (s.length + 1)) s
    return (.pair p node, rest)

/-- At most `fuel` lines. -/
def lines? : Nat → List Char → Option (List Line)
  | 0, _ => none
  | fuel + 1, s =>
    if s.isEmpty then some []
    else
      match endLine? s with
      | some rest => lines? fuel rest
      | none => do
        let (line, s) ← line? (skipBlanks s)
        let rest ← endLine? s
        let lines ← lines? fuel rest
        return line :: lines

/-- The tree of a document, which may begin with a byte order mark. -/
def parse? (s : String) : Option Entries :=
  let cs := match s.toList with
    | c :: cs => if c.toNat == 0xFEFF then cs else c :: cs
    | [] => []
  (lines? (cs.length + 1) cs).bind (Entries.addLines? [] [])

end QueryCompiler.Toml
