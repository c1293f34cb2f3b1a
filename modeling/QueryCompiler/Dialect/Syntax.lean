import QueryCompiler.Error
import QueryCompiler.Params
import QueryCompiler.Text.Blank

/-!
# What the dialects write differently

Full-text search, vector distance, aggregation into one text, quoting of names, paging, and the
words that open a recursive table.
-/

namespace QueryCompiler.Dialect

open Params (placeholder)

/-- The predicate of a full-text search over `$COL` and `EXPR`. -/
def searchTemplate : Dialect → SearchMode → Except CompileError String
  | .mysql, .boolean | .oceanBase, .boolean =>
    .ok "MATCH ($COL) AGAINST (#\x7bEXPR\x7d IN BOOLEAN MODE)"
  | .mysql, .natural | .oceanBase, .natural =>
    .ok "MATCH ($COL) AGAINST (#\x7bEXPR\x7d IN NATURAL LANGUAGE MODE)"
  | .postgresql, .natural =>
    .ok "to_tsvector('chinese', $COL) @@ to_tsquery('chinese', #\x7bEXPR\x7d)"
  | .postgresql, .boolean => .error (.unsupported postgresql.name .booleanSearch)
  | d, _ => .error (.unsupported d.name .search)

/-- The distance of two vectors over `$COL` and `EXPR`. Where the product tells them apart,
`approximate` asks for the search by an index. -/
def distanceTemplate : Dialect → (approximate : Bool) → Except CompileError String
  | .oceanBase, approximate =>
    .ok ("l2_distance($COL, #\x7bEXPR\x7d)" ++ if approximate then " APPROXIMATE" else "")
  | .mysql, _ => .ok "DISTANCE($COL, #\x7bEXPR\x7d, 'COSINE')"
  | .postgresql, _ => .ok "$COL <-> #\x7bEXPR\x7d"
  | d, _ => .error (.unsupported d.name .vectorDistance)

/-- The mark of an aggregation over distinct values. -/
def distinctMark (distinct : Bool) : String :=
  if distinct then "DISTINCT " else ""

/-- The values of a column in one text. -/
def listAggregate (d : Dialect) (column : String) (distinct : Bool) : String :=
  match d with
  | .h2 | .mysql | .oceanBase | .sqlite => "GROUP_CONCAT(" ++ distinctMark distinct ++ column ++ ")"
  | .postgresql => "STRING_AGG(" ++ distinctMark distinct ++ column ++ " , ',')"
  | .oracle => "LISTAGG(" ++ distinctMark distinct ++ column ++ " , ',')"

/-- The values of a column in one JSON array. -/
def jsonAggregate (d : Dialect) (column : String) (distinct : Bool) : String :=
  match d with
  | .h2 | .mysql | .oceanBase | .postgresql =>
    "JSON_ARRAYAGG(" ++ distinctMark distinct ++ column ++ ")"
  | .oracle => "JSONB_AGG(" ++ distinctMark distinct ++ column ++ ")"
  | .sqlite => "JSON_GROUP_ARRAY(" ++ distinctMark distinct ++ column ++ ")"

/-- The character that encloses a name. -/
def quoteMark : Dialect → Char
  | .mysql | .oceanBase => '\x60'
  | _ => '\x22'

/-- A name as an identifier: a quote mark inside it is written twice. -/
def quoteName (d : Dialect) (name : String) : String :=
  let q := d.quoteMark
  .ofList (q :: name.toList.flatMap (fun c => if c = q then [q, q] else [c]) ++ [q])

/-- The paging clause, given the paths of the row count and, past the first page, of the offset. -/
def limitClause (d : Dialect) (rows : String) (offset : Option String) : String :=
  match d, offset with
  | .oracle, some offset =>
    "OFFSET " ++ placeholder offset ++ " ROWS FETCH NEXT " ++ placeholder rows ++ " ROWS ONLY"
  | .oracle, none => "FETCH FIRST " ++ placeholder rows ++ " ROWS ONLY"
  | _, some offset => "LIMIT " ++ placeholder rows ++ " OFFSET " ++ placeholder offset
  | _, none => "LIMIT " ++ placeholder rows

/-- The words that open a recursive table expression. -/
def recursiveWith : Dialect → String
  | .oracle => "WITH"
  | _ => "WITH RECURSIVE"

/-- The style of placeholders that the product's drivers read. -/
def placeholderStyle : Dialect → PlaceholderStyle
  | .postgresql => .numbered
  | _ => .question

/-- The product that a text names, in any case and between blanks; some products have two names. -/
def parse (s : String) : Except CompileError Dialect :=
  let name := String.ofList ((Text.trimChars s.toList).map Char.toLower)
  match ofName? name with
  | some d => .ok d
  | none =>
    if name = "mariadb" then .ok .mysql
    else if name = "postgres" then .ok .postgresql
    else .error (.settings (.unknownDialect name))

end QueryCompiler.Dialect
