import QueryCompiler.Value.Basic
import QueryCompiler.Decimal.Layout

/-!
# JSON

JSON trees, their compact text, and their reading as values. A whole number of JSON becomes a signed
value if it fits one, and an unsigned value otherwise.
-/

namespace QueryCompiler

/-- A JSON tree. A number is a natural, a negative whole number or a float. -/
inductive Json where
  | null
  | bool (b : Bool)
  | natural (n : UInt64)
  | negative (i : Int64)
  | float (x : Float)
  | text (s : String)
  | array (items : List Json)
  | object (members : List (String × Json))

namespace Json

instance : Inhabited Json := ⟨.null⟩

/-- Floats in JSON have a fraction or an exponent, and an exponent below -5 or above 15 is written.
A value that is no number is written as null. -/
def floatLayout : Decimal.Layout where
  tie := .toEven
  positional e := -5 ≤ e && e < 16
  wholeMark := ".0"
  nan := "null"
  infinity := "null"

/-- The text of a float. -/
def writeFloat (x : Float) : String :=
  if x.isFinite then floatLayout.write x else "null"

/-- One hexadecimal digit. -/
def hexDigit (n : Nat) : Char :=
  (Nat.toDigits 16 (n % 16)).headD '0'

/-- A character inside a JSON string. -/
def escapeChar (c : Char) : List Char :=
  if c == '\x22' then ['\\', '\x22']
  else if c == '\\' then ['\\', '\\']
  else if c == '\n' then ['\\', 'n']
  else if c == '\r' then ['\\', 'r']
  else if c == '\t' then ['\\', 't']
  else if c.toNat == 8 then ['\\', 'b']
  else if c.toNat == 12 then ['\\', 'f']
  else if c.toNat < 32 then ['\\', 'u', '0', '0', hexDigit (c.toNat / 16), hexDigit c.toNat]
  else [c]

/-- A text as a JSON string. -/
def quote (s : String) : String :=
  "\"" ++ .ofList (s.toList.flatMap escapeChar) ++ "\""

mutual

/-- The compact text of a tree, members in their order. -/
def render : Json → String
  | .null => "null"
  | .bool b => if b then "true" else "false"
  | .natural n => Nat.repr n.toNat
  | .negative i => Int.repr i.toInt
  | .float x => writeFloat x
  | .text s => quote s
  | .array items => "[" ++ ",".intercalate (renderItems items) ++ "]"
  | .object members => "\x7b" ++ ",".intercalate (renderMembers members) ++ "\x7d"

/-- The texts of an array's items. -/
def renderItems : List Json → List String
  | [] => []
  | j :: js => j.render :: renderItems js

/-- The texts of an object's members. -/
def renderMembers : List (String × Json) → List String
  | [] => []
  | (k, j) :: ms => (quote k ++ ":" ++ j.render) :: renderMembers ms

end

/-- A member of an object. -/
def member? (name : String) : Json → Option Json
  | .object members => Keyed.get? name members
  | _ => none

end Json

namespace Value

mutual

/-- A JSON tree as a value. A natural number is signed as long as its top bit is free. -/
def ofJson : Json → Value
  | .null => .null
  | .bool b => .bool b
  | .natural n => if n.toNat < UInt64.size / 2 then .int n.toInt64 else .uint n
  | .negative i => .int i
  | .float x => .float x
  | .text s => .text s
  | .array items => .list (ofJsonItems items)
  | .object members => .record (ofJsonMembers members)

/-- The items of an array as values. -/
def ofJsonItems : List Json → List Value
  | [] => []
  | j :: js => ofJson j :: ofJsonItems js

/-- The members of an object as fields. -/
def ofJsonMembers : List (String × Json) → List (String × Value)
  | [] => []
  | (k, j) :: ms => (k, ofJson j) :: ofJsonMembers ms

end

mutual

/-- A value as a JSON tree; how a number is held is not marked. -/
def toJson : Value → Json
  | .null => .null
  | .bool b => .bool b
  | .int i => if 0 ≤ i then .natural i.toUInt64 else .negative i
  | .uint u => .natural u
  | .float x => .float x
  | .text s => .text s
  | .list items => .array (toJsonItems items)
  | .record fields => .object (toJsonFields fields)

/-- The items of a list as JSON. -/
def toJsonItems : List Value → List Json
  | [] => []
  | v :: vs => v.toJson :: toJsonItems vs

/-- The fields of a record as JSON. -/
def toJsonFields : List (String × Value) → List (String × Json)
  | [] => []
  | (k, v) :: fs => (k, v.toJson) :: toJsonFields fs

end
end Value
end QueryCompiler
