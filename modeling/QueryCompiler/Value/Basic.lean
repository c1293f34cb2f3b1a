import QueryCompiler.Keyed
import QueryCompiler.Text.Path

/-!
# Values

The values that are bound into statements and read from rows in memory. Numbers keep how they are
held: as a signed or an unsigned whole number, or as a float.
-/

namespace QueryCompiler

/-- A dynamic value. A record's fields stand in the order of their names. -/
inductive Value where
  | null
  | bool (b : Bool)
  | int (i : Int64)
  | uint (u : UInt64)
  | float (x : Float)
  | text (s : String)
  | list (items : List Value)
  | record (fields : List (String × Value))

namespace Value

instance : Inhabited Value := ⟨.null⟩

/-- Null is the absence of a value. -/
def isNull : Value → Bool
  | .null => true
  | _ => false

/-- Null, the empty text, list and record count as no value given. -/
def isEmpty : Value → Bool
  | .null => true
  | .text s => s.isEmpty
  | .list items => items.isEmpty
  | .record fields => fields.isEmpty
  | _ => false

/-- The text of a text value. -/
def text? : Value → Option String
  | .text s => some s
  | _ => none

/-- The items of a list value. -/
def items? : Value → Option (List Value)
  | .list items => some items
  | _ => none

/-- The fields of a record value. -/
def fields? : Value → Option (List (String × Value))
  | .record fields => some fields
  | _ => none

/-- A field of a record. -/
def field? (name : String) (v : Value) : Option Value :=
  v.fields?.bind (Keyed.get? name)

/-- Follows field names through nested records. -/
def follow? : List String → Value → Option Value
  | [], v => some v
  | name :: names, v => (v.field? name).bind (follow? names)

/-- The value at a dotted path; every value on the way has to be a record with the next field. -/
def at? (path : String) (v : Value) : Option Value :=
  let (first, rest) := Path.segments path
  v.follow? (first :: rest)

/-! ## Structural equality -/

mutual

/-- Same kind of value and same content; numbers held differently differ. -/
def same : Value → Value → Bool
  | .null, .null => true
  | .bool a, .bool b => a == b
  | .int a, .int b => a == b
  | .uint a, .uint b => a == b
  | .float a, .float b => a == b
  | .text a, .text b => a == b
  | .list as, .list bs => sameItems as bs
  | .record as, .record bs => sameFields as bs
  | _, _ => false

/-- Item by item. -/
def sameItems : List Value → List Value → Bool
  | [], [] => true
  | a :: as, b :: bs => a.same b && sameItems as bs
  | _, _ => false

/-- Field by field. -/
def sameFields : List (String × Value) → List (String × Value) → Bool
  | [], [] => true
  | (k, a) :: as, (k', b) :: bs => k == k' && a.same b && sameFields as bs
  | _, _ => false

end

instance : BEq Value := ⟨same⟩

end Value
end QueryCompiler
