import QueryCompiler.Value.Basic

/-!
# Comparing values

Matching in memory compares numbers by what they are worth, however they are held. Whole numbers
compare exactly; beside a float, a whole number is rounded to a float first.
-/

namespace QueryCompiler.Value

/-- What a number is worth. -/
inductive Number where
  | whole (i : Int)
  | float (x : Float)

/-- The number that a value holds. -/
def number? : Value → Option Number
  | .int i => some (.whole i.toInt)
  | .uint u => some (.whole u.toNat)
  | .float x => some (.float x)
  | _ => none

/-- How two floats compare; not at all if one is no number. -/
def compareFloats (a b : Float) : Option Ordering :=
  if a < b then some .lt else if a == b then some .eq else if b < a then some .gt else none

/-- How two numbers compare. -/
def Number.compare : Number → Number → Option Ordering
  | .whole a, .whole b => some (Ord.compare a b)
  | .whole a, .float b => compareFloats (.ofInt a) b
  | .float a, .whole b => compareFloats a (.ofInt b)
  | .float a, .float b => compareFloats a b

mutual

/-- Equality of matching: numbers by worth, lists item by item, all else structurally. -/
def looseEq : Value → Value → Bool
  | .list as, .list bs => looseEqItems as bs
  | a, b =>
    match a.number?, b.number? with
    | some x, some y => x.compare y == some .eq
    | _, _ => a == b

/-- Lists of one length whose items are loosely equal in pairs. -/
def looseEqItems : List Value → List Value → Bool
  | [], [] => true
  | a :: as, b :: bs => a.looseEq b && looseEqItems as bs
  | _, _ => false

end

/-- The order of two values of one comparable kind: numbers, truth values or texts. -/
def strictOrder? (a b : Value) : Option Ordering :=
  match a.number?, b.number? with
  | some x, some y => x.compare y
  | _, _ =>
    match a, b with
    | .bool p, .bool q => some (compare p q)
    | .text s, .text t => some (compare s t)
    | _, _ => none

end QueryCompiler.Value
