import QueryCompiler.Decimal.Shortest

/-!
# Layouts of decimals

A layout says how the digits of a number are chosen and set: where a tie goes, where positional
notation ends, what marks a whole number, and what stands for the values that are no numbers.
-/

namespace QueryCompiler.Decimal

/-- The decisions of one way to write floats. -/
structure Layout where
  /-- Which of two equally near shortest decimals is written. -/
  tie : Tie
  /-- The exponents of the leading digit that are written positionally. -/
  positional : Int → Bool
  /-- What follows a whole number that is written positionally. -/
  wholeMark : String
  nan : String
  infinity : String

/-- A number of zeros. -/
def zeros (n : Nat) : String :=
  .ofList (List.replicate n '0')

/-- The digits with the point at its place. -/
def Layout.writePositional (l : Layout) (x : Numeral) : String :=
  let ds := Nat.toDigits 10 x.digits
  let whole := (ds.length : Int) + x.exponent
  if 0 ≤ x.exponent then .ofList ds ++ zeros x.exponent.toNat ++ l.wholeMark
  else if 0 < whole then .ofList (ds.take whole.toNat) ++ "." ++ .ofList (ds.drop whole.toNat)
  else "0." ++ zeros (-whole).toNat ++ .ofList ds

/-- One digit before the point, and the exponent with its sign. -/
def writeScientific (x : Numeral) : String :=
  let ds := Nat.toDigits 10 x.digits
  let e := (ds.length : Int) - 1 + x.exponent
  let fraction := if ds.length ≤ 1 then "" else "." ++ .ofList ds.tail
  .ofList (ds.take 1) ++ fraction ++ "e" ++ (if e < 0 then "-" else "+") ++ Nat.repr e.natAbs

/-- The shortest text of a float in this layout. -/
def Layout.write (l : Layout) (x : Float) : String :=
  match Binary64.ofFloat x with
  | .nan => l.nan
  | .infinite negative => (if negative then "-" else "") ++ l.infinity
  | .finite negative m q =>
    let d := shortest l.tie m q
    let e := (digitCount d.digits : Int) - 1 + d.exponent
    (if negative then "-" else "") ++
      if m == 0 || l.positional e then l.writePositional d else writeScientific d

end QueryCompiler.Decimal
