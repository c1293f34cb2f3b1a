import QueryCompiler.Decimal.Binary64

/-!
# Shortest decimals

The decimal with the fewest digits that reads back as a given positive float; of several with that
many digits, the one nearest to the float. If two are equally near, a rule for ties chooses.

A decimal reads back as `m * 2 ^ q` if it lies in the interval of the numbers that round to it. On a
grid `10 ^ k` the two neighbours of the float are tried, from coarse grids to fine ones: if a point
of a grid lies in the interval, so does one of these two.
-/

namespace QueryCompiler.Decimal

/-- The number `digits * 10 ^ exponent`. -/
structure Numeral where
  digits : Nat
  exponent : Int
  deriving DecidableEq, Repr

/-- How many decimal digits a number is written with. -/
def digitCount (n : Nat) : Nat :=
  (Nat.toDigits 10 n).length

/-- The exponent of the leading decimal digit of `m * 2 ^ q`, for `0 < m`. -/
def leadingExponent (m : Nat) (q : Int) : Int :=
  let n := m <<< q.toNat
  let d := 1 <<< (-q).toNat
  if d ≤ n then (digitCount (n / d) : Int) - 1 else -(digitCount ((d - 1) / n) : Int)

/-- The numbers that round to `m * 2 ^ q`, in quarters of its last binary place. -/
structure Interval where
  low : Nat
  high : Nat
  closed : Bool

/-- Half a place to both sides, but a quarter downwards where the places below are half as wide. The
ends round to the float if its mantissa is even. -/
def Interval.around (m : Nat) (q : Int) : Interval where
  low := if m == fractionUnits && q != leastExponent then 4 * m - 1 else 4 * m - 2
  high := 4 * m + 2
  closed := m % 2 == 0

/-- Whether `c * a`, on the scale where a quarter of a place is `b`, lies in the interval. -/
def Interval.holds (i : Interval) (a b c : Nat) : Bool :=
  if i.closed then i.low * b ≤ c * a && c * a ≤ i.high * b
  else i.low * b < c * a && c * a < i.high * b

/-- Which of two neighbours on a grid is taken if both are equally near. -/
inductive Tie where
  | toEven
  | upward
  deriving DecidableEq, Repr

/-- Whether a tie between `d` and `d + 1` goes to `d`. -/
def Tie.keeps (t : Tie) (d : Nat) : Bool :=
  match t with
  | .toEven => d % 2 == 0
  | .upward => false

/-- The point of the grid `10 ^ k` that reads back as `m * 2 ^ q` and is nearest to it, if one of
the neighbours does. -/
def onGrid? (t : Tie) (m : Nat) (q k : Int) : Option Numeral :=
  let a := Nat.pow 10 k.toNat <<< (2 - q).toNat
  let b := Nat.pow 10 (-k).toNat <<< (q - 2).toNat
  let v := 4 * m * b
  let d := v / a
  let i := Interval.around m q
  let below := v - d * a
  let above := (d + 1) * a - v
  match i.holds a b d, i.holds a b (d + 1) with
  | true, true => some ⟨if below < above || (below == above && t.keeps d) then d else d + 1, k⟩
  | true, false => some ⟨d, k⟩
  | false, true => some ⟨d + 1, k⟩
  | false, false => none

/-- Moves trailing zeros, at most `fuel`, into the exponent. -/
def Numeral.trimZeros : Nat → Numeral → Numeral
  | 0, x => x
  | fuel + 1, x =>
    if x.digits != 0 && x.digits % 10 == 0 then trimZeros fuel ⟨x.digits / 10, x.exponent + 1⟩
    else x

/-- The shortest decimal that reads back as `m * 2 ^ q`. Seventeen digits always do. -/
def shortest (t : Tie) (m : Nat) (q : Int) : Numeral :=
  if m == 0 then ⟨0, 0⟩
  else
    let e := leadingExponent m q
    match (List.range 17).findSome? fun (n : Nat) => onGrid? t m q (e - n) with
    | some x => x.trimZeros 20
    | none => ⟨m, q⟩

end QueryCompiler.Decimal
