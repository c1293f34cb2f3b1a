/-!
# Binary64 magnitudes

A 64-bit float is a sign with a whole number of units of a power of two, an infinity, or no number.
-/

namespace QueryCompiler.Decimal

/-- What the bits of a 64-bit float stand for. A finite one is `mantissa * 2 ^ exponent`. -/
inductive Binary64 where
  | finite (negative : Bool) (mantissa : Nat) (exponent : Int)
  | infinite (negative : Bool)
  | nan
  deriving DecidableEq, Repr

/-- The exponent of the smallest floats. -/
def leastExponent : Int := -1074

/-- The number of fractions, which are 52 bits wide: the mantissa of a power of two. -/
def fractionUnits : Nat := 1 <<< 52

/-- Reads sign, exponent and fraction off the bits. -/
def Binary64.ofBits (bits : UInt64) : Binary64 :=
  let n := bits.toNat
  let negative := n >>> 63 == 1
  let e : Nat := (n >>> 52) % 2048
  let f : Nat := n % fractionUnits
  if e == 2047 then if f == 0 then .infinite negative else .nan
  else if e == 0 then .finite negative f leastExponent
  else .finite negative (fractionUnits + f) ((e : Int) - 1 + leastExponent)

/-- What a float stands for. -/
def Binary64.ofFloat (x : Float) : Binary64 :=
  .ofBits x.toBits

end QueryCompiler.Decimal
