/-!
# Whole numbers

The whole numbers of TOML: in base 10 with a sign, or in base 16, 8 or 2; underscores may part the
digits.
-/

namespace QueryCompiler.Toml

/-- The value of a digit in bases up to 16. -/
def digit? (base : Nat) (c : Char) : Option Nat :=
  let n :=
    if c.isDigit then c.toNat - '0'.toNat
    else if 'a' ≤ c && c ≤ 'f' then c.toNat - 'a'.toNat + 10
    else if 'A' ≤ c && c ≤ 'F' then c.toNat - 'A'.toNat + 10
    else 16
  if n < base then some n else none

/-- The value of digits behind a number; single underscores may part digits. -/
def digitsFrom? (base : Nat) : Nat → List Char → Option Nat
  | n, [] => some n
  | n, '_' :: c :: cs => (digit? base c).bind fun d => digitsFrom? base (n * base + d) cs
  | n, c :: cs => (digit? base c).bind fun d => digitsFrom? base (n * base + d) cs

/-- The value of one or more digits. -/
def digits? (base : Nat) : List Char → Option Nat
  | [] => none
  | c :: cs => (digit? base c).bind fun d => digitsFrom? base d cs

/-- The value of decimal digits, without a leading zero. -/
def decimal? : List Char → Option Nat
  | ['0'] => some 0
  | '0' :: _ => none
  | s => digits? 10 s

/-- A whole number, in base 10 with a sign or in base 16, 8 or 2 without. -/
def integer? : List Char → Option Int
  | '0' :: 'x' :: s => (digits? 16 s).map Int.ofNat
  | '0' :: 'o' :: s => (digits? 8 s).map Int.ofNat
  | '0' :: 'b' :: s => (digits? 2 s).map Int.ofNat
  | '+' :: s => (decimal? s).map Int.ofNat
  | '-' :: s => (decimal? s).map fun n => -(n : Int)
  | s => (decimal? s).map Int.ofNat

end QueryCompiler.Toml
