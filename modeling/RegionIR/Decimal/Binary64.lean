/-! Double precision numbers and the decimal numerals that denote them.

A pattern of 64 bits is a sign, a biased exponent and a fraction. A numeral
`coefficient · 10 ^ exponent` denotes the double nearest to it; of two that are
equally near, the one with the even significand. -/

namespace RegionIR.Decimal

/-- What a pattern of 64 bits stands for; a finite one is the number
`significand · 2 ^ exponent`, negated when `negative` holds. -/
inductive Binary64 where
  | nan
  | infinite (negative : Bool)
  | finite (negative : Bool) (significand : Nat) (exponent : Int)
  deriving DecidableEq, Repr

/-- The bits of positive infinity, which is also the first pattern past the finite ones. -/
def infinityBits : Nat := 2047 * Nat.pow 2 52

/-- The sign bit. -/
def signBit : Nat := Nat.pow 2 63

def Binary64.ofBits (bits : UInt64) : Binary64 :=
  let n := bits.toNat
  let negative := decide (signBit ≤ n)
  let biased : Nat := n / Nat.pow 2 52 % 2048
  let fraction : Nat := n % Nat.pow 2 52
  if biased = 2047 then
    if fraction = 0 then .infinite negative else .nan
  else if biased = 0 then .finite negative fraction (-1074)
  else .finite negative (fraction + Nat.pow 2 52) (Int.ofNat biased - 1075)

/-- The exponent of the largest power of two that is at most `num / den`. -/
def floorLog2 (num den : Nat) : Int :=
  let gap : Int := (num.log2 : Int) - den.log2
  if den * Nat.pow 2 gap.toNat ≤ num * Nat.pow 2 (-gap).toNat then gap else gap - 1

/-- The quotient rounded to a whole number, a half to the even neighbour. -/
def divToEven (num den : Nat) : Nat :=
  let q := num / den
  let r := num % den
  if den < 2 * r ∨ (2 * r = den ∧ q % 2 = 1) then q + 1 else q

/-- The bits of the double nearest to `num / den`, infinity when that is past the
finite ones. Counting significands from the smallest exponent upwards gives the
bits directly, because a carry out of the significand moves to the next exponent. -/
def nearestBits (num den : Nat) : Nat :=
  if num = 0 then 0
  else
    let e := max (floorLog2 num den - 52) (-1074)
    let m := divToEven (num * Nat.pow 2 (-e).toNat) (den * Nat.pow 2 e.toNat)
    min ((e + 1074).toNat * Nat.pow 2 52 + m) infinityBits

/-- The number `coefficient · 10 ^ exponent`. -/
structure Numeral where
  coefficient : Nat
  exponent : Int
  deriving DecidableEq, Repr

/-- How many decimal digits `n` has; zero has one. -/
def digitCount (n : Nat) : Nat :=
  (Nat.toDigits 10 n).length

/-- The bits of the double that the numeral denotes. Numerals of `10 ^ 310` and more
are infinite and those below `10 ^ (-325)` are zero, whatever their digits. -/
def Numeral.toBits (n : Numeral) : Nat :=
  let size : Int := digitCount n.coefficient + n.exponent
  if n.coefficient = 0 then 0
  else if 310 < size then infinityBits
  else if size < -325 then 0
  else nearestBits (n.coefficient * Nat.pow 10 n.exponent.toNat) (Nat.pow 10 (-n.exponent).toNat)

end RegionIR.Decimal
