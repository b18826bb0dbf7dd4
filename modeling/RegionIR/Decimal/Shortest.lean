import RegionIR.Decimal.Binary64

/-! The shortest decimal text of a double.

Among the numerals that read back as a given double, the one with the fewest
digits is chosen, and of those the nearest to the double. It is written without
an exponent and always with a point. -/

namespace RegionIR.Decimal

/-- The numeral nearest to `num / den` on the grid of multiples of `10 ^ k`, of those
that read back as `bits`. Only the two neighbours of the number on the grid can be
nearest; a number halfway between them goes up. -/
def gridNumeral (bits num den : Nat) (k : Int) : Option Numeral :=
  let n := num * Nat.pow 10 (-k).toNat
  let d := den * Nat.pow 10 k.toNat
  let below : Numeral := ⟨n / d, k⟩
  let above : Numeral := ⟨n / d + 1, k⟩
  if below.toBits = bits then
    if above.toBits = bits ∧ d ≤ 2 * (n % d) then some above else some below
  else if above.toBits = bits then some above
  else none

/-- The least `p` with `num / den < 10 ^ p`. -/
def decimalWidth (num den : Nat) : Int :=
  if den ≤ num then digitCount (num / den)
  else 1 - (digitCount ((den - 1) / num) : Int)

/-- The numeral with the value `significand · 2 ^ exponent` exactly. -/
def exactNumeral (significand : Nat) (exponent : Int) : Numeral :=
  if 0 ≤ exponent then ⟨significand * Nat.pow 2 exponent.toNat, 0⟩
  else ⟨significand * Nat.pow 5 (-exponent).toNat, exponent⟩

/-- The shortest numeral that reads back as the double `significand · 2 ^ exponent`
with these `bits`: one to seventeen digits are tried in turn. -/
def shortest (bits significand : Nat) (exponent : Int) : Numeral :=
  let num := significand * Nat.pow 2 exponent.toNat
  let den := Nat.pow 2 (-exponent).toNat
  let width := decimalWidth num den
  ((List.range 17).findSome? fun (n : Nat) => gridNumeral bits num den (width - (n + 1 : Nat))).getD
    (exactNumeral significand exponent)

/-- A list of digits filled up with zeros in front. -/
def padLeft (width : Nat) (digits : List Char) : List Char :=
  List.replicate (width - digits.length) '0' ++ digits

/-- A list of digits without the zeros at its end. -/
def dropTrailingZeros (digits : List Char) : List Char :=
  (digits.reverse.dropWhile (· == '0')).reverse

/-- The digits before the point, and those after it without zeros at the end. -/
def Numeral.parts (n : Numeral) : List Char × List Char :=
  let places := (-n.exponent).toNat
  let c := n.coefficient * Nat.pow 10 n.exponent.toNat
  (Nat.toDigits 10 (c / Nat.pow 10 places),
    if places = 0 then []
    else dropTrailingZeros (padLeft places (Nat.toDigits 10 (c % Nat.pow 10 places))))

/-- The numeral with a point and at least one digit on either side of it. -/
def Numeral.text (n : Numeral) : String :=
  let (whole, fraction) := n.parts
  String.ofList (whole ++ '.' :: (if fraction.isEmpty then ['0'] else fraction))

/-- The text of a double. -/
def floatText (bits : UInt64) : String :=
  match Binary64.ofBits bits with
  | .nan => "NaN"
  | .infinite negative => if negative then "-inf" else "inf"
  | .finite negative significand exponent =>
    let magnitude := bits.toNat % signBit
    let n : Numeral :=
      if significand = 0 then ⟨0, 0⟩ else shortest magnitude significand exponent
    (if negative then "-" else "") ++ n.text

end RegionIR.Decimal
