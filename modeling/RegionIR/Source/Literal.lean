import RegionIR.Decimal.Binary64
import RegionIR.Source.Reader

/-! Readers of names and constants. -/

namespace RegionIR

namespace Reader

/-- A name: a letter or an underscore, then letters, digits and underscores. -/
def name : Reader String := do
  let c ← one Text.isNameStart
  let cs ← run Text.isWordChar
  return String.ofList (c :: cs)

/-- Letters, digits and underscores, at least one. -/
def word : Reader String := do
  return String.ofList (← run1 Text.isWordChar)

/-- A value name after its percent sign. -/
def valueName : Reader String := do
  char '%'
  word

/-- A block label after its caret. -/
def blockLabel : Reader String := do
  char '^'
  word

/-- A dialect and a name with a point between them. -/
def qualifiedName : Reader (String × String) := do
  let dialect ← name
  char '.'
  return (dialect, ← name)

/-- What a character after a backslash stands for; a character that needs no backslash
keeps it. -/
def unescape (c : Char) : List Char :=
  if c = 'n' then ['\n']
  else if c = 't' then ['\t']
  else if c = 'r' then ['\r']
  else if c = '"' then ['"']
  else if c = '\\' then ['\\']
  else ['\\', c]

/-- The text up to the closing quote. -/
def quotedTail : List Char → Reading (List Char)
  | [] => .fail []
  | '"' :: rest => .ok [] rest
  | ['\\'] => .fail []
  | '\\' :: c :: rest =>
    match quotedTail rest with
    | .ok cs rest => .ok (unescape c ++ cs) rest
    | .fail rest => .fail rest
  | c :: rest =>
    match quotedTail rest with
    | .ok cs rest => .ok (c :: cs) rest
    | .fail rest => .fail rest

/-- A quoted string. -/
def quoted : Reader String := do
  char '"'
  let tail : Reader (List Char) := quotedTail
  return String.ofList (← tail)

/-- A symbol: an at sign and a word or a quoted string. -/
def symbol : Reader String := do
  char '@'
  if (← ahead).head? = some '"' then quoted else word

/-- A decimal number without leading zeros. Of digits that start with a zero only the zero
is read. -/
def natural : Reader Nat := do
  let c ← one Char.isDigit
  if c = '0' then return 0
  else
    let cs ← run Char.isDigit
    return Nat.ofDigitChars 10 (c :: cs) 0

/-- The bits of an integer: numbers below `2 ^ 64`, and down to `-(2 ^ 63)` as two's complement. -/
def integer : Reader UInt64 := do
  let sign ← optional (char '-')
  let n ← natural
  if sign.isSome then
    if n ≤ Nat.pow 2 63 then return UInt64.ofNat (Nat.pow 2 64 - n) else fail
  else if n < Nat.pow 2 64 then return UInt64.ofNat n else fail

/-- An exponent of ten with its sign. -/
def exponent : Reader Int := do
  let _ ← one fun c => c == 'e' || c == 'E'
  let sign ← optional (one fun c => c == '+' || c == '-')
  let digits ← run1 Char.isDigit
  let n := Nat.ofDigitChars 10 digits 0
  return if sign = some '-' then -(n : Int) else n

/-- The bits of a float, which has digits on both sides of a point. -/
def float : Reader UInt64 := do
  let sign ← optional (char '-')
  let whole ← run1 Char.isDigit
  char '.'
  let fraction ← run1 Char.isDigit
  let exponent ← optional exponent
  let numeral : Decimal.Numeral :=
    ⟨Nat.ofDigitChars 10 (whole ++ fraction) 0, exponent.getD 0 - (fraction.length : Int)⟩
  return UInt64.ofNat (numeral.toBits + if sign.isSome then Decimal.signBit else 0)

end Reader

end RegionIR
