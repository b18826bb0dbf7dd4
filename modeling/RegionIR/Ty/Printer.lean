import RegionIR.Decimal.Shortest
import RegionIR.Text.Join
import RegionIR.Text.Quoted
import RegionIR.Ty.Builtin

/-! The text of types and attributes.

A type is `dialect.name(params) {key = value, ...}`. The parentheses are left out when they
would be empty and no attributes follow, except on the empty tuple, which always has them. -/

namespace RegionIR

/-- Entries between braces, after a blank. -/
def dictText (entries : List String) : String :=
  " \x7b" ++ Text.joinWith ", " entries ++ "\x7d"

mutual

def Ty.text : Ty → String
  | .mk dialect name params attrs =>
    dialect ++ "." ++ name
      ++ (if params.isEmpty then
            if attrs.isEmpty && !(dialect == "core" && name == "tuple") then "" else "()"
          else "(" ++ Text.joinWith ", " (Ty.texts params) ++ ")")
      ++ (if attrs.isEmpty then "" else dictText (Ty.entryTexts attrs))

def Ty.texts : List Ty → List String
  | [] => []
  | t :: rest => t.text :: Ty.texts rest

def Ty.entryTexts : List (String × Attr Ty) → List String
  | [] => []
  | (key, a) :: rest => (key ++ " = " ++ Attr.text a) :: Ty.entryTexts rest

def Attr.text : Attr Ty → String
  | .unit => "unit"
  | .bool b => if b then "true" else "false"
  | .int bits => Nat.repr bits.toNat
  | .float bits => Decimal.floatText bits
  | .string s => Text.quote s
  | .symbol s => Text.symbol s
  | .type t => t.text
  | .list items => "[" ++ Text.joinWith ", " (Attr.texts items) ++ "]"

def Attr.texts : List (Attr Ty) → List String
  | [] => []
  | a :: rest => Attr.text a :: Attr.texts rest

end

end RegionIR
