import RegionIR.Context.Basic
import RegionIR.Ty.Builtin

/-! Type conversion.

A converter is a list of conversions. A type is converted from the inside out: first its
parameters and the types in its attributes, then the type so rebuilt by the first conversion
that applies to it, if any does. A type is legal when no conversion applies to it or to any
type in it; a legal type stays as it is. -/

namespace RegionIR

/-- A conversion of the types that it applies to; it may fail. -/
structure Conversion where
  applies : Ty → Bool
  convert : Ty → Option Ty

abbrev Converter := List Conversion

namespace Converter

/-- Whether some conversion applies to the type itself. -/
def touches (c : Converter) (t : Ty) : Bool :=
  c.any fun conversion => conversion.applies t

/-- The type after the first conversion that applies to the type itself. -/
def convertOuter (c : Converter) (t : Ty) : Option Ty :=
  match c.find? fun conversion => conversion.applies t with
  | some conversion => conversion.convert t
  | none => some t

mutual

/-- Whether no conversion applies to the type or to a type in it. -/
def isLegalType (c : Converter) : Ty → Bool
  | .mk d n ps as => !c.touches (.mk d n ps as) && areLegalTypes c ps && areLegalEntries c as

def areLegalTypes (c : Converter) : List Ty → Bool
  | [] => true
  | t :: rest => isLegalType c t && areLegalTypes c rest

def areLegalEntries (c : Converter) : List (String × Attr Ty) → Bool
  | [] => true
  | (_, a) :: rest => isLegalAttr c a && areLegalEntries c rest

/-- Whether no conversion applies to a type in the attribute. -/
def isLegalAttr (c : Converter) : Attr Ty → Bool
  | .type t => isLegalType c t
  | .list items => areLegalAttrs c items
  | _ => true

def areLegalAttrs (c : Converter) : List (Attr Ty) → Bool
  | [] => true
  | a :: rest => isLegalAttr c a && areLegalAttrs c rest

end

mutual

/-- The converted type; nothing when a conversion fails that is needed. -/
def convertType (c : Converter) : Ty → Option Ty
  | .mk d n ps as =>
    if c.isLegalType (.mk d n ps as) then some (.mk d n ps as)
    else do
      let ps ← convertTypes c ps
      let as ← convertEntries c as
      c.convertOuter (.mk d n ps as)

def convertTypes (c : Converter) : List Ty → Option (List Ty)
  | [] => some []
  | t :: rest => do
    let t ← convertType c t
    return t :: (← convertTypes c rest)

def convertEntries (c : Converter) : List (String × Attr Ty) → Option (List (String × Attr Ty))
  | [] => some []
  | (key, a) :: rest => do
    let a ← convertAttr c a
    return (key, a) :: (← convertEntries c rest)

/-- The attribute with every type in it converted. -/
def convertAttr (c : Converter) : Attr Ty → Option (Attr Ty)
  | .type t => do return .type (← convertType c t)
  | .list items => do return .list (← convertAttrs c items)
  | .unit => some .unit
  | .bool b => some (.bool b)
  | .int bits => some (.int bits)
  | .float bits => some (.float bits)
  | .string s => some (.string s)
  | .symbol s => some (.symbol s)

def convertAttrs (c : Converter) : List (Attr Ty) → Option (List (Attr Ty))
  | [] => some []
  | a :: rest => do
    let a ← convertAttr c a
    return a :: (← convertAttrs c rest)

end

/-- The converted type, or the type itself when it cannot be converted. -/
def convertOrKeep (c : Converter) (t : Ty) : Ty :=
  (c.convertType t).getD t

/-- Whether the types of the operands and results of an operation and the types in its
attributes are legal. -/
def isLegalOp (c : Converter) (ctx : Context) (id : OpId) : Except Fault Bool := do
  let op ← ctx.op id
  if ← op.operands.allM fun v => do return c.isLegalType (← ctx.typeOf v) then
    return op.resultTypes.all c.isLegalType && c.areLegalEntries op.attrs
  else return false

end Converter

end RegionIR
