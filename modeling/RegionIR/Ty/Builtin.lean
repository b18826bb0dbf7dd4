import RegionIR.Ty.Basic

/-! The types the dialects know: tuples, functions and structs.

A tuple `core.tuple(T0, ..., Tn)` is positional. A function type `core.func(R, P0, ..., Pn)`
has the result first. A struct `adt.struct` has no parameters; its attribute `name` is a
symbol and its attribute `fields` a list of pairs of a symbol and a type. The order of the
fields counts. -/

namespace RegionIR

namespace Ty

/-- A tuple type. -/
def tuple (elements : List Ty) : Ty :=
  .mk "core" "tuple" elements []

def isTuple (t : Ty) : Bool :=
  t.is "core" "tuple"

/-- The element types of a tuple. -/
def tupleElements (t : Ty) : Option (List Ty) :=
  if t.isTuple then some t.params else none

/-- The type of a function. -/
def function (params : List Ty) (result : Ty) : Ty :=
  .mk "core" "func" (result :: params) []

/-- The struct type with this name and these fields. -/
def struct (name : String) (fields : List (String × Ty)) : Ty :=
  .mk "adt" "struct" []
    [("fields", .list (fields.map fun f => .list [.symbol f.1, .type f.2])),
     ("name", .symbol name)]

def isStruct (t : Ty) : Bool :=
  t.is "adt" "struct"

/-- The name of a struct, if it has one. -/
def structName (t : Ty) : Option String :=
  if t.isStruct then (Dict.find? "name" t.attrs).bind Attr.asSymbol else none

/-- A pair of a symbol and a type, as the fields of a struct are kept. -/
def fieldOf : Attr Ty → Option (String × Ty)
  | .list [.symbol name, .type t] => some (name, t)
  | _ => none

/-- The fields of a struct in order, if they are well-formed. -/
def structFields (t : Ty) : Option (List (String × Ty)) :=
  if t.isStruct then
    (Dict.find? "fields" t.attrs).bind fun a => a.asList.bind fun items => items.mapM fieldOf
  else none

end Ty

end RegionIR
