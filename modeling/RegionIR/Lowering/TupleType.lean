import RegionIR.Rewrite.TableConverter

/-! Tuple types become struct types.

All structs that come from tuples have one name; they are told apart by their fields, which
are numbered in the order of the elements. -/

namespace RegionIR

/-- The name of the structs that come from tuples. -/
def tupleStructName : String := "_tupletoStruct"

/-- The name of a field. -/
def tupleFieldName (index : Nat) : String := "elemet_" ++ Nat.repr index

/-- The struct with the given element types as fields. -/
def Ty.structOfElements (elements : List Ty) : Ty :=
  .struct tupleStructName (elements.mapIdx fun i t => (tupleFieldName i, t))

/-- The struct of a tuple, its element types taken as they are. -/
def Ty.tupleToStruct (t : Ty) : Option Ty :=
  t.tupleElements.map Ty.structOfElements

/-- The converter that makes every tuple type a struct type. -/
def Converter.tuples : Converter :=
  [{ applies := Ty.isTuple, convert := Ty.tupleToStruct }]

/-- A struct type as an entry of a table. -/
def TypeNode.struct (name : String) (fields : List (String × Nat)) : TypeNode where
  dialect := "adt"
  name := "struct"
  params := []
  attrs :=
    [("fields", .list (fields.map fun f => .list [.symbol f.1, .type f.2])),
     ("name", .symbol name)]

/-- The struct of a tuple in a table, its element types taken as they are. -/
def TypeTable.tupleToStruct (i : Nat) : Interning Nat := do
  let node ← (← get).node i
  if node.is "core" "tuple" then
    put (.struct tupleStructName (node.params.mapIdx fun k t => (tupleFieldName k, t)))
  else failure

/-- The converter that makes every tuple type of a table a struct type. -/
def TableConverter.tuples : TableConverter :=
  [{ applies := fun table i => do return (← table.node i).is "core" "tuple"
     convert := TypeTable.tupleToStruct }]

end RegionIR
