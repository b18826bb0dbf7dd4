import RegionIR.Rewrite.Converter
import RegionIR.Ty.Table

/-! Type conversion in a table.

In a table a type is a number, and its conversion is another one: the components are converted
first, what is rebuilt from them is put into the table if it is not there yet, and the first
conversion that applies to it follows. What was put in stays, also when the conversion fails. -/

namespace RegionIR

/-- What reads a table, puts types into it and may come to nothing. -/
abbrev Interning (α : Type) := OptionT (StateT TypeTable (Except Fault)) α

namespace TypeTable

def node (table : TypeTable) (i : Nat) : Except Fault TypeNode :=
  match table.entries[i]? with
  | some node => .ok node
  | none => .error .outOfBounds

/-- Puts a type in and gives its number. -/
def put (node : TypeNode) : Interning Nat :=
  modifyGet fun table => ((table.intern node).2, (table.intern node).1)

/-- The number of the type `i` with other components; if they are the same it is `i`. -/
def rebuild (i : Nat) (node : TypeNode) (params : List Nat) (attrs : List (String × Attr Nat)) :
    Interning Nat :=
  if params = node.params ∧ attrs = node.attrs then return i
  else put { node with params, attrs }

end TypeTable

/-- A conversion of the entries that it applies to; it may fail. -/
structure TableConversion where
  applies : TypeTable → Nat → Except Fault Bool
  convert : Nat → Interning Nat

abbrev TableConverter := List TableConversion

namespace TableConverter

/-- Whether some conversion applies to the type itself. -/
def touches (c : TableConverter) (table : TypeTable) (i : Nat) : Except Fault Bool :=
  c.anyM fun conversion => conversion.applies table i

/-- Whether no conversion applies to a type or to a type in it, if at most `depth` types are
nested in each other. -/
def isLegalWithin (c : TableConverter) (table : TypeTable) : (depth : Nat) → Nat → Except Fault Bool
  | 0, _ => .error .cyclicOwnership
  | depth + 1, i => do
    if ← c.touches table i then return false
    let node ← table.node i
    if ← node.params.allM (c.isLegalWithin table depth) then
      node.attrs.allM fun e => e.2.allTypesM (c.isLegalWithin table depth)
    else return false

def isLegalType (c : TableConverter) (table : TypeTable) (i : Nat) : Except Fault Bool :=
  c.isLegalWithin table (i + 1) i

/-- The first conversion that applies to the type itself. -/
def applicable (c : TableConverter) (table : TypeTable) (i : Nat) :
    Except Fault (Option TableConversion) :=
  c.findM? fun conversion => conversion.applies table i

/-- The type after the first conversion that applies to the type itself. -/
def convertOuter (c : TableConverter) (i : Nat) : Interning Nat := do
  let table ← get
  match ← c.applicable table i with
  | some conversion => conversion.convert i
  | none => return i

/-- The converted type, if at most `depth` types are nested in each other. -/
def convertWithin (c : TableConverter) : (depth : Nat) → Nat → Interning Nat
  | 0, _ => liftM (Except.error Fault.cyclicOwnership : Except Fault Nat)
  | depth + 1, i => do
    let table ← get
    if ← c.isLegalWithin table (depth + 1) i then return i
    let node ← table.node i
    let params ← node.params.mapM (c.convertWithin depth)
    let attrs ← node.attrs.mapM fun e => do
      if e.2.containsType then return (e.1, ← e.2.mapTypesM (c.convertWithin depth)) else return e
    c.convertOuter (← TypeTable.rebuild i node params attrs)

/-- The number of the converted type, none when a conversion fails that is needed, and the
table with what was put in. -/
def convertType (c : TableConverter) (i : Nat) (table : TypeTable) :
    Except Fault (Option Nat × TypeTable) :=
  (c.convertWithin (i + 1) i).run.run table

end TableConverter

end RegionIR
