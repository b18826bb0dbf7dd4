import RegionIR.Ty.Basic

/-! Programs as they are written, with names in the place of numbers.

A source operation is what stands in a text: values and blocks are names, attributes are
listed in the order written, and the types in it may have their attributes in any order. -/

namespace RegionIR

/-- An operation as written, without its regions. The offset is the position of its first
byte in the text. -/
structure SourceHead where
  offset : Nat := 0
  results : List String := []
  dialect : String
  name : String
  symbol : Option String := none
  operands : List String := []
  successors : List String := []
  attrs : List (String × Attr Ty) := []
  resultTypes : List Ty := []

/-- The full name of an operation, with its dialect. -/
def SourceHead.fullName (h : SourceHead) : String := h.dialect ++ "." ++ h.name

mutual

inductive SourceOp where
  | mk (head : SourceHead) (regions : List SourceRegion)

inductive SourceRegion where
  | mk (blocks : List SourceBlock)

inductive SourceBlock where
  | mk (label : String) (args : List (String × Ty)) (ops : List SourceOp)

end

def SourceOp.head : SourceOp → SourceHead
  | .mk head _ => head

def SourceOp.regions : SourceOp → List SourceRegion
  | .mk _ regions => regions

def SourceRegion.blocks : SourceRegion → List SourceBlock
  | .mk blocks => blocks

def SourceBlock.label : SourceBlock → String
  | .mk label _ _ => label

def SourceBlock.args : SourceBlock → List (String × Ty)
  | .mk _ args _ => args

def SourceBlock.ops : SourceBlock → List SourceOp
  | .mk _ _ ops => ops

/-- The label of a block whose label is left out. -/
def SourceBlock.implicitLabel : String := "bb0"

end RegionIR
