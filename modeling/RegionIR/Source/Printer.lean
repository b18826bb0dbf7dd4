import RegionIR.Source.Basic
import RegionIR.Ty.Printer

/-! The text of a source operation.

An operation is written on one line up to its regions, with its symbol after its name:
`%0, %1 = d.n @symbol %2, %3 [^bb1] {key = value} : type, type {`. Operations in a region
are indented by two blanks, or by four below the label of their block. The label of an only
block without arguments is left out. -/

namespace RegionIR

def valueText (name : String) : String := "%" ++ name

def labelText (label : String) : String := "^" ++ label

/-- The line of an operation up to its regions. -/
def SourceHead.text (h : SourceHead) : String :=
  (if h.results.isEmpty then "" else Text.joinWith ", " (h.results.map valueText) ++ " = ")
    ++ h.fullName
    ++ (match h.symbol with
        | some s => " " ++ Text.symbol s
        | none => "")
    ++ (if h.operands.isEmpty then ""
        else " " ++ Text.joinWith ", " (h.operands.map valueText))
    ++ (if h.successors.isEmpty then ""
        else " [" ++ Text.joinWith ", " (h.successors.map labelText) ++ "]")
    ++ (if h.attrs.isEmpty then "" else dictText (Ty.entryTexts h.attrs))
    ++ (if h.resultTypes.isEmpty then ""
        else " : " ++ Text.joinWith ", " (Ty.texts h.resultTypes))

/-- The arguments of a block. -/
def argsText (args : List (String × Ty)) : String :=
  if args.isEmpty then ""
  else "(" ++ Text.joinWith ", " (args.map fun a => valueText a.1 ++ ": " ++ a.2.text) ++ ")"

mutual

def SourceOp.text (indent : Nat) : SourceOp → String
  | .mk head regions =>
    Text.spaces indent ++ head.text ++ SourceRegion.texts indent regions ++ "\n"

def SourceRegion.text (indent : Nat) : SourceRegion → String
  | .mk [.mk _ [] ops] => SourceOp.texts (indent + 2) ops
  | .mk blocks => SourceBlock.texts indent blocks

def SourceBlock.text (indent : Nat) : SourceBlock → String
  | .mk label args ops =>
    Text.spaces (indent + 2) ++ labelText label ++ argsText args ++ ":\n"
      ++ SourceOp.texts (indent + 4) ops

def SourceOp.texts (indent : Nat) : List SourceOp → String
  | [] => ""
  | op :: rest => op.text indent ++ SourceOp.texts indent rest

def SourceRegion.texts (indent : Nat) : List SourceRegion → String
  | [] => ""
  | r :: rest =>
    " \x7b\n" ++ r.text indent ++ Text.spaces indent ++ "\x7d" ++ SourceRegion.texts indent rest

def SourceBlock.texts (indent : Nat) : List SourceBlock → String
  | [] => ""
  | [b] => b.text indent
  | b :: c :: rest => b.text indent ++ "\n" ++ SourceBlock.texts indent (c :: rest)

end

end RegionIR
