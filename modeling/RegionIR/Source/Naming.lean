import RegionIR.Context.Tree
import RegionIR.Source.Printer

/-! Names for the values and blocks of a tree.

Values are numbered in the order in which the text defines them, blocks in the order of
their labels; the number of a block whose label is left out is not used up. A value or block
that the text has not defined before its mention is called `?`. -/

namespace RegionIR

/-- The names given so far, latest first, and the next free numbers. -/
structure Names where
  values : List (ValueId × String) := []
  blocks : List (BlockId × String) := []
  nextValue : Nat := 0
  nextBlock : Nat := 0

namespace Names

abbrev Naming := StateM Names

/-- Names a value with the next number. -/
def defineValue (v : ValueId) : Naming String := do
  let names ← get
  let name := Nat.repr names.nextValue
  set { names with values := (v, name) :: names.values, nextValue := names.nextValue + 1 }
  return name

/-- Names a block with the next number. -/
def defineBlock (b : BlockId) : Naming Unit :=
  modify fun names =>
    { names with
      blocks := (b, "bb" ++ Nat.repr names.nextBlock) :: names.blocks
      nextBlock := names.nextBlock + 1 }

def value (names : Names) (v : ValueId) : String :=
  (names.values.lookup v).getD "?"

def block (names : Names) (b : BlockId) : String :=
  (names.blocks.lookup b).getD "bb?"

/-- The symbol that is written after the name of an operation. -/
def liftedSymbol (op : Op) : Option String :=
  (op.attrs.find? "sym_name").bind Attr.asSymbol

/-- An operation with names, once its operands are named. -/
def head (op : Op) : Naming SourceHead := do
  let results ← op.results.mapM defineValue
  let names ← get
  let symbol := liftedSymbol op
  return {
    results, dialect := op.dialect, name := op.name, symbol
    operands := op.operands.map names.value
    successors := op.successors.map names.block
    attrs := if symbol.isSome then op.attrs.filter (·.1 ≠ "sym_name") else op.attrs
    resultTypes := op.resultTypes }

mutual

def nameOp : OpTree → Naming SourceOp
  | .node _ op regions => do
    let h ← head op
    return .mk h (← nameRegions regions)

def nameRegion : RegionTree → Naming SourceRegion
  | .node _ [.node _ [] ops] => do
    return .mk [.mk SourceBlock.implicitLabel [] (← nameOps ops)]
  | .node _ blocks => do
    blocks.forM fun b => defineBlock b.id
    return .mk (← nameBlocks blocks)

def nameBlock : BlockTree → Naming SourceBlock
  | .node id args ops => do
    let label := (← get).block id
    let args ← args.mapM fun a => do return (← defineValue a.1, a.2)
    return .mk label args (← nameOps ops)

def nameOps : List OpTree → Naming (List SourceOp)
  | [] => return []
  | t :: rest => do
    let op ← nameOp t
    return op :: (← nameOps rest)

def nameRegions : List RegionTree → Naming (List SourceRegion)
  | [] => return []
  | t :: rest => do
    let r ← nameRegion t
    return r :: (← nameRegions rest)

def nameBlocks : List BlockTree → Naming (List SourceBlock)
  | [] => return []
  | t :: rest => do
    let b ← nameBlock t
    return b :: (← nameBlocks rest)

end

end Names

/-- The tree as it is written. -/
def OpTree.toSource (t : OpTree) : SourceOp :=
  ((Names.nameOp t).run {}).1

/-- The text of an operation with everything it owns. -/
def OpTree.text (t : OpTree) : String :=
  t.toSource.text 0

/-- The text of an operation of a context. -/
def Context.print (ctx : Context) (id : OpId) : Except Fault String := do
  return (← ctx.opTree id).text

end RegionIR
