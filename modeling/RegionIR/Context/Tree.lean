import RegionIR.Context.Walk

/-! The ownership tree below an operation.

An operation owns regions, a region blocks and a block operations. The tree shows what an
operation owns, at all depths, together with the data of the entities; everything that
reads a program as a whole reads its tree. -/

namespace RegionIR

mutual

/-- An operation with the regions it owns. -/
inductive OpTree where
  | node (id : OpId) (op : Op) (regions : List RegionTree)

/-- A region with its blocks. -/
inductive RegionTree where
  | node (id : RegionId) (blocks : List BlockTree)

/-- A block with its arguments, each with its type, and its operations. -/
inductive BlockTree where
  | node (id : BlockId) (args : List (ValueId × Ty)) (ops : List OpTree)

end

namespace OpTree

def id : OpTree → OpId
  | .node id _ _ => id

def op : OpTree → Op
  | .node _ op _ => op

def regions : OpTree → List RegionTree
  | .node _ _ regions => regions

end OpTree

namespace RegionTree

def id : RegionTree → RegionId
  | .node id _ => id

def blocks : RegionTree → List BlockTree
  | .node _ blocks => blocks

end RegionTree

namespace BlockTree

def id : BlockTree → BlockId
  | .node id _ _ => id

def args : BlockTree → List (ValueId × Ty)
  | .node _ args _ => args

def ops : BlockTree → List OpTree
  | .node _ _ ops => ops

end BlockTree

namespace Context

/-- The tree of a block, given the trees of operations. -/
def blockTreeWith (ctx : Context) (opTree : OpId → Except Fault OpTree) (id : BlockId) :
    Except Fault BlockTree := do
  let block ← ctx.block id
  let args ← block.args.mapM fun v => do return (v, ← ctx.typeOf v)
  return .node id args (← block.ops.mapM opTree)

/-- The tree of a region, given the trees of operations. -/
def regionTreeWith (ctx : Context) (opTree : OpId → Except Fault OpTree) (id : RegionId) :
    Except Fault RegionTree := do
  let region ← ctx.region id
  return .node id (← region.blocks.mapM (ctx.blockTreeWith opTree))

/-- The tree of an operation in which at most `depth` operations are nested in each other. -/
def opTreeWithin (ctx : Context) : (depth : Nat) → OpId → Except Fault OpTree
  | 0, _ => .error .cyclicOwnership
  | depth + 1, id => do
    let op ← ctx.op id
    return .node id op (← op.regions.mapM (ctx.regionTreeWith (ctx.opTreeWithin depth)))

def opTree (ctx : Context) (id : OpId) : Except Fault OpTree :=
  ctx.opTreeWithin ctx.depthBound id

def regionTree (ctx : Context) (id : RegionId) : Except Fault RegionTree :=
  ctx.regionTreeWith ctx.opTree id

def blockTree (ctx : Context) (id : BlockId) : Except Fault BlockTree :=
  ctx.blockTreeWith ctx.opTree id

end Context

end RegionIR
