import RegionIR.Context.Walk

/-! The collection of the blocks that are nested in a region.

Regions wait on a stack. The one on top is taken off and its blocks are listed; then the regions
that its operations own are put on, the last first, so that they are taken off in their order. -/

namespace RegionIR.Context

/-- The regions that the operations of a block own. -/
def regionsOfBlock (ctx : Context) (b : BlockId) : Except Fault (List RegionId) := do
  let block ← ctx.block b
  return (← block.ops.mapM fun o => do return (← ctx.op o).regions).flatten

/-- A collection in which at most `pops` regions are taken off the stack. -/
def collectBlocksWithin (ctx : Context) :
    (pops : Nat) → (stack : List RegionId) → (blocks : List BlockId) → Except Fault (List BlockId)
  | _, [], blocks => return blocks
  | 0, _ :: _, _ => .error .cyclicOwnership
  | pops + 1, r :: stack, blocks => do
    let region ← ctx.region r
    let nested := (← region.blocks.mapM ctx.regionsOfBlock).flatten
    ctx.collectBlocksWithin pops (nested.reverse.foldl (fun stack r => r :: stack) stack)
      (blocks ++ region.blocks)

end RegionIR.Context
