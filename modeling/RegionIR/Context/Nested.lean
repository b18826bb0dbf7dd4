import RegionIR.Context.Tree

/-! The operations and blocks that a tree holds.

Operations are listed in preorder: each before those nested in it, and blocks in the order
of their region. Blocks are listed region by region. -/

namespace RegionIR

mutual

/-- All operations of a tree, each before those nested in it. -/
def OpTree.preorder : OpTree → List (OpId × Op)
  | .node id op regions => (id, op) :: RegionTree.preorderAll regions

def RegionTree.preorder : RegionTree → List (OpId × Op)
  | .node _ blocks => BlockTree.preorderAll blocks

def BlockTree.preorder : BlockTree → List (OpId × Op)
  | .node _ _ ops => OpTree.preorderAll ops

def OpTree.preorderAll : List OpTree → List (OpId × Op)
  | [] => []
  | t :: rest => t.preorder ++ OpTree.preorderAll rest

def RegionTree.preorderAll : List RegionTree → List (OpId × Op)
  | [] => []
  | t :: rest => t.preorder ++ RegionTree.preorderAll rest

def BlockTree.preorderAll : List BlockTree → List (OpId × Op)
  | [] => []
  | t :: rest => t.preorder ++ BlockTree.preorderAll rest

end

mutual

/-- All blocks nested in an operation. -/
def OpTree.blocks : OpTree → List BlockTree
  | .node _ _ regions => RegionTree.blocksOfAll regions

/-- All blocks of a region and of the regions nested in it; the blocks of one region stand
together, in front of those nested in any of them. -/
def RegionTree.allBlocks : RegionTree → List BlockTree
  | .node _ blocks => blocks ++ BlockTree.nestedOfAll blocks

/-- The blocks nested in the operations of a block. -/
def BlockTree.nested : BlockTree → List BlockTree
  | .node _ _ ops => OpTree.blocksOfAll ops

def OpTree.blocksOfAll : List OpTree → List BlockTree
  | [] => []
  | t :: rest => t.blocks ++ OpTree.blocksOfAll rest

def RegionTree.blocksOfAll : List RegionTree → List BlockTree
  | [] => []
  | t :: rest => t.allBlocks ++ RegionTree.blocksOfAll rest

def BlockTree.nestedOfAll : List BlockTree → List BlockTree
  | [] => []
  | t :: rest => t.nested ++ BlockTree.nestedOfAll rest

end

/-- The operations nested in a region, in preorder. -/
def RegionTree.opIds (t : RegionTree) : List OpId :=
  t.preorder.map Prod.fst

/-- The blocks nested in a region. -/
def RegionTree.blockIds (t : RegionTree) : List BlockId :=
  t.allBlocks.map BlockTree.id

end RegionIR
