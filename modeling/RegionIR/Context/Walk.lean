import RegionIR.Context.Basic

/-! Walks over the operations that an entity owns.

A walk meets an operation before those nested in it, and blocks in the order of their
region. At each operation the visitor says how to go on; what it does not descend into is
not looked at, so a walk may end even where an operation is nested in itself. -/

namespace RegionIR

/-- How a walk goes on after an operation. -/
inductive Visit where
  | descend
  | skip
  | stop
  deriving DecidableEq

/-- The operations a walk met, and the one it stopped at. -/
structure Trail where
  visited : List (OpId × Op) := []
  stoppedAt : Option OpId := none

/-- Walks one after the other until one of them stops. -/
def Trail.chain {α : Type} (walk : α → Except Fault Trail) : List α → Except Fault Trail
  | [] => return {}
  | a :: rest => do
    let first ← walk a
    match first.stoppedAt with
    | some _ => return first
    | none =>
      let next ← chain walk rest
      return { next with visited := first.visited ++ next.visited }

namespace Context

/-- A walk over the operations of a block, given walks over operations. -/
def walkBlockWith (ctx : Context) (walkOp : OpId → Except Fault Trail) (b : BlockId) :
    Except Fault Trail := do
  Trail.chain walkOp (← ctx.block b).ops

/-- A walk over the blocks of a region, given walks over operations. -/
def walkRegionWith (ctx : Context) (walkOp : OpId → Except Fault Trail) (r : RegionId) :
    Except Fault Trail := do
  Trail.chain (ctx.walkBlockWith walkOp) (← ctx.region r).blocks

/-- A walk that descends less than `depth` operations deep. -/
def walkOpWithin (ctx : Context) (visit : OpId → Op → Visit) :
    (depth : Nat) → OpId → Except Fault Trail
  | 0, _ => .error .cyclicOwnership
  | depth + 1, id => do
    let op ← ctx.op id
    match visit id op with
    | .stop => return ⟨[(id, op)], some id⟩
    | .skip => return ⟨[(id, op)], none⟩
    | .descend =>
      let inner ← Trail.chain (ctx.walkRegionWith (ctx.walkOpWithin visit depth)) op.regions
      return { inner with visited := (id, op) :: inner.visited }

/-- A depth that suffices where no operation is nested in itself. A walk that goes deeper
meets an operation inside itself, descends into it again, and so never ends. -/
def depthBound (ctx : Context) : Nat := ctx.ops.size + 1

def walkOp (ctx : Context) (visit : OpId → Op → Visit) (id : OpId) : Except Fault Trail :=
  ctx.walkOpWithin visit ctx.depthBound id

def walkBlock (ctx : Context) (visit : OpId → Op → Visit) (b : BlockId) : Except Fault Trail :=
  ctx.walkBlockWith (ctx.walkOp visit) b

def walkRegion (ctx : Context) (visit : OpId → Op → Visit) (r : RegionId) : Except Fault Trail :=
  ctx.walkRegionWith (ctx.walkOp visit) r

end Context

end RegionIR
