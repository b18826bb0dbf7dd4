import RegionIR.Context.Basic

/-! The operations that build and change a program.

Each keeps the two sides of every link in step: a block lists an operation exactly when
the operation names the block as its parent, and likewise for regions and blocks and for
operations and regions; the type of a result or argument is the same in the table of
values as in the list of its owner; and the ledger lists exactly the operands. -/

namespace RegionIR

/-- What a new operation is made of. -/
structure OpSpec where
  location : Location
  dialect : String
  name : String
  operands : List ValueId := []
  resultTypes : List Ty := []
  attrs : Dict (Attr Ty) := []
  regions : List RegionId := []
  successors : List BlockId := []
  parent : Option BlockId := none

namespace Context

/-- The numbers of the next `count` values. -/
def freshValues (ctx : Context) (count : Nat) : List ValueId :=
  (List.range count).map fun i => ⟨ctx.values.size + i⟩

/-- Makes `owner` the parent of a region that has none. -/
def claimRegion (owner : OpId) (ctx : Context) (r : RegionId) : Except Fault Context := do
  let region ← ctx.region r
  match region.parent with
  | some other => throw (.regionOwned r other)
  | none => return ctx.modifyRegion r fun region => { region with parent := some owner }

/-- Makes `owner` the parent of a block that has none. -/
def claimBlock (owner : RegionId) (ctx : Context) (b : BlockId) : Except Fault Context := do
  let block ← ctx.block b
  match block.parent with
  | some other => throw (.blockOwned b other)
  | none => return ctx.modifyBlock b fun block => { block with parent := some owner }

/-- Creates a detached operation with its results, takes over its regions and records its
uses. Operands and successors need not exist. -/
def createOp (ctx : Context) (spec : OpSpec) : Except Fault (Context × OpId) := do
  if spec.parent.isSome then throw .parentPreset
  let id : OpId := ⟨ctx.ops.size⟩
  let op : Op :=
    { location := spec.location, dialect := spec.dialect, name := spec.name,
      operands := spec.operands, resultTypes := spec.resultTypes,
      results := ctx.freshValues spec.resultTypes.length, attrs := spec.attrs,
      regions := spec.regions, successors := spec.successors }
  let ctx ← spec.regions.foldlM (claimRegion id) { ctx with ops := ctx.ops.push op }
  let uses : List (ValueId × Use) := spec.operands.mapIdx fun i v => (v, ⟨id, i⟩)
  let results : List Value := spec.resultTypes.mapIdx fun i ty => ⟨.result id i, ty⟩
  return ({ ctx with ledger := ctx.ledger ++ uses, values := ctx.values ++ results }, id)

/-- Creates a block without operations and without a parent, with its arguments. -/
def createBlock (ctx : Context) (argTypes : List Ty) : Context × BlockId :=
  let id : BlockId := ⟨ctx.blocks.size⟩
  let block : Block := { argTypes, args := ctx.freshValues argTypes.length }
  let args : List Value := argTypes.mapIdx fun i ty => ⟨.argument id i, ty⟩
  ({ ctx with blocks := ctx.blocks.push block, values := ctx.values ++ args }, id)

/-- Creates a region without a parent that takes over its blocks. -/
def createRegion (ctx : Context) (blocks : List BlockId) : Except Fault (Context × RegionId) := do
  let id : RegionId := ⟨ctx.regions.size⟩
  let ctx ← blocks.foldlM (claimBlock id) { ctx with regions := ctx.regions.push { blocks } }
  return (ctx, id)

/-- Puts a detached operation at the end of a block. -/
def pushOp (ctx : Context) (b : BlockId) (id : OpId) : Except Fault Context := do
  match (← ctx.op id).parent with
  | some owner => throw (.pushAttached id owner)
  | none =>
    let _ ← ctx.block b
    return (ctx.modifyOp id fun op => { op with parent := some b }).modifyBlock b
      fun block => { block with ops := block.ops ++ [id] }

/-- The list with `a` put in front of the first `anchor`. -/
def insertBefore {α : Type} [DecidableEq α] (anchor a : α) : List α → Option (List α)
  | [] => none
  | x :: rest =>
    if x = anchor then some (a :: x :: rest)
    else (insertBefore anchor a rest).map (x :: ·)

/-- Puts a detached operation in front of another in a block. -/
def insertOpBefore (ctx : Context) (b : BlockId) (anchor id : OpId) : Except Fault Context := do
  match (← ctx.op id).parent with
  | some owner => throw (.insertAttached id owner)
  | none =>
    match insertBefore anchor id (← ctx.block b).ops with
    | none => throw (.anchorMissing anchor b)
    | some ops =>
      return (ctx.modifyOp id fun op => { op with parent := some b }).modifyBlock b
        fun block => { block with ops }

/-- Takes an operation out of a block; the operation itself stays. -/
def detachOp (ctx : Context) (b : BlockId) (id : OpId) : Except Fault Context := do
  let _ ← ctx.block b
  let _ ← ctx.op id
  return (ctx.modifyBlock b fun block => { block with ops := block.ops.filter (· ≠ id) }).modifyOp id
    fun op => if op.parent = some b then { op with parent := none } else op

/-- Refuses if one of the values is still used. -/
def checkUnused (ctx : Context) (values : List ValueId) : Except Fault Unit :=
  values.forM fun v =>
    match ctx.uses v with
    | [] => pure ()
    | used => throw (.resultUsed v used.length)

/-- Strikes the uses of a detached operation whose results are unused from the ledger. -/
def removeOp (ctx : Context) (id : OpId) : Except Fault Context := do
  let op ← ctx.op id
  match op.parent with
  | some owner => throw (.removeAttached id owner)
  | none =>
    ctx.checkUnused op.results
    return { ctx with
      ledger := ctx.ledger.filter fun (v, u) => !(u.user = id && op.operands[u.operand]? = some v) }

/-- Gives a result another type. -/
def setResultType (ctx : Context) (id : OpId) (index : Nat) (ty : Ty) : Except Fault Context := do
  let op ← ctx.op id
  let _ ← entryAt op.resultTypes index
  let v ← entryAt op.results index
  return (ctx.modifyOp id fun op => { op with resultTypes := op.resultTypes.set index ty }).modifyValue v
    fun value => { value with ty }

/-- Gives a block argument another type. -/
def setArgType (ctx : Context) (b : BlockId) (index : Nat) (ty : Ty) : Except Fault Context := do
  let block ← ctx.block b
  let _ ← entryAt block.argTypes index
  let v ← entryAt block.args index
  return (ctx.modifyBlock b fun block =>
    { block with argTypes := block.argTypes.set index ty }).modifyValue v
    fun value => { value with ty }

/-- Sets an attribute and returns what it was before. -/
def setAttr (ctx : Context) (id : OpId) (key : String) (a : Attr Ty) :
    Except Fault (Context × Option (Attr Ty)) := do
  let op ← ctx.op id
  return (ctx.modifyOp id fun op => { op with attrs := op.attrs.insert key a }, op.attrs.find? key)

/-- Calls an operation `dialect.name`. -/
def renameOp (ctx : Context) (id : OpId) (dialect name : String) : Except Fault Context := do
  let _ ← ctx.op id
  return ctx.modifyOp id fun op => { op with dialect, name }

/-- Puts a block at the end of a region, whatever region it was in. -/
def appendBlock (ctx : Context) (r : RegionId) (b : BlockId) : Except Fault Context := do
  let _ ← ctx.region r
  let _ ← ctx.block b
  return (ctx.modifyRegion r fun region => { region with blocks := region.blocks ++ [b] }).modifyBlock b
    fun block => { block with parent := some r }

/-- Makes a recorded use of `old` a use of `new`. -/
def redirect (old new : ValueId) (ctx : Context) (u : Use) : Except Fault Context := do
  let op ← ctx.op u.user
  let v ← entryAt op.operands u.operand
  if v = old then
    return ctx.modifyOp u.user fun op => { op with operands := op.operands.set u.operand new }
  else throw (.staleUse old)

/-- Makes every use of `old` a use of `new`; the moved uses follow those that `new` had. -/
def replaceAllUses (ctx : Context) (old new : ValueId) : Except Fault Context := do
  if old = new then return ctx
  let moved := ctx.uses old
  let ctx ← moved.foldlM (redirect old new) ctx
  return { ctx with
    ledger := ctx.ledger.filter (fun (v, _) => v ≠ old) ++ moved.map fun u => (new, u) }

end Context

end RegionIR
