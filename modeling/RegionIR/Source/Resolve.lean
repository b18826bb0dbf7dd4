import RegionIR.Context.Edit
import RegionIR.Source.Basic

/-! From a source operation to entities of a context.

Names are resolved and entities created in one pass. A value name is visible from its
definition on, in its region and in the regions nested there; the arguments of all blocks
of a region are visible in the whole region, and so are its labels. Inner labels hide outer
ones, but a value name must not be defined again where it is visible. -/

namespace RegionIR

/-- Why a text is not a program, and where. -/
structure ParseError where
  message : String
  offset : Nat
  deriving DecidableEq

def ParseError.text (e : ParseError) : String :=
  "parse error at offset " ++ Nat.repr e.offset ++ ": " ++ e.message

/-- Why resolving ends early: the program is wrong, or the context refused a request. -/
inductive ResolveError where
  | rejected (e : ParseError)
  | fault (f : Fault)

/-- The visible names, latest first. -/
structure Scope where
  values : List (String × ValueId) := []
  blocks : List (String × BlockId) := []

/-- A pass over a context, which keeps what was created before an error. -/
abbrev Resolve := ExceptT ResolveError (StateM Context)

namespace Resolve

/-- The path that operations read from a text have. -/
def textPath : String := "<text>"

def reject {α : Type} (h : SourceHead) (message : String) : Resolve α :=
  throw (.rejected ⟨message, h.offset⟩)

/-- A change of the context. -/
def edit {α : Type} (f : Context → Except Fault (α × Context)) : Resolve α := do
  match f (← get) with
  | .ok (a, ctx) => set ctx; return a
  | .error fault => throw (.fault fault)

/-- A look at the context. -/
def read {α : Type} (f : Context → Except Fault α) : Resolve α :=
  edit fun ctx => do return (← f ctx, ctx)

def createBlock (argTypes : List Ty) : Resolve BlockId :=
  edit fun ctx => let (ctx, b) := ctx.createBlock argTypes; .ok (b, ctx)

def createRegion (blocks : List BlockId) : Resolve RegionId :=
  edit fun ctx => do let (ctx, r) ← ctx.createRegion blocks; return (r, ctx)

def createOp (spec : OpSpec) : Resolve OpId :=
  edit fun ctx => do let (ctx, id) ← ctx.createOp spec; return (id, ctx)

def pushOp (b : BlockId) (id : OpId) : Resolve Unit :=
  edit fun ctx => do return ((), ← ctx.pushOp b id)

/-- Makes a name visible; `h` is the operation to blame if it is visible already. -/
def defineValue (h : SourceHead) (scope : Scope) (name : String) (v : ValueId) : Resolve Scope :=
  match scope.values.lookup name with
  | some _ => reject h ("duplicate SSA name '%" ++ name ++ "'")
  | none => return { scope with values := (name, v) :: scope.values }

/-- Makes names visible, one after the other; a name that has no value is out of bounds. -/
def defineValues (h : SourceHead) (scope : Scope) : List String → List ValueId → Resolve Scope
  | [], _ => return scope
  | name :: names, v :: vs => do
    let scope ← defineValue h scope name v
    defineValues h scope names vs
  | _ :: _, [] => throw (.fault .outOfBounds)

def operand (h : SourceHead) (scope : Scope) (name : String) : Resolve ValueId :=
  match scope.values.lookup name with
  | some v => return v
  | none => reject h ("undefined value '%" ++ name ++ "' in '" ++ h.fullName ++ "'")

def successor (h : SourceHead) (scope : Scope) (label : String) : Resolve BlockId :=
  match scope.blocks.lookup label with
  | some b => return b
  | none => reject h ("undefined block '^" ++ label ++ "' in '" ++ h.fullName ++ "'")

/-- Named results need a type each; results without names need none. -/
def checkResults (h : SourceHead) : Resolve Unit :=
  if h.results.isEmpty || h.results.length == h.resultTypes.length then return ()
  else
    reject h ("'" ++ h.fullName ++ "' names " ++ Nat.repr h.results.length
      ++ " result(s) but declares " ++ Nat.repr h.resultTypes.length ++ " type(s)")

/-- The attributes of an operation with its symbol; an attribute of the same key comes later. -/
def attributes (h : SourceHead) : Dict (Attr Ty) :=
  Dict.ofEntries
    ((h.symbol.toList.map fun s => ("sym_name", Attr.symbol s)) ++ Ty.canonicalEntries h.attrs)

/-- The arguments of a block that was just created. -/
def argsOf (b : BlockId) : Resolve (List ValueId) :=
  read fun ctx => do return (← ctx.block b).args

/-- Creates the blocks of a region with their arguments and makes their names visible. -/
def openBlocks (h : SourceHead) : (seen : List String) → Scope → List SourceBlock →
    Resolve (List BlockId × Scope)
  | _, scope, [] => return ([], scope)
  | seen, scope, .mk label args _ :: rest => do
    if label ∈ seen then reject h ("duplicate block label '^" ++ label ++ "'")
    let b ← createBlock (args.map fun a => a.2.canonical)
    let scope := { scope with blocks := (label, b) :: scope.blocks }
    let scope ← defineValues h scope (args.map Prod.fst) (← argsOf b)
    let (ids, scope) ← openBlocks h (label :: seen) scope rest
    return (b :: ids, scope)

/-- The results of an operation that was just created. -/
def resultsOf (id : OpId) : Resolve (List ValueId) :=
  read fun ctx => do return (← ctx.op id).results

mutual

/-- Creates an operation and returns the scope after it. -/
def op (scope : Scope) : SourceOp → Resolve (OpId × Scope)
  | .mk h regions => do
    let operands ← h.operands.mapM (operand h scope)
    let successors ← h.successors.mapM (successor h scope)
    checkResults h
    let regions ← regionsOf h scope regions
    let id ← createOp {
      location := ⟨textPath, ⟨h.offset, h.offset⟩⟩
      dialect := h.dialect
      name := h.name
      operands, successors, regions
      resultTypes := Ty.canonicalList h.resultTypes
      attrs := attributes h }
    return (id, ← defineValues h scope h.results (← resultsOf id))

/-- Creates a region in a scope of its own. -/
def region (h : SourceHead) (scope : Scope) : SourceRegion → Resolve RegionId
  | .mk blocks => do
    let (ids, scope) ← openBlocks h [] scope blocks
    fillBlocks scope blocks ids
    createRegion ids

def regionsOf (h : SourceHead) (scope : Scope) : List SourceRegion → Resolve (List RegionId)
  | [] => return []
  | r :: rest => do
    let id ← region h scope r
    return id :: (← regionsOf h scope rest)

/-- Creates the operations of blocks, block by block in one running scope. -/
def fillBlocks (scope : Scope) : List SourceBlock → List BlockId → Resolve Unit
  | .mk _ _ ops :: rest, b :: ids => do
    let scope ← fillBlock scope b ops
    fillBlocks scope rest ids
  | _, _ => return ()

def fillBlock (scope : Scope) (b : BlockId) : List SourceOp → Resolve Scope
  | [] => return scope
  | o :: rest => do
    let (id, scope) ← op scope o
    pushOp b id
    fillBlock scope b rest

end

end Resolve

end RegionIR
