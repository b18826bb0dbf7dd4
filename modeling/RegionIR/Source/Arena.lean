import RegionIR.Source.Parse
import RegionIR.Ty.Table

/-! Parsing into a context with its tables.

The types and paths that the entities of a context mention are kept in tables beside it. While a text
is read, the types in it are put in as they come: those of the arguments before their block is created,
those of the results and of the attributes before the regions of their operation are. Nothing is taken
out again when the text is rejected later on. -/

namespace RegionIR

/-- A context with the tables of the types and of the paths that are mentioned in it. -/
structure Arena where
  ctx : Context := {}
  types : TypeTable := {}
  paths : Table String := {}

/-- A pass over a context and its tables, which keeps what was created before an error. -/
abbrev Build := ExceptT ResolveError (StateM Arena)

namespace Build

/-- A pass over the context alone. -/
def resolve {α : Type} (m : Resolve α) : Build α :=
  ExceptT.mk do
    let arena ← get
    let (result, ctx) := m.run.run arena.ctx
    set { arena with ctx }
    return result

/-- Puts types in their table. -/
def intern (f : TypeTable → TypeTable) : Build Unit :=
  modify fun arena => { arena with types := f arena.types }

def internTypes (types : List Ty) : Build Unit :=
  intern fun table => (table.internTrees types).1

def internAttrs (attrs : List (String × Attr Ty)) : Build Unit :=
  intern fun table => (table.internEntries attrs).1

/-- Creates the blocks of a region with their arguments and makes their names visible. -/
def openBlocks (h : SourceHead) : (seen : List String) → Scope → List SourceBlock →
    Build (List BlockId × Scope)
  | _, scope, [] => return ([], scope)
  | seen, scope, .mk label args _ :: rest => do
    if label ∈ seen then
      resolve (Resolve.reject h ("duplicate block label '^" ++ label ++ "'"))
    internTypes (args.map Prod.snd)
    let b ← resolve (Resolve.createBlock (args.map fun a => a.2.canonical))
    let scope := { scope with blocks := (label, b) :: scope.blocks }
    let vs ← resolve (Resolve.argsOf b)
    let scope ← resolve (Resolve.defineValues h scope (args.map Prod.fst) vs)
    let (ids, scope) ← openBlocks h (label :: seen) scope rest
    return (b :: ids, scope)

mutual

/-- Creates an operation and returns the scope after it. -/
def op (scope : Scope) : SourceOp → Build (OpId × Scope)
  | .mk h regions => do
    let operands ← resolve (h.operands.mapM (Resolve.operand h scope))
    let successors ← resolve (h.successors.mapM (Resolve.successor h scope))
    resolve (Resolve.checkResults h)
    internTypes h.resultTypes
    internAttrs h.attrs
    let regions ← regionsOf h scope regions
    let id ← resolve (Resolve.createOp {
      location := ⟨Resolve.textPath, ⟨h.offset, h.offset⟩⟩
      dialect := h.dialect
      name := h.name
      operands, successors, regions
      resultTypes := Ty.canonicalList h.resultTypes
      attrs := Resolve.attributes h })
    let vs ← resolve (Resolve.resultsOf id)
    return (id, ← resolve (Resolve.defineValues h scope h.results vs))

/-- Creates a region in a scope of its own. -/
def region (h : SourceHead) (scope : Scope) : SourceRegion → Build RegionId
  | .mk blocks => do
    let (ids, scope) ← openBlocks h [] scope blocks
    fillBlocks scope blocks ids
    resolve (Resolve.createRegion ids)

def regionsOf (h : SourceHead) (scope : Scope) : List SourceRegion → Build (List RegionId)
  | [] => return []
  | r :: rest => do
    let id ← region h scope r
    return id :: (← regionsOf h scope rest)

/-- Creates the operations of blocks, block by block in one running scope. -/
def fillBlocks (scope : Scope) : List SourceBlock → List BlockId → Build Unit
  | .mk _ _ ops :: rest, b :: ids => do
    let scope ← fillBlock scope b ops
    fillBlocks scope rest ids
  | _, _ => return ()

def fillBlock (scope : Scope) (b : BlockId) : List SourceOp → Build Scope
  | [] => return scope
  | o :: rest => do
    let (id, scope) ← op scope o
    resolve (Resolve.pushOp b id)
    fillBlock scope b rest

end

end Build

/-- Reads one operation from a text and creates it in the context of the arena. A text that the grammar
takes has a path, and the types in it are put in the table as far as it is resolved. -/
def Arena.parse (arena : Arena) (text : String) : Except ResolveError OpId × Arena :=
  match SourceOp.parse text with
  | .error e => (.error (.rejected e), arena)
  | .ok source =>
    let arena := { arena with paths := (arena.paths.intern Resolve.textPath).1 }
    let (result, arena) := (Build.op {} source).run.run arena
    (result.map Prod.fst, arena)

end RegionIR
