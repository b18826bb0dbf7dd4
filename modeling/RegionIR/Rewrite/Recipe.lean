import RegionIR.Rewrite.Engine

/-! Conversions and patterns given by data.

A recipe names the types or operations that it is for and says what becomes of them. -/

namespace RegionIR

/-- What becomes of a type. -/
inductive TypeChange where
  | to (t : Ty)
  | nothing
  | firstParam
  | structOf (convert : Ty → Option Ty)
  | tupleOfParams

def TypeChange.apply : TypeChange → Ty → Option Ty
  | .to t, _ => some t
  | .nothing, _ => none
  | .firstParam, t => t.params.head?
  | .structOf convert, t => convert t
  | .tupleOfParams, t => some (Ty.tuple t.params)

/-- A conversion of the types called `dialect.name`. -/
def Conversion.named (dialect name : String) (change : TypeChange) : Conversion :=
  { applies := fun t => t.is dialect name, convert := change.apply }

/-- What becomes of an operation. -/
inductive OpChange where
  /-- It is replaced by one of another name with the same operands, result types and
  attributes; the result types are converted if `converted` holds. A bare operation called
  `before` is put in front. -/
  | rename (dialect name : String) (converted : Bool) (before : Option (String × String))
  /-- It is declined. -/
  | decline (reason : String)
  /-- Its results give way to its first operands. -/
  | erase
  /-- A bare operation is put in front of it. -/
  | insert (dialect name : String)
  /-- Nothing, though it counts as matched. -/
  | nothing

namespace OpChange

/-- Creates an operation without operands, results and attributes. -/
def createBare (ctx : Context) (location : Location) (dialect name : String) :
    Except Fault (Context × OpId) :=
  ctx.createOp { location, dialect, name }

def attempt (change : OpChange) (c : Converter) (ctx : Context) (op : Op) :
    Except Fault (Context × Attempt) := do
  match change with
  | .decline reason => return (ctx, .declined reason)
  | .nothing => return (ctx, .applied {})
  | .insert dialect name =>
    let (ctx, bare) ← createBare ctx op.location dialect name
    return (ctx, .applied { inserted := [bare] })
  | .erase =>
    if op.operands.length < op.results.length then return (ctx, .noMatch)
    else return (ctx, .applied { erasure := some (op.operands.take op.results.length) })
  | .rename dialect name converted before =>
    let (ctx, inserted) ←
      match before with
      | none => pure (ctx, [])
      | some (dialect, name) =>
        let (ctx, bare) ← createBare ctx op.location dialect name
        pure (ctx, [bare])
    let (ctx, new) ← ctx.createOp {
      location := op.location, dialect, name
      operands := op.operands, attrs := op.attrs
      resultTypes := if converted then op.resultTypes.map c.convertOrKeep else op.resultTypes }
    return (ctx, .applied { inserted, replacement := some new })

end OpChange

/-- A pattern for the operations called `dialect.op`. -/
def Pattern.named (name dialect op : String) (change : OpChange) : Pattern where
  name
  attempt c ctx id := do
    let data ← ctx.op id
    if data.is dialect op then change.attempt c ctx data else return (ctx, .noMatch)

end RegionIR
