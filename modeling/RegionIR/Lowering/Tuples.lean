import RegionIR.Context.Validation
import RegionIR.Dialect.Build
import RegionIR.Lowering.TupleType
import RegionIR.Rewrite.Engine
import RegionIR.Text.Join

/-! The lowering of tuples to structs.

Every tuple type becomes a struct type, construction of a tuple becomes construction of a
struct with the same operands, and extraction by index becomes extraction by field name. All
other operations that mention tuple types are retyped in place. Lowering fails when a tuple
operation cannot be rewritten or a tuple type is left; the program is then partly lowered. -/

namespace RegionIR

/-- An operation that is still illegal after a lowering. -/
structure Leftover where
  op : OpId
  name : String
  reason : Option String
  deriving DecidableEq

def Leftover.text (l : Leftover) : String :=
  l.name ++ " (" ++ l.op.text ++ ")"
    ++ (match l.reason with
        | some reason => ": " ++ reason
        | none => "")

/-- Why a lowering fails. -/
inductive LoweringError where
  | incomplete (leftovers : List Leftover)
  | invalidModule (message : String)

def LoweringError.message : LoweringError → String
  | .incomplete leftovers =>
    "tuple-to-struct: " ++ Nat.repr leftovers.length ++ " illegal operation(s) remain: "
      ++ Text.joinWith ", " (leftovers.map Leftover.text)
  | .invalidModule message => "Invalid module: " ++ message

/-- The operations that a lowering left behind. -/
def LoweringError.leftovers : LoweringError → List Leftover
  | .incomplete leftovers => leftovers
  | .invalidModule _ => []

namespace TupleLowering

/-- Construction of a tuple becomes construction of a struct, if there are as many operands
as fields. -/
def construct (c : Converter) (ctx : Context) (id : OpId) : Except Fault (Context × Attempt) := do
  let op ← ctx.op id
  match op.view .tupleNew with
  | .ok (.tupleNew elements _ type) =>
    if !type.isTuple then return (ctx, .noMatch)
    else
      match (c.convertType type).filter Ty.isStruct with
      | none => return (ctx, .declined "type conversion failed to struct")
      | some struct =>
        if struct.structFields.map List.length = some elements.length then
          let (ctx, new) ← ctx.createOp (.structNew op.location elements struct)
          return (ctx, .applied { replacement := some new })
        else return (ctx, .declined "operand count does not match tuple arity")
  | _ => return (ctx, .noMatch)

/-- Extraction from a tuple becomes extraction from a struct, once the operand has a struct
type with enough fields. -/
def extract (ctx : Context) (id : OpId) : Except Fault (Context × Attempt) := do
  let op ← ctx.op id
  match op.view .tupleGet with
  | .ok (.tupleGet tuple index _) =>
    match (← ctx.typeOf tuple).structFields with
    | none => return (ctx, .declined "expected struct type as input")
    | some fields =>
      match fields[index.toNat]? with
      | none => return (ctx, .declined "index out of bounds")
      | some (field, type) =>
        let (ctx, new) ← ctx.createOp (.structExtract op.location tuple type field)
        return (ctx, .applied { replacement := some new })
  | _ => return (ctx, .noMatch)

def constructPattern : Pattern := ⟨"LowerTupleNewPattern", construct⟩

def extractPattern : Pattern := ⟨"LowerTupleGetPattern", fun _ => extract⟩

/-- Tuple operations are illegal, and all others while they mention a tuple type. -/
def target : Target where
  illegalOps := [("adt", "tuple_new"), ("adt", "tuple_get")]
  otherOps := Converter.tuples.isLegalOp

def engine : Engine where
  converter := .tuples
  patterns := [constructPattern, extractPattern]
  target

/-- What a lowering has done: how many operations it replaced, and how many operations and
block arguments it retyped. -/
structure Stats where
  rewrites : Nat
  retyped : Nat
  deriving DecidableEq

/-- The operations left illegal by a run, with the reasons that patterns gave. -/
def leftovers (ctx : Context) (id : OpId) (result : Engine.Result) :
    Except Fault (List Leftover) := do
  let illegal ← Engine.remaining target ctx id
  return illegal.map fun (op, data) => ⟨op, data.fullName, result.reasonFor op⟩

/-- Lowers a module in place; with `verify` the use chains are checked afterwards. The
context that comes back is the lowered one, also after a failure. -/
def run (ctx : Context) (id : OpId) (verify : Bool) :
    Except Fault (Except LoweringError Stats × Context) := do
  match ← ctx.body id with
  | none => return (.error (.invalidModule "core.module has no body region"), ctx)
  | some _ =>
    let (ctx, result) ← engine.convert ctx id
    let left ← leftovers ctx id result
    if !left.isEmpty then return (.error (.incomplete left), ctx)
    else
      let report ← if verify then ctx.validateUses id else pure {}
      if report.passed then return (.ok ⟨result.rewrites, result.retyped⟩, ctx)
      else return (.error (.invalidModule report.text), ctx)

end TupleLowering

end RegionIR
