import RegionIR.Lowering.Tuples
import RegionIR.Source.Naming
import RegionIR.Source.Parse

/-! Text in, text out: a module is parsed, its tuples are lowered, and it is printed. -/

namespace RegionIR

/-- Why a text cannot be lowered. -/
inductive PipelineError where
  | parse (e : ParseError)
  | lowering (e : LoweringError)
  | fault (f : Fault)

def PipelineError.message : PipelineError → String
  | .parse e => e.text
  | .lowering e => e.message
  | .fault f => f.message

/-- A lowered text and what was done to it. -/
structure Lowered where
  text : String
  stats : TupleLowering.Stats

/-- Whether an operation is a module. -/
def Context.isModule (ctx : Context) (id : OpId) : Except Fault Bool := do
  return (← ctx.op id).is "core" "module"

namespace Pipeline

/-- Lowers the module with the number `id` and prints it; with `verify` use chains and
scopes are checked in between. -/
def lowerModule (ctx : Context) (id : OpId) (verify : Bool) :
    Except Fault (Except LoweringError Lowered) := do
  if !(← ctx.isModule id) then
    return .error (.invalidModule "top-level operation is not a core.module")
  else
    match ← TupleLowering.run ctx id verify with
    | (.error e, _) => return .error e
    | (.ok stats, ctx) =>
      let report ← if verify then ctx.validateScopes id else pure {}
      if report.passed then return .ok ⟨← ctx.print id, stats⟩
      else return .error (.invalidModule report.text)

/-- Lowers the module that a text denotes. -/
def lower (text : String) (verify : Bool) : Except PipelineError Lowered :=
  match Context.parse {} text with
  | (.error (.rejected e), _) => .error (.parse e)
  | (.error (.fault f), _) => .error (.fault f)
  | (.ok id, ctx) =>
    match lowerModule ctx id verify with
    | .error f => .error (.fault f)
    | .ok (.error e) => .error (.lowering e)
    | .ok (.ok lowered) => .ok lowered

end Pipeline

end RegionIR
