import RegionIR.Rewrite.Pattern
import RegionIR.Rewrite.Target
import RegionIR.Rewrite.Worklist

/-! The conversion engine.

First the block arguments of the program are given converted types. Then every operation is
queued in preorder. An illegal operation that comes up is offered to the patterns; when one
rewrites it, the new operations are queued, each with the users of its results and the
producers of its operands. An illegal operation that no pattern rewrites is retyped in
place, unless a rule names it illegal, and the users of its results are queued. The run ends
when the queue is empty or when an illegal operation comes up after the allowed number of
rewrites. -/

namespace RegionIR

/-- The last reason a pattern gave for leaving an operation alone. -/
structure Decline where
  pattern : String
  reason : String

structure Engine where
  converter : Converter
  patterns : List Pattern
  target : Target
  /-- The allowed number of rewrites; without one it is the number of operations. -/
  maxRewrites : Option Nat := none

/-- The state of a run. -/
structure Run where
  ctx : Context
  work : Worklist
  rewrites : Nat := 0
  retyped : Nat := 0
  declines : List (OpId × Decline) := []

/-- Why a run ended. The last is a safeguard against runs without an end. -/
inductive Ending where
  | drained
  | outOfRewrites
  | outOfSteps
  deriving DecidableEq

namespace Run

def clearDecline (r : Run) (id : OpId) : Run :=
  { r with declines := r.declines.filter fun d => d.1 ≠ id }

def setDecline (r : Run) (id : OpId) (d : Decline) : Run :=
  { r with declines := (id, d) :: (r.clearDecline id).declines }

/-- Queues a new operation, the users of its results and the producers of its operands. -/
def enqueueNew (r : Run) (id : OpId) : Except Fault Run := do
  let op ← r.ctx.op id
  let neighbours := r.ctx.usersOf op.results ++ (← r.ctx.producersOf op)
  return { r with work := (r.work.push id).pushAll neighbours }

/-- Carries out the plan of a pattern for an operation. -/
def rewrite (r : Run) (id : OpId) (plan : Plan) : Except Fault Run := do
  let ctx ← plan.carryOut r.ctx id
  let r := { r with ctx, rewrites := r.rewrites + 1 }.clearDecline id
  plan.newOps.foldlM enqueueNew r

/-- The declines of operations that stand in the program, by number. -/
def attachedDeclines (r : Run) : Except Fault (List (OpId × Decline)) := do
  let kept ← r.declines.filterM fun d => r.ctx.isAttached d.1
  return kept.mergeSort fun a b => decide (a.1.index ≤ b.1.index)

end Run

namespace Engine

/-- Offers an operation to the patterns; whether one rewrote it. -/
def tryPatterns (c : Converter) (id : OpId) : List Pattern → Run → Except Fault (Run × Bool)
  | [], r => return (r, false)
  | p :: rest, r => do
    let (ctx, attempt) ← p.attempt c r.ctx id
    let r := { r with ctx }
    match attempt with
    | .noMatch => tryPatterns c id rest r
    | .declined reason => tryPatterns c id rest (r.setDecline id ⟨p.name, reason⟩)
    | .applied plan =>
      if plan.isEmpty then tryPatterns c id rest r
      else return (← r.rewrite id plan, true)

/-- Converts the types of the results of an operation; whether one changed. A type that
cannot be converted stays. -/
def retypeResults (c : Converter) (ctx : Context) (id : OpId) : Except Fault (Context × Bool) := do
  (← ctx.op id).resultTypes.zipIdx.foldlM (fun (ctx, changed) (ty, i) => do
    match c.convertType ty with
    | none => return (ctx, changed)
    | some new =>
      if new = ty then return (ctx, changed)
      else return (← ctx.setResultType id i new, true)) (ctx, false)

/-- Converts the types in the attributes of an operation; whether one changed. -/
def retypeAttrs (c : Converter) (ctx : Context) (id : OpId) : Except Fault (Context × Bool) := do
  (← ctx.op id).attrs.foldlM (fun (ctx, changed) (key, a) => do
    match c.convertAttr a with
    | none => return (ctx, changed)
    | some new =>
      if new = a then return (ctx, changed)
      else return ((← ctx.setAttr id key new).1, true)) (ctx, false)

/-- Converts all types of an operation in place; whether one changed. -/
def retypeOp (c : Converter) (ctx : Context) (id : OpId) : Except Fault (Context × Bool) := do
  let (ctx, results) ← retypeResults c ctx id
  let (ctx, attrs) ← retypeAttrs c ctx id
  return (ctx, results || attrs)

/-- Converts the types of the arguments of a block and counts those that changed. -/
def retypeArgs (c : Converter) : Context × Nat → BlockId → Except Fault (Context × Nat) :=
  fun (ctx, count) b => do
    let types ← (← ctx.block b).args.mapM ctx.typeOf
    types.zipIdx.foldlM (fun (ctx, count) (ty, i) => do
      match c.convertType ty with
      | none => return (ctx, count)
      | some new =>
        if new = ty then return (ctx, count)
        else return (← ctx.setArgType b i new, count + 1)) (ctx, count)

/-- Deals with an illegal operation. -/
def visit (e : Engine) (id : OpId) (r : Run) : Except Fault Run := do
  let (r, rewritten) ← tryPatterns e.converter id e.patterns r
  if rewritten then return r
  else if ← e.target.isNamedIllegal r.ctx id then return r
  else
    let (ctx, changed) ← retypeOp e.converter r.ctx id
    if changed then
      let users := ctx.usersOf (← ctx.op id).results
      return { r with ctx, retyped := r.retyped + 1, work := r.work.pushAll users }
    else return { r with ctx }

/-- One step of a run: the next state, or the ending. -/
def step (e : Engine) (budget : Nat) (r : Run) : Except Fault (Run × Option Ending) := do
  match r.work.pop with
  | none => return (r, some .drained)
  | some (id, work) =>
    let r := { r with work }
    if !(← r.ctx.isAttached id) then return (r, none)
    else if ← e.target.isLegal r.ctx id then return (r, none)
    else if budget ≤ r.rewrites then return (r, some .outOfRewrites)
    else return (← e.visit id r, none)

/-- A run of at most `limit` steps. -/
def run (e : Engine) (budget : Nat) : (limit : Nat) → Run → Except Fault (Run × Ending)
  | 0, r => return (r, .outOfSteps)
  | limit + 1, r => do
    match ← e.step budget r with
    | (r, some ending) => return (r, ending)
    | (r, none) => run e budget limit r

/-- A bound on the steps of a run. Under a converter whose results are legal an operation is
retyped at most once between two rewrites of its surroundings, and a rewrite queues no more
operations than there are uses, so that a run with such a converter ends within the bound. -/
def stepLimit (ctx : Context) (budget : Nat) : Nat :=
  Nat.pow (ctx.ops.size + ctx.ledger.length + budget + 2048) 3

/-- What a run has done. -/
structure Result where
  rewrites : Nat := 0
  retyped : Nat := 0
  /-- Whether the run ended with an empty queue. -/
  fixpoint : Bool := true
  /-- The declined operations that stand in the program, by number. -/
  declines : List (OpId × Decline) := []

/-- Why an operation was left alone, if a pattern said so. -/
def Result.reasonFor (r : Result) (id : OpId) : Option String :=
  (r.declines.lookup id).map Decline.reason

/-- Converts the body of a module as far as possible. -/
def convert (e : Engine) (ctx : Context) (id : OpId) : Except Fault (Context × Result) := do
  match ← ctx.body id with
  | none => return (ctx, {})
  | some body =>
    let tree ← ctx.regionTree body
    let (ctx, retyped) ← tree.blockIds.foldlM (retypeArgs e.converter) (ctx, 0)
    let seed := tree.opIds
    let budget := e.maxRewrites.getD seed.length
    let (r, ending) ← e.run budget (stepLimit ctx budget) { ctx, work := .ofList seed, retyped }
    return (r.ctx, {
      rewrites := r.rewrites, retyped := r.retyped, fixpoint := ending == .drained
      declines := ← r.attachedDeclines })

/-- The illegal operations in the body of a module. -/
def remaining (t : Target) (ctx : Context) (id : OpId) : Except Fault (List (OpId × Op)) := do
  match ← ctx.body id with
  | none => return []
  | some body => t.illegalIn ctx (← ctx.regionTree body)

end Engine

end RegionIR
