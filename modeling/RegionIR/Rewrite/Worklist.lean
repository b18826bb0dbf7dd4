import RegionIR.Context.Basic

/-! A queue of operations in which an operation waits at most once. -/

namespace RegionIR

/-- The operations that wait, first come first served, and those that count as waiting. -/
structure Worklist where
  queue : List OpId := []
  waiting : List OpId := []

namespace Worklist

def ofList (ids : List OpId) : Worklist := ⟨ids, ids⟩

/-- Puts an operation at the end unless it waits already. -/
def push (w : Worklist) (id : OpId) : Worklist :=
  if id ∈ w.waiting then w else ⟨w.queue ++ [id], id :: w.waiting⟩

def pushAll (w : Worklist) (ids : List OpId) : Worklist :=
  ids.foldl push w

/-- The first operation and the rest. -/
def pop (w : Worklist) : Option (OpId × Worklist) :=
  match w.queue with
  | [] => none
  | id :: rest => some (id, ⟨rest, w.waiting.filter (· ≠ id)⟩)

end Worklist

namespace Context

/-- The users of some values, value by value. -/
def usersOf (ctx : Context) (values : List ValueId) : List OpId :=
  values.flatMap fun v => (ctx.uses v).map Use.user

/-- The operations whose results an operation uses, operand by operand. -/
def producersOf (ctx : Context) (op : Op) : Except Fault (List OpId) :=
  op.operands.filterMapM fun v => do
    match (← ctx.value v).origin with
    | .result id _ => return some id
    | .argument _ _ => return none

end Context

end RegionIR
