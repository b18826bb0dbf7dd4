import RegionIR.Context.Edit
import RegionIR.Rewrite.Converter

/-! Rewrite patterns and the changes that they ask for.

A pattern creates detached operations only; where they go, and what becomes of the operation
it matched, it says in a plan, which is carried out afterwards. -/

namespace RegionIR

/-- What a rewrite does with an operation: first the operations `inserted` are put in front
of it, in order. Then it is replaced by an operation, result by result, or erased in favour
of values, one for each result, or kept. -/
structure Plan where
  inserted : List OpId := []
  replacement : Option OpId := none
  erasure : Option (List ValueId) := none

namespace Plan

def isEmpty (p : Plan) : Bool :=
  p.inserted.isEmpty && p.replacement.isNone && p.erasure.isNone

/-- The operations that the plan brings into the program. -/
def newOps (p : Plan) : List OpId :=
  p.inserted ++ p.replacement.toList

/-- Puts the new operations in front of `id` and returns the values that take the place of
its results, if it is to go. -/
def insertOps (p : Plan) (ctx : Context) (b : BlockId) (id : OpId) :
    Except Fault (Context × Option (List ValueId)) := do
  let ctx ← p.inserted.foldlM (fun ctx new => ctx.insertOpBefore b id new) ctx
  match p.replacement with
  | none => return (ctx, p.erasure)
  | some new =>
    let ctx ← ctx.insertOpBefore b id new
    return (ctx, some (← ctx.op new).results)

/-- Carries the plan out. An operation that stands in no block is left alone. -/
def carryOut (p : Plan) (ctx : Context) (id : OpId) : Except Fault Context := do
  match (← ctx.op id).parent with
  | none => return ctx
  | some b =>
    match ← p.insertOps ctx b id with
    | (ctx, none) => return ctx
    | (ctx, some new) =>
      let old := (← ctx.op id).results
      if old.length ≠ new.length then throw (.resultCount old.length new.length)
      let ctx ← (old.zip new).foldlM (fun ctx (v, w) => ctx.replaceAllUses v w) ctx
      let ctx ← ctx.detachOp b id
      ctx.removeOp id

end Plan

/-- What a pattern makes of an operation. -/
inductive Attempt where
  | noMatch
  | declined (reason : String)
  | applied (plan : Plan)

structure Pattern where
  name : String
  attempt : Converter → Context → OpId → Except Fault (Context × Attempt)

end RegionIR
