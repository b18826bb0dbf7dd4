import RegionIR.Context.Nested

/-! Conversion targets: which operations are legal after a conversion.

Dynamic checks come first, then rules for single operations, then rules for dialects, then
the rule for all other operations; an operation that nothing mentions is legal. -/

namespace RegionIR

/-- A question about an operation of a context. -/
abbrev OpQuery (α : Type) := Context → OpId → Except Fault α

structure Target where
  legalDialects : List String := []
  illegalDialects : List String := []
  legalOps : List (String × String) := []
  illegalOps : List (String × String) := []
  dynamicChecks : List (OpQuery (Option Bool)) := []
  otherOps : OpQuery Bool := fun _ _ => .ok true

namespace Target

/-- What the rules for operations and dialects say, if they say anything. -/
def staticRule (t : Target) (op : Op) : Option Bool :=
  if t.legalOps.contains (op.dialect, op.name) then some true
  else if t.illegalOps.contains (op.dialect, op.name) then some false
  else if t.legalDialects.contains op.dialect then some true
  else if t.illegalDialects.contains op.dialect then some false
  else none

/-- What the first dynamic check with an answer says. -/
def dynamicRule (t : Target) : OpQuery (Option Bool) := fun ctx id =>
  t.dynamicChecks.findSomeM? fun check => check ctx id

def isLegal (t : Target) : OpQuery Bool := fun ctx id => do
  match ← t.dynamicRule ctx id with
  | some legal => return legal
  | none =>
    match t.staticRule (← ctx.op id) with
    | some legal => return legal
    | none => t.otherOps ctx id

/-- Whether a rule for operations or dialects names the operation illegal. -/
def isNamedIllegal (t : Target) : OpQuery Bool := fun ctx id => do
  return t.staticRule (← ctx.op id) == some false

/-- The illegal operations nested in a region, in preorder. -/
def illegalIn (t : Target) (ctx : Context) (region : RegionTree) :
    Except Fault (List (OpId × Op)) :=
  region.preorder.filterM fun o => do return !(← t.isLegal ctx o.1)

end Target

end RegionIR
