import RegionIR.Context.Nested

/-! Validation of what an operation owns.

Two checks are made. Scope: every operand is visible where it is used; a value is visible
after its operation in the same block, in all sibling blocks, and in the regions nested
where it is visible. Use chains: the ledger lists exactly the operands of the nested
operations, for the values defined there. -/

namespace RegionIR

/-- An operand that is not visible where it is used. -/
structure ScopeError where
  op : OpId
  consumer : String
  operand : Nat
  value : String

def ScopeError.text (e : ScopeError) : String :=
  "operand #" ++ Nat.repr e.operand ++ " of " ++ e.consumer ++ " (" ++ e.op.text
    ++ ") refers to " ++ e.value ++ ", which is not in scope"

/-- A difference between the ledger and the operands. -/
inductive UseError where
  | unrecorded (use : Use) (consumer : String) (value : ValueId)
  | foreign (value : ValueId) (description : String) (use : Use)

def UseError.text : UseError → String
  | .unrecorded u consumer v =>
    "operand #" ++ Nat.repr u.operand ++ " of " ++ consumer ++ " (" ++ u.user.text
      ++ ") uses " ++ v.text ++ " but " ++ v.text ++ " has no such use recorded"
  | .foreign v description u =>
    v.text ++ " (" ++ description ++ ") records a use by operand #" ++ Nat.repr u.operand
      ++ " of " ++ u.user.text ++ ", which is not in the module"

structure Report where
  scopeErrors : List ScopeError := []
  useErrors : List UseError := []

namespace Report

def passed (r : Report) : Bool :=
  r.scopeErrors.isEmpty && r.useErrors.isEmpty

/-- The texts of the use errors in alphabetical order. -/
def useTexts (r : Report) : List String :=
  (r.useErrors.map UseError.text).mergeSort fun a b => !decide (b < a)

/-- A heading with the number of errors, and a line for each; nothing for no errors. -/
def listing (title : String) (texts : List String) : String :=
  if texts.isEmpty then ""
  else
    Nat.repr texts.length ++ " " ++ title ++ " error(s):\n"
      ++ String.join (texts.map fun t => "  - " ++ t ++ "\n")

def text (r : Report) : String :=
  if r.passed then "validation passed"
  else listing "scope" (r.scopeErrors.map ScopeError.text) ++ listing "use-chain" r.useTexts

end Report

namespace Context

/-- A value in words: what defines it. -/
def describe (ctx : Context) (v : ValueId) : Except Fault String := do
  match (← ctx.value v).origin with
  | .result id index =>
    let op ← ctx.op id
    let detached := if op.parent.isSome then "" else ", detached"
    return "result #" ++ Nat.repr index ++ " of " ++ op.fullName ++ " (" ++ id.text ++ detached ++ ")"
  | .argument b index => return "block arg #" ++ Nat.repr index ++ " of " ++ b.text

/-- The operands of an operation that are not among the visible values. -/
def operandErrors (ctx : Context) (visible : List ValueId) (id : OpId) (op : Op) :
    Except Fault (List ScopeError) :=
  op.operands.zipIdx.filterMapM fun (v, i) => do
    if v ∈ visible then return none
    else return some ⟨id, op.fullName, i, ← ctx.describe v⟩

/-- The values that the whole region sees from a block with the number `b`: all arguments,
and the results in the other blocks. -/
def siblingValues (b : BlockId) (blocks : List BlockTree) : List ValueId :=
  blocks.flatMap fun other =>
    other.args.map Prod.fst
      ++ (if other.id = b then [] else other.ops.flatMap fun t => t.op.results)

mutual

/-- The scope errors of operations that follow each other in a block. -/
def scopeErrorsOps (ctx : Context) (visible : List ValueId) :
    List OpTree → Except Fault (List ScopeError)
  | [] => return []
  | .node id op regions :: rest => do
    let own ← ctx.operandErrors visible id op
    let nested ← scopeErrorsRegions ctx visible regions
    let later ← scopeErrorsOps ctx (visible ++ op.results) rest
    return own ++ nested ++ later

def scopeErrorsRegions (ctx : Context) (visible : List ValueId) :
    List RegionTree → Except Fault (List ScopeError)
  | [] => return []
  | t :: rest => do
    let errors ← scopeErrors ctx visible t
    return errors ++ (← scopeErrorsRegions ctx visible rest)

/-- The scope errors of a region, in the order of the operations. -/
def scopeErrors (ctx : Context) (outer : List ValueId) : RegionTree → Except Fault (List ScopeError)
  | .node _ blocks => scopeErrorsBlocks ctx outer blocks blocks

def scopeErrorsBlocks (ctx : Context) (outer : List ValueId) (siblings : List BlockTree) :
    List BlockTree → Except Fault (List ScopeError)
  | [] => return []
  | .node b _ ops :: rest => do
    let errors ← scopeErrorsOps ctx (outer ++ siblingValues b siblings) ops
    return errors ++ (← scopeErrorsBlocks ctx outer siblings rest)

end

/-- The uses that the operands of the given operations make, each once. -/
def operandUses (ops : List (OpId × Op)) : List (ValueId × Use) :=
  (ops.flatMap fun (id, op) => op.operands.mapIdx fun i v => (v, ⟨id, i⟩)).eraseDups

/-- The values that a region defines. -/
def definedValues (t : RegionTree) : List ValueId :=
  (t.allBlocks.flatMap fun b => b.args.map Prod.fst) ++ (t.preorder.flatMap fun o => o.2.results)

/-- The use errors of a region: its operands that are not in the ledger, and the uses in
the ledger of its values that are not its operands. -/
def useErrors (ctx : Context) (t : RegionTree) : Except Fault (List UseError) := do
  let actual := operandUses t.preorder
  let unrecorded ← (actual.filter fun e => !ctx.ledger.contains e).mapM fun (v, u) => do
    return UseError.unrecorded u (← ctx.op u.user).fullName v
  let foreign ← ((definedValues t).flatMap fun v =>
      (ctx.uses v).filterMap fun u => if actual.contains (v, u) then none else some (v, u)).mapM
    fun (v, u) => do return UseError.foreign v (← ctx.describe v) u
  return unrecorded ++ foreign

/-- Checks the scopes in the body of an operation. -/
def validateScopes (ctx : Context) (id : OpId) : Except Fault Report := do
  match ← ctx.body id with
  | none => return {}
  | some r => return { scopeErrors := ← ctx.scopeErrors [] (← ctx.regionTree r) }

/-- Checks the use chains in the body of an operation. -/
def validateUses (ctx : Context) (id : OpId) : Except Fault Report := do
  match ← ctx.body id with
  | none => return {}
  | some r => return { useErrors := ← ctx.useErrors (← ctx.regionTree r) }

/-- Makes both checks. -/
def validate (ctx : Context) (id : OpId) : Except Fault Report := do
  let scopes ← ctx.validateScopes id
  let uses ← ctx.validateUses id
  return ⟨scopes.scopeErrors, uses.useErrors⟩

end Context

end RegionIR
