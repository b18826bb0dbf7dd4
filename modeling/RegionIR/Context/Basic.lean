import RegionIR.Ty.Equality

/-! The entities of a program and the context that holds them.

An operation uses values, defines values and owns regions; a region owns blocks; a block
defines values as its arguments and owns operations. Entities are numbered in the order of
their creation, one count for each kind, and refer to each other by number. Beside the
entities the context keeps a ledger of the uses of values. -/

namespace RegionIR

structure OpId where
  index : Nat
  deriving DecidableEq

structure ValueId where
  index : Nat
  deriving DecidableEq

structure BlockId where
  index : Nat
  deriving DecidableEq

structure RegionId where
  index : Nat
  deriving DecidableEq

def OpId.text (id : OpId) : String := "op" ++ Nat.repr id.index

def ValueId.text (id : ValueId) : String := "v" ++ Nat.repr id.index

def BlockId.text (id : BlockId) : String := "block" ++ Nat.repr id.index

def RegionId.text (id : RegionId) : String := "region" ++ Nat.repr id.index

/-- A range of bytes of a source text. -/
structure Span where
  start : Nat
  stop : Nat
  deriving DecidableEq

/-- The length of the range; a range that ends before its start is empty. -/
def Span.length (s : Span) : Nat := s.stop - s.start

def Span.isEmpty (s : Span) : Bool := s.length == 0

/-- Where an operation comes from. -/
structure Location where
  path : String
  span : Span
  deriving DecidableEq

/-- Operand number `operand` of the operation `user`. -/
structure Use where
  user : OpId
  operand : Nat
  deriving DecidableEq

/-- What defines a value: a result of an operation or an argument of a block. -/
inductive Origin where
  | result (op : OpId) (index : Nat)
  | argument (block : BlockId) (index : Nat)
  deriving DecidableEq

structure Value where
  origin : Origin
  ty : Ty
  deriving DecidableEq

structure Op where
  location : Location
  dialect : String
  name : String
  operands : List ValueId := []
  resultTypes : List Ty := []
  results : List ValueId := []
  attrs : Dict (Attr Ty) := []
  regions : List RegionId := []
  successors : List BlockId := []
  parent : Option BlockId := none
  deriving DecidableEq

/-- The full name of an operation, with its dialect. -/
def Op.fullName (op : Op) : String := op.dialect ++ "." ++ op.name

/-- Whether the operation is called `dialect.name`. -/
def Op.is (op : Op) (dialect name : String) : Bool :=
  op.dialect == dialect && op.name == name

structure Block where
  argTypes : List Ty := []
  args : List ValueId := []
  ops : List OpId := []
  parent : Option RegionId := none
  deriving DecidableEq

structure Region where
  blocks : List BlockId := []
  parent : Option OpId := none
  deriving DecidableEq

/-- All entities. The ledger lists every recorded use of a value, oldest first. -/
structure Context where
  ops : Array Op := #[]
  values : Array Value := #[]
  blocks : Array Block := #[]
  regions : Array Region := #[]
  ledger : List (ValueId × Use) := []

/-- Requests that a context refuses. -/
inductive Fault where
  | outOfBounds
  | parentPreset
  | regionOwned (region : RegionId) (owner : OpId)
  | blockOwned (block : BlockId) (owner : RegionId)
  | pushAttached (op : OpId) (owner : BlockId)
  | insertAttached (op : OpId) (owner : BlockId)
  | anchorMissing (anchor : OpId) (block : BlockId)
  | removeAttached (op : OpId) (owner : BlockId)
  | resultUsed (value : ValueId) (uses : Nat)
  | staleUse (value : ValueId)
  | resultCount (old new : Nat)
  | cyclicOwnership
  deriving DecidableEq

def Fault.message : Fault → String
  | .outOfBounds => "index out of bounds"
  | .parentPreset =>
    "create_op: operation must not have parent_block set; attach it with push_op after creation"
  | .regionOwned region owner =>
    "create_op: region " ++ region.text ++ " already belongs to operation " ++ owner.text
  | .blockOwned block owner =>
    "create_region: block " ++ block.text ++ " already belongs to " ++ owner.text
  | .pushAttached op owner =>
    "push_op: operation " ++ op.text ++ " already belongs to " ++ owner.text
  | .insertAttached op owner =>
    "insert_op_before: operation " ++ op.text ++ " already belongs to " ++ owner.text
  | .anchorMissing anchor block =>
    "insert_op_before: " ++ anchor.text ++ " is not in " ++ block.text
  | .removeAttached op owner =>
    "remove_op: operation " ++ op.text ++ " is still attached to " ++ owner.text
      ++ "; call remove_op_from_block first"
  | .resultUsed value uses =>
    "remove_op: result value " ++ value.text ++ " still has " ++ Nat.repr uses ++ " use(s)"
  | .staleUse value => "replace_all_uses: a recorded use of " ++ value.text ++ " is stale"
  | .resultCount old new =>
    "result count mismatch (" ++ Nat.repr old ++ " vs " ++ Nat.repr new ++ ")"
  | .cyclicOwnership => "ownership is cyclic"

namespace Context

def op (ctx : Context) (id : OpId) : Except Fault Op :=
  match ctx.ops[id.index]? with
  | some op => .ok op
  | none => .error .outOfBounds

def value (ctx : Context) (id : ValueId) : Except Fault Value :=
  match ctx.values[id.index]? with
  | some value => .ok value
  | none => .error .outOfBounds

def block (ctx : Context) (id : BlockId) : Except Fault Block :=
  match ctx.blocks[id.index]? with
  | some block => .ok block
  | none => .error .outOfBounds

def region (ctx : Context) (id : RegionId) : Except Fault Region :=
  match ctx.regions[id.index]? with
  | some region => .ok region
  | none => .error .outOfBounds

/-- The recorded uses of a value, oldest first. -/
def uses (ctx : Context) (id : ValueId) : List Use :=
  ctx.ledger.filterMap fun (v, u) => if v = id then some u else none

def hasUses (ctx : Context) (id : ValueId) : Bool :=
  !(ctx.uses id).isEmpty

/-- The type of a value. -/
def typeOf (ctx : Context) (id : ValueId) : Except Fault Ty := do
  return (← ctx.value id).ty

def modifyOp (ctx : Context) (id : OpId) (f : Op → Op) : Context :=
  { ctx with ops := ctx.ops.modify id.index f }

def modifyValue (ctx : Context) (id : ValueId) (f : Value → Value) : Context :=
  { ctx with values := ctx.values.modify id.index f }

def modifyBlock (ctx : Context) (id : BlockId) (f : Block → Block) : Context :=
  { ctx with blocks := ctx.blocks.modify id.index f }

def modifyRegion (ctx : Context) (id : RegionId) (f : Region → Region) : Context :=
  { ctx with regions := ctx.regions.modify id.index f }

/-- The region that an operation owns first. -/
def body (ctx : Context) (id : OpId) : Except Fault (Option RegionId) := do
  return (← ctx.op id).regions.head?

/-- Whether an operation stands in a block. -/
def isAttached (ctx : Context) (id : OpId) : Except Fault Bool := do
  return (← ctx.op id).parent.isSome

end Context

/-- The entry of a list at a position. -/
def entryAt {α : Type} (l : List α) (index : Nat) : Except Fault α :=
  match l[index]? with
  | some a => .ok a
  | none => .error .outOfBounds

end RegionIR
