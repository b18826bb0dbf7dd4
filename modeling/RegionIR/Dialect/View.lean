import RegionIR.Context.Basic
import RegionIR.Ty.Builtin

/-! Typed views of operations.

The dialects are `core` with modules, `func` with functions, calls and returns, `arith` with
constants and sums, and `adt` with tuples and structs. A view of an operation as one of these
checks its name, its counts and its attributes, and names its parts. -/

namespace RegionIR

/-- The operations that the dialects know. -/
inductive OpKind where
  | module
  | function
  | call
  | ret
  | const
  | add
  | tupleNew
  | tupleGet
  | structNew
  | structExtract
  deriving DecidableEq

namespace OpKind

def dialect : OpKind → String
  | .module => "core"
  | .function | .call | .ret => "func"
  | .const | .add => "arith"
  | .tupleNew | .tupleGet | .structNew | .structExtract => "adt"

def name : OpKind → String
  | .module => "module"
  | .function => "func"
  | .call => "call"
  | .ret => "return"
  | .const => "const"
  | .add => "add"
  | .tupleNew => "tuple_new"
  | .tupleGet => "tuple_get"
  | .structNew => "struct_new"
  | .structExtract => "struct_extract"

def fullName (k : OpKind) : String := k.dialect ++ "." ++ k.name

def all : List OpKind :=
  [.module, .function, .call, .ret, .const, .add, .tupleNew, .tupleGet, .structNew, .structExtract]

end OpKind

/-- Why an operation cannot be viewed as one of a kind. -/
inductive ViewError where
  | wrongOperation (expected actual : String)
  | missingAttribute (key : String)
  | missingRegion (region : String)
  | wrongAttributeType (key : String)
  | wrongOperandCount (expected actual : Nat)
  | wrongResultCount (expected actual : Nat)
  deriving DecidableEq

def ViewError.message : ViewError → String
  | .wrongOperation expected actual => "expected " ++ expected ++ ", found " ++ actual
  | .missingAttribute key => "missing attribute `" ++ key ++ "`"
  | .missingRegion region => "missing region `" ++ region ++ "`"
  | .wrongAttributeType key => "attribute `" ++ key ++ "` has the wrong kind"
  | .wrongOperandCount expected actual =>
    "expected " ++ Nat.repr expected ++ " operand(s), found " ++ Nat.repr actual
  | .wrongResultCount expected actual =>
    "expected " ++ Nat.repr expected ++ " result(s), found " ++ Nat.repr actual

/-- An operation of a known kind with its parts. -/
inductive OpView where
  | module (symbol : String) (body : RegionId)
  | function (symbol : String) (type : Ty) (body : RegionId)
  | call (callee : String) (args results : List ValueId)
  | ret (values : List ValueId)
  | const (value : Attr Ty) (result : ValueId)
  | add (lhs rhs result : ValueId)
  | tupleNew (elements : List ValueId) (result : ValueId) (type : Ty)
  | tupleGet (tuple : ValueId) (index : UInt64) (result : ValueId)
  | structNew (fields : List ValueId) (result : ValueId) (type : Ty)
  | structExtract (struct : ValueId) (field : String) (result : ValueId)

namespace Op

/-- An attribute that must be there and of the right kind. -/
def required {α : Type} (op : Op) (key : String) (project : Attr Ty → Option α) :
    Except ViewError α :=
  match op.attrs.find? key with
  | none => .error (.missingAttribute key)
  | some a =>
    match project a with
    | none => .error (.wrongAttributeType key)
    | some x => .ok x

/-- The only region, called the body. -/
def onlyRegion (op : Op) : Except ViewError RegionId :=
  match op.regions with
  | [r] => .ok r
  | _ => .error (.missingRegion "body")

/-- The only result with its type. -/
def onlyResult (op : Op) : Except ViewError (ValueId × Ty) :=
  match op.resultTypes, op.results with
  | [ty], [v] => .ok (v, ty)
  | [_], vs => .error (.wrongResultCount 1 vs.length)
  | tys, _ => .error (.wrongResultCount 1 tys.length)

def onlyOperand (op : Op) : Except ViewError ValueId :=
  match op.operands with
  | [v] => .ok v
  | vs => .error (.wrongOperandCount 1 vs.length)

def twoOperands (op : Op) : Except ViewError (ValueId × ValueId) :=
  match op.operands with
  | [v, w] => .ok (v, w)
  | vs => .error (.wrongOperandCount 2 vs.length)

/-- The operation as one of a kind, its name apart. A struct must have as many operands as
its type has fields, if these are well-formed. -/
def viewParts (op : Op) : OpKind → Except ViewError OpView
  | .module => do
    let symbol ← op.required "sym_name" Attr.asSymbol
    return .module symbol (← op.onlyRegion)
  | .function => do
    let symbol ← op.required "sym_name" Attr.asSymbol
    let type ← op.required "type" Attr.asType
    return .function symbol type (← op.onlyRegion)
  | .call => do
    let callee ← op.required "callee" Attr.asSymbol
    return .call callee op.operands op.results
  | .ret =>
    if op.resultTypes.isEmpty then .ok (.ret op.operands)
    else .error (.wrongResultCount 0 op.resultTypes.length)
  | .const => do
    let (result, _) ← op.onlyResult
    return .const (← op.required "value" some) result
  | .add => do
    let (lhs, rhs) ← op.twoOperands
    let (result, _) ← op.onlyResult
    return .add lhs rhs result
  | .tupleNew => do
    let (result, type) ← op.onlyResult
    return .tupleNew op.operands result type
  | .tupleGet => do
    let tuple ← op.onlyOperand
    let (result, _) ← op.onlyResult
    return .tupleGet tuple (← op.required "index" Attr.asInt) result
  | .structNew => do
    let (result, type) ← op.onlyResult
    match type.structFields with
    | none => return .structNew op.operands result type
    | some fields =>
      if op.operands.length = fields.length then return .structNew op.operands result type
      else throw (.wrongOperandCount fields.length op.operands.length)
  | .structExtract => do
    let struct ← op.onlyOperand
    let (result, _) ← op.onlyResult
    return .structExtract struct (← op.required "field" Attr.asSymbol) result

/-- The operation as one of a kind. -/
def view (op : Op) (kind : OpKind) : Except ViewError OpView :=
  if op.is kind.dialect kind.name then op.viewParts kind
  else .error (.wrongOperation kind.fullName op.fullName)

end Op

end RegionIR
