import RegionIR.Context.Edit
import RegionIR.Dialect.View

/-! Operations of the dialects, ready to be created. -/

namespace RegionIR

namespace OpSpec

/-- A bare operation of a kind. -/
def ofKind (location : Location) (kind : OpKind) : OpSpec :=
  { location, dialect := kind.dialect, name := kind.name }

def call (location : Location) (callee : String) (args : List ValueId) (type : Ty) : OpSpec :=
  { ofKind location .call with
    operands := args, resultTypes := [type], attrs := [("callee", .symbol callee)] }

def ret (location : Location) (values : List ValueId) : OpSpec :=
  { ofKind location .ret with operands := values }

def const (location : Location) (type : Ty) (value : Attr Ty) : OpSpec :=
  { ofKind location .const with resultTypes := [type], attrs := [("value", value)] }

def add (location : Location) (lhs rhs : ValueId) (type : Ty) : OpSpec :=
  { ofKind location .add with operands := [lhs, rhs], resultTypes := [type] }

def tupleNew (location : Location) (elements : List ValueId) (type : Ty) : OpSpec :=
  { ofKind location .tupleNew with operands := elements, resultTypes := [type] }

def tupleGet (location : Location) (tuple : ValueId) (type : Ty) (index : UInt64) : OpSpec :=
  { ofKind location .tupleGet with
    operands := [tuple], resultTypes := [type], attrs := [("index", .int index)] }

def structNew (location : Location) (fields : List ValueId) (type : Ty) : OpSpec :=
  { ofKind location .structNew with operands := fields, resultTypes := [type] }

def structExtract (location : Location) (struct : ValueId) (type : Ty) (field : String) : OpSpec :=
  { ofKind location .structExtract with
    operands := [struct], resultTypes := [type], attrs := [("field", .symbol field)] }

end OpSpec

namespace Context

/-- Creates a module with one block, which is empty. -/
def createModule (ctx : Context) (location : Location) (symbol : String) :
    Except Fault (Context × OpId × BlockId) := do
  let (ctx, block) := ctx.createBlock []
  let (ctx, body) ← ctx.createRegion [block]
  let (ctx, id) ← ctx.createOp
    { OpSpec.ofKind location .module with
      attrs := [("sym_name", .symbol symbol)], regions := [body] }
  return (ctx, id, block)

/-- Creates a function with one block, which is empty and has the parameters as arguments. -/
def createFunction (ctx : Context) (location : Location) (symbol : String) (params : List Ty)
    (result : Ty) : Except Fault (Context × OpId × BlockId) := do
  let (ctx, entry) := ctx.createBlock params
  let (ctx, body) ← ctx.createRegion [entry]
  let (ctx, id) ← ctx.createOp
    { OpSpec.ofKind location .function with
      attrs := [("sym_name", .symbol symbol), ("type", .type (Ty.function params result))]
      regions := [body] }
  return (ctx, id, entry)

end Context

end RegionIR
