import RegionIR.Ty.Dict

/-! Types and attributes.

A type has a dialect, a name, parameter types and a dictionary of attributes. An
attribute is a constant, which may mention types. Attributes are parametric in what
stands for a type, so that the same constants serve trees of types and tables of them. -/

namespace RegionIR

/-- A compile-time constant. Integers and floats are kept as 64 bits. -/
inductive Attr (τ : Type) where
  | unit
  | bool (b : Bool)
  | int (bits : UInt64)
  | float (bits : UInt64)
  | string (s : String)
  | symbol (s : String)
  | type (t : τ)
  | list (items : List (Attr τ))

/-- A type as a tree. -/
inductive Ty where
  | mk (dialect name : String) (params : List Ty) (attrs : List (String × Attr Ty))

namespace Attr

variable {τ : Type}

def asInt : Attr τ → Option UInt64
  | .int bits => some bits
  | _ => none

def asSymbol : Attr τ → Option String
  | .symbol s => some s
  | _ => none

def asType : Attr τ → Option τ
  | .type t => some t
  | _ => none

def asList : Attr τ → Option (List (Attr τ))
  | .list items => some items
  | _ => none

mutual

/-- Whether the attribute mentions a type, at any depth of lists. -/
def containsType : Attr τ → Bool
  | .type _ => true
  | .list items => anyContainsType items
  | _ => false

def anyContainsType : List (Attr τ) → Bool
  | [] => false
  | a :: rest => a.containsType || anyContainsType rest

end

mutual

/-- The types that the attribute mentions, in order. -/
def types : Attr τ → List τ
  | .type t => [t]
  | .list items => itemTypes items
  | _ => []

def itemTypes : List (Attr τ) → List τ
  | [] => []
  | a :: rest => a.types ++ itemTypes rest

end

section Traversal

variable {m : Type → Type} [Monad m] {σ : Type}

mutual

/-- The attribute with `f` done to every type in it, in order. -/
def mapTypesM (f : τ → m σ) : Attr τ → m (Attr σ)
  | .type t => do return .type (← f t)
  | .list items => do return .list (← mapItemTypesM f items)
  | .unit => return .unit
  | .bool b => return .bool b
  | .int bits => return .int bits
  | .float bits => return .float bits
  | .string s => return .string s
  | .symbol s => return .symbol s

def mapItemTypesM (f : τ → m σ) : List (Attr τ) → m (List (Attr σ))
  | [] => return []
  | a :: rest => do
    let b ← mapTypesM f a
    return b :: (← mapItemTypesM f rest)

end

mutual

/-- Whether `p` holds of every type in the attribute; asked in order, up to the first that fails. -/
def allTypesM (p : τ → m Bool) : Attr τ → m Bool
  | .type t => p t
  | .list items => allItemTypesM p items
  | _ => return true

def allItemTypesM (p : τ → m Bool) : List (Attr τ) → m Bool
  | [] => return true
  | a :: rest => do
    if ← allTypesM p a then allItemTypesM p rest else return false

end

end Traversal

end Attr

namespace Ty

def dialect : Ty → String
  | .mk d _ _ _ => d

def name : Ty → String
  | .mk _ n _ _ => n

def params : Ty → List Ty
  | .mk _ _ ps _ => ps

def attrs : Ty → Dict (Attr Ty)
  | .mk _ _ _ as => as

/-- Whether the type is called `dialect.name`. -/
def is (t : Ty) (dialect name : String) : Bool :=
  t.dialect == dialect && t.name == name

mutual

/-- The type with the attributes of every type in it put in key order; of entries
with one key the last is kept. -/
def canonical : Ty → Ty
  | .mk d n ps as => .mk d n (canonicalList ps) (Dict.ofEntries (canonicalEntries as))

def canonicalList : List Ty → List Ty
  | [] => []
  | t :: rest => t.canonical :: canonicalList rest

def canonicalEntries : List (String × Attr Ty) → List (String × Attr Ty)
  | [] => []
  | (k, a) :: rest => (k, canonicalAttr a) :: canonicalEntries rest

/-- The attribute with every type in it made canonical. -/
def canonicalAttr : Attr Ty → Attr Ty
  | .type t => .type t.canonical
  | .list items => .list (canonicalAttrs items)
  | .unit => .unit
  | .bool b => .bool b
  | .int bits => .int bits
  | .float bits => .float bits
  | .string s => .string s
  | .symbol s => .symbol s

def canonicalAttrs : List (Attr Ty) → List (Attr Ty)
  | [] => []
  | a :: rest => canonicalAttr a :: canonicalAttrs rest

end

end Ty

end RegionIR
