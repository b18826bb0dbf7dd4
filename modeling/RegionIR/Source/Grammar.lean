import RegionIR.Source.Basic
import RegionIR.Source.Literal

/-! The grammar of types, attributes and operations.

An attribute is read by the first of these that fits: the words `true`, `false` and `unit`,
a string, a symbol, a list, a float, an integer, a type. The words are taken even from the
front of a longer name. -/

namespace RegionIR

namespace Reader

/-- Items between parentheses or brackets, with commas between them. -/
def listed {α : Type} (opening closing : Char) (item : Reader α) : Reader (List α) :=
  between opening closing (items (spaced item) (char ','))

/-- One entry of a dictionary. -/
def entryWith (attr : Reader (Attr Ty)) : Reader (String × Attr Ty) := do
  let key ← name
  blanks
  char '='
  blanks
  return (key, ← attr)

/-- The entries of a dictionary between braces, at least one. -/
def dictWith (attr : Reader (Attr Ty)) : Reader (List (String × Attr Ty)) :=
  between '\x7b' '\x7d' (items1 (spaced (entryWith attr)) (char ','))

/-- A type, given readers of its parameters and of its attributes. Attributes are read only
after parentheses; without these a brace belongs to what follows the type. -/
def typeWith (type : Reader Ty) (attr : Reader (Attr Ty)) : Reader Ty := do
  let (dialect, name) ← qualifiedName
  match ← optional (listed '(' ')' type) with
  | none => return .mk dialect name [] []
  | some params =>
    let attrs ← optional (do blanks; dictWith attr)
    return .mk dialect name params (attrs.getD [])

/-- An attribute, given readers of the types and of the attributes in it. -/
def attrWith (type : Reader Ty) (attr : Reader (Attr Ty)) : Reader (Attr Ty) :=
  orElse (do literal "true"; return .bool true) <|
  orElse (do literal "false"; return .bool false) <|
  orElse (do literal "unit"; return .unit) <|
  orElse (do return .string (← quoted)) <|
  orElse (do return .symbol (← symbol)) <|
  orElse (do return .list (← listed '[' ']' attr)) <|
  orElse (do return .float (← float)) <|
  orElse (do return .int (← integer)) <|
  (do return .type (← type))

mutual

/-- A type in which types and attributes are nested less deep than the bound is long. -/
def typeWithin : (bound : List Char) → Reader Ty
  | [] => fail
  | _ :: bound => typeWith (typeWithin bound) (attrWithin bound)

/-- An attribute in which types and attributes are nested less deep than the bound is long. -/
def attrWithin : (bound : List Char) → Reader (Attr Ty)
  | [] => fail
  | _ :: bound =>
    attrWith (typeWith (typeWithin bound) (attrWithin bound)) (attrWithin bound)

end

def type : Reader Ty := fun s => typeWithin s s

def attr : Reader (Attr Ty) := fun s => attrWithin s s

/-- The entries of a dictionary. -/
def dict : Reader (List (String × Attr Ty)) := dictWith attr

/-- The names of the results of an operation, with the equals sign. -/
def resultNames : Reader (List String) := do
  let names ← items1 (spaced valueName) (char ',')
  char '='
  return names

/-- The operands of an operation. They start on the line of its name, because names on the
next line are results of the next operation. -/
def operandNames : Reader (List String) := do
  let _ ← run fun c => c == ' ' || c == '\t'
  items1 valueName (spaced (char ','))

def successorLabels : Reader (List String) := do
  blanks
  between '[' ']' (items1 (spaced blockLabel) (char ','))

def resultTypes : Reader (List Ty) := do
  blanks
  char ':'
  blanks
  items1 (spaced type) (char ',')

/-- The number of bytes of a text. -/
def byteCount (s : List Char) : Nat :=
  s.foldl (fun n c => n + c.utf8Size) 0

/-- An operation up to its regions; `total` is the number of bytes of the whole text. -/
def head (total : Nat) : Reader SourceHead := do
  blanks
  let offset := total - byteCount (← ahead)
  let results ← optional resultNames
  blanks
  let (dialect, name) ← qualifiedName
  let symbol ← optional (do blanks; symbol)
  let operands ← optional operandNames
  let successors ← optional successorLabels
  let attrs ← optional (do blanks; dict)
  let resultTypes ← optional resultTypes
  return {
    offset, results := results.getD [], dialect, name, symbol
    operands := operands.getD []
    successors := successors.getD []
    attrs := attrs.getD []
    resultTypes := resultTypes.getD [] }

/-- Operations up to the next label, the closing brace or the end. -/
def opsWith (op : Reader SourceOp) : Reader (List SourceOp) :=
  many (fun s => !(s.isEmpty || s.head? = some '^' || s.head? = some '\x7d')) op

/-- The arguments of a block. -/
def blockArgs : Reader (List (String × Ty)) :=
  listed '(' ')' do
    let name ← valueName
    blanks
    char ':'
    blanks
    return (name, ← type)

/-- A block with its label. -/
def blockWith (op : Reader SourceOp) : Reader SourceBlock := do
  blanks
  let label ← blockLabel
  let args ← optional blockArgs
  blanks
  char ':'
  return .mk label (args.getD []) (← opsWith op)

/-- The blocks of a region: labelled ones, or operations without a label as the only block,
or none. -/
def blocksWith (op : Reader SourceOp) : Reader (List SourceBlock) := do
  let s ← ahead
  if s.head? = some '^' then many (fun s => s.head? = some '^') (blockWith op)
  else if s.head? = some '\x7d' then return []
  else return [.mk SourceBlock.implicitLabel [] (← opsWith op)]

def regionWith (op : Reader SourceOp) : Reader SourceRegion := do
  return .mk (← between '\x7b' '\x7d' (blocksWith op))

/-- An operation in which operations are nested less deep than the bound is long. -/
def opWithin (total : Nat) : (bound : List Char) → Reader SourceOp
  | [] => fail
  | _ :: bound => do
    let h ← head total
    let regions ← many (fun s => s.head? = some '\x7b') (regionWith (opWithin total bound))
    return .mk h regions

/-- An operation; `total` is the number of bytes of the whole text. -/
def op (total : Nat) : Reader SourceOp := fun s => opWithin total s s

end Reader

end RegionIR
