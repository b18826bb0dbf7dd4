import RegionIR.Text.Quoted

/-! Readers of text.

A reader takes something from the front of a text. On success it leaves the rest; on
failure it leaves the text from where it gave up. Readers in sequence do not go back:
only `optional`, `orElse` and the lists of items start again where they began.

Recursive readers take a list of characters as a bound and go one level deeper, or one item
further, for each character of it. Each level and each item takes a character of the text,
so the text itself is bound enough. -/

namespace RegionIR

/-- The outcome of reading: what was read, and the text that is left. -/
inductive Reading (α : Type) where
  | ok (a : α) (rest : List Char)
  | fail (rest : List Char)

def Reader (α : Type) := List Char → Reading α

namespace Reader

variable {α β : Type}

instance : Monad Reader where
  pure a := fun s => .ok a s
  bind p f := fun s =>
    match p s with
    | .ok a rest => f a rest
    | .fail rest => .fail rest

/-- Gives up without reading anything. -/
def fail : Reader α := fun s => .fail s

/-- The text ahead, of which nothing is read. -/
def ahead : Reader (List Char) := fun s => .ok s s

/-- One character, whatever it is. -/
def any : Reader Char
  | [] => .fail []
  | c :: rest => .ok c rest

/-- One character of a class. -/
def one (p : Char → Bool) : Reader Char
  | [] => .fail []
  | c :: rest => if p c then .ok c rest else .fail (c :: rest)

def char (c : Char) : Reader Unit := fun s =>
  match s with
  | [] => .fail []
  | d :: rest => if d = c then .ok () rest else .fail s

/-- The longest front part in a class, possibly empty. -/
def run (p : Char → Bool) : Reader (List Char) :=
  fun s => .ok (s.takeWhile p) (s.dropWhile p)

/-- The longest front part in a class, which must not be empty. -/
def run1 (p : Char → Bool) : Reader (List Char) := fun s =>
  match s.takeWhile p with
  | [] => .fail s
  | c :: cs => .ok (c :: cs) (s.dropWhile p)

/-- A fixed text. -/
def literal (text : String) : Reader Unit := fun s =>
  if text.toList.isPrefixOf s then .ok () (s.drop text.toList.length) else .fail s

/-- What `p` reads, or nothing. -/
def optional (p : Reader α) : Reader (Option α) := fun s =>
  match p s with
  | .ok a rest => .ok (some a) rest
  | .fail _ => .ok none s

/-- What `p` reads, or from the same place what `q` reads. -/
def orElse (p q : Reader α) : Reader α := fun s =>
  match p s with
  | .ok a rest => .ok a rest
  | .fail _ => q s

/-- Further items, each after a separator. A separator without an item is left unread. -/
def furtherItems (item : Reader α) (separator : Reader β) :
    (bound : List Char) → List Char → List α × List Char
  | [], s => ([], s)
  | _ :: bound, s =>
    match separator s with
    | .fail _ => ([], s)
    | .ok _ t =>
      match item t with
      | .fail _ => ([], s)
      | .ok a rest =>
        let (as, rest) := furtherItems item separator bound rest
        (a :: as, rest)

/-- One or more items with separators between them. -/
def items1 (item : Reader α) (separator : Reader β) : Reader (List α) := fun s =>
  match item s with
  | .fail rest => .fail rest
  | .ok a rest =>
    let (as, rest) := furtherItems item separator rest rest
    .ok (a :: as) rest

/-- Items with separators between them, possibly none. -/
def items (item : Reader α) (separator : Reader β) : Reader (List α) := fun s =>
  match item s with
  | .fail _ => .ok [] s
  | .ok a rest =>
    let (as, rest) := furtherItems item separator rest rest
    .ok (a :: as) rest

/-- ASCII blanks: space, tab, line feed, form feed and carriage return. -/
def isBlank (c : Char) : Bool :=
  c == ' ' || c == '\t' || c == '\n' || c == '\x0c' || c == '\r'

/-- Blanks, possibly none. -/
def blanks : Reader Unit := do
  let _ ← run isBlank

/-- Items as long as the text after blanks satisfies `more`. -/
def whileAhead (more : List Char → Bool) (item : Reader α) : (bound : List Char) → Reader (List α)
  | [] => do
    blanks
    if more (← ahead) then fail else return []
  | _ :: bound => do
    blanks
    if more (← ahead) then
      let a ← item
      return a :: (← whileAhead more item bound)
    else return []

/-- Items as long as the text after blanks satisfies `more`. -/
def many (more : List Char → Bool) (item : Reader α) : Reader (List α) :=
  fun s => whileAhead more item s s

/-- `item` between `opening` and `closing`, with blanks inside. -/
def between (opening closing : Char) (item : Reader α) : Reader α := do
  char opening
  blanks
  let a ← item
  blanks
  char closing
  return a

/-- `item` with blanks around it. -/
def spaced (item : Reader α) : Reader α := do
  blanks
  let a ← item
  blanks
  return a

end Reader

end RegionIR
