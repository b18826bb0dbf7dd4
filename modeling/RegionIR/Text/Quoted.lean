/-! Quoted strings and symbols.

A string is written between double quotes. The backslash, the double quote and
the three control characters newline, tab and carriage return are written with
a backslash; every other character stands for itself. A symbol is an at sign
followed by a word, or by a quoted string when its text is not a word. -/

namespace RegionIR.Text

/-- The ASCII letters, digits and the underscore: the characters of a word. -/
def isWordChar (c : Char) : Bool :=
  c.isAlphanum || c == '_'

/-- The ASCII letters and the underscore: the characters that may start a name. -/
def isNameStart (c : Char) : Bool :=
  c.isAlpha || c == '_'

/-- One character as it stands inside double quotes. -/
def escapeChar (c : Char) : List Char :=
  if c = '\\' then ['\\', '\\']
  else if c = '"' then ['\\', '"']
  else if c = '\n' then ['\\', 'n']
  else if c = '\t' then ['\\', 't']
  else if c = '\r' then ['\\', 'r']
  else [c]

/-- A text as it stands inside double quotes. -/
def escape (s : String) : String :=
  String.ofList (s.toList.flatMap escapeChar)

/-- A text between double quotes. -/
def quote (s : String) : String :=
  "\"" ++ escape s ++ "\""

/-- A text that can stand after the at sign without quotes. -/
def isWord (s : String) : Bool :=
  !s.isEmpty && s.toList.all isWordChar

/-- A symbol with its at sign, quoted when its text is not a word. -/
def symbol (s : String) : String :=
  if isWord s then "@" ++ s else "@" ++ quote s

end RegionIR.Text
