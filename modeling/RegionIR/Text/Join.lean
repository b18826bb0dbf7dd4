/-! Lists of texts with a separator between neighbours. -/

namespace RegionIR.Text

/-- The texts in order, with `separator` between neighbours and nowhere else. -/
def joinWith (separator : String) : List String → String
  | [] => ""
  | [s] => s
  | s :: t :: rest => s ++ separator ++ joinWith separator (t :: rest)

/-- The text repeated `n` times. -/
def spaces : Nat → String
  | 0 => ""
  | n + 1 => " " ++ spaces n

end RegionIR.Text
