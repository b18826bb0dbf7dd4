import RegionIR.CommandLine

/-! The program: reads the input, writes the answer. -/

open RegionIR.CommandLine

/-- The bytes of the input file, or of standard input. -/
def readInput (file : Option String) : IO (Except InputError String) := do
  try
    match file with
    | some path => return decode (← IO.FS.readBinFile path)
    | none => return decode (← (← IO.getStdin).readBinToEnd)
  catch
    | .noFileOrDirectory .. => return .error .missing
    | e => return .error (.other (toString e))

def main (arguments : List String) : IO UInt32 := do
  let response ←
    match Options.ofArguments {} arguments with
    | .error refusal => pure refusal.response
    | .ok options => do pure (options.respond (← readInput options.file))
  (← IO.getStderr).putStr response.stderr
  (← IO.getStdout).putStr response.stdout
  return UInt32.ofNat response.code
