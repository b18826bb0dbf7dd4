import RegionIR.Pipeline

/-! The command line: lowers the tuples of a module read from a file or from standard input.

Arguments are `[FILE]`, `--verify`, `--stats`, and `-v` or `--verbose`, which may be repeated.
After `--` every argument is a file. -/

namespace RegionIR

namespace CommandLine

structure Options where
  file : Option String := none
  verify : Bool := false
  stats : Bool := false
  verbosity : Nat := 0
  deriving DecidableEq

/-- Why the arguments are not those of a run. -/
inductive Refusal where
  | help
  | unexpected (argument : String)
  | repeated (argument : String)
  | emptyFile
  deriving DecidableEq

/-- Takes an argument as the file. -/
def Options.withFile (o : Options) (file : String) : Except Refusal Options :=
  if file.isEmpty then .error .emptyFile
  else if o.file.isSome then .error (.unexpected file)
  else .ok { o with file := some file }

/-- Takes the letters of an argument with one dash. -/
def Options.withLetters (o : Options) (argument : String) : List Char → Except Refusal Options
  | [] => .ok o
  | 'v' :: rest => { o with verbosity := o.verbosity + 1 }.withLetters argument rest
  | 'h' :: _ => .error .help
  | _ => .error (.unexpected argument)

/-- Takes one argument in front of `--`. -/
def Options.withArgument (o : Options) (argument : String) : Except Refusal Options :=
  if argument = "--help" then .error .help
  else if argument = "--verbose" then .ok { o with verbosity := o.verbosity + 1 }
  else if argument = "--verify" then
    if o.verify then .error (.repeated argument) else .ok { o with verify := true }
  else if argument = "--stats" then
    if o.stats then .error (.repeated argument) else .ok { o with stats := true }
  else
    match argument.toList with
    | '-' :: '-' :: _ => .error (.unexpected argument)
    | '-' :: c :: cs => o.withLetters argument (c :: cs)
    | _ => o.withFile argument

/-- The options that the arguments give. -/
def Options.ofArguments (o : Options) : List String → Except Refusal Options
  | [] => .ok o
  | argument :: rest =>
    if argument = "--" then rest.foldlM Options.withFile o
    else do (← o.withArgument argument).ofArguments rest

/-- What a run leaves behind. -/
structure Response where
  code : Nat
  stdout : String := ""
  stderr : String := ""
  deriving DecidableEq

def usage : String :=
  "Usage: region-opt [--verify] [--stats] [-v|--verbose]... [FILE]\n"

def Refusal.response : Refusal → Response
  | .help => { code := 0, stdout := usage }
  | .unexpected argument =>
    { code := 2, stderr := "error: unexpected argument '" ++ argument ++ "'\n" ++ usage }
  | .repeated argument =>
    { code := 2, stderr := "error: repeated argument '" ++ argument ++ "'\n" ++ usage }
  | .emptyFile => { code := 2, stderr := "error: empty file name\n" ++ usage }

/-- Why there is no source text. -/
inductive InputError where
  | missing
  | notText
  | other (message : String)
  deriving DecidableEq

def InputError.message : InputError → String
  | .missing => "I/O error: No such file or directory (os error 2)"
  | .notText => "I/O error: stream did not contain valid UTF-8"
  | .other message => "I/O error: " ++ message

/-- The text that bytes encode. -/
def decode (bytes : ByteArray) : Except InputError String :=
  match String.fromUTF8? bytes with
  | some text => .ok text
  | none => .error .notText

def failure (message : String) : Response :=
  { code := 1, stderr := "error: " ++ message ++ "\n" }

/-- What a run with these options makes of its input. -/
def Options.respond (o : Options) (input : Except InputError String) : Response :=
  match input with
  | .error e => failure e.message
  | .ok text =>
    match Pipeline.lower text o.verify with
    | .error e => failure e.message
    | .ok lowered =>
      { code := 0, stdout := lowered.text
        stderr :=
          if o.stats then
            "rewrites: " ++ Nat.repr lowered.stats.rewrites ++ ", retyped: "
              ++ Nat.repr lowered.stats.retyped ++ "\n"
          else "" }

end CommandLine

end RegionIR
