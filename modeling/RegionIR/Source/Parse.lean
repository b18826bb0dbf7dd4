import RegionIR.Source.Grammar
import RegionIR.Source.Resolve

/-! Parsing a text into a context. -/

namespace RegionIR

/-- The message of every text that the grammar refuses. -/
def syntaxMessage : String :=
  "syntax error: Parsing Error: ContextError \x7b context: [], cause: None \x7d"

/-- The text as one source operation, with nothing but blanks after it. -/
def SourceOp.parse (text : String) : Except ParseError SourceOp :=
  let s := text.toList
  let total := Reader.byteCount s
  match Reader.op total s with
  | .fail rest => .error ⟨syntaxMessage, total - Reader.byteCount rest⟩
  | .ok op rest =>
    match rest.dropWhile Reader.isBlank with
    | [] => .ok op
    | trailing =>
      .error ⟨"trailing input after top-level operation", total - Reader.byteCount trailing⟩

/-- Reads one operation from a text and creates it in the context. The context that comes
back holds whatever was created, also when the text is rejected. -/
def Context.parse (ctx : Context) (text : String) : Except ResolveError OpId × Context :=
  match SourceOp.parse text with
  | .error e => (.error (.rejected e), ctx)
  | .ok source =>
    let (result, ctx) := (Resolve.op {} source).run.run ctx
    (result.map Prod.fst, ctx)

end RegionIR
