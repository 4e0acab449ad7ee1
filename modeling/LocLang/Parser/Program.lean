import LocLang.Parser.Phrases

namespace LocLang

namespace Parser

/-- The names of variants with commas between them; one more comma may stand at the end. -/
def variants : Nat → Parser (List String)
  | 0 => outOfSteps
  | n + 1 => do
    let variant ← want .ident
    if ← accept .comma then
      if ← has .ident then
        let rest ← variants n
        pure (variant.text :: rest)
      else pure [variant.text]
    else pure [variant.text]

def enumDef : Parser EnumDef := do
  let start ← want .kwEnum
  let name ← want .ident
  let _ ← want .lbrace
  let variants ← variants (← budget)
  let _ ← want .rbrace
  pure ⟨← spanFrom start.span, name.text, variants⟩

def param : Parser Param := do
  let start ← current
  let modes ← modes
  let name ← want .ident
  let _ ← want .colon
  let label ← typeLabel (← budget)
  pure ⟨← spanFrom start.span, modes, name.text, label⟩

/-- The definition of a function whose body is one of the given phrases. -/
def funcDef (inner : Phrases) : Parser (FuncDef Unit) := do
  let start ← want .kwFn
  let name ← want .ident
  let _ ← want .lparen
  let params ← listed param .rparen
  let _ ← want .rparen
  let result ←
    if ← accept .arrow then
      let label ← typeLabel (← budget)
      pure (some label)
    else pure none
  let body ← inner.block
  pure ⟨← spanFrom start.span, name.text, name.span, params, result, body⟩

/-- The definition of an enum or of a function. -/
def definition (inner : Phrases) : Parser (Def Unit) := do
  let token ← current
  match token.kind with
  | .kwEnum =>
    let e ← enumDef
    pure (.enum e)
  | .kwFn =>
    let f ← funcDef inner
    pure (.func f)
  | _ => reject

/-- All definitions up to the end of the text. -/
def program : Parser (Program Unit) := do
  let n ← budget
  let defs ← manyUntil .eof (definition (phrases n)) n
  pure ⟨defs⟩

end Parser

/-- The program that a list of tokens denotes. -/
def Program.ofTokens (tokens : List (Except SourceError Token)) : Except SourceError (Program Unit) := do
  let (program, _) ← Parser.program (← Cursor.start tokens)
  pure program

/-- The program that a source text denotes. -/
def Source.parse (source : Source) : Except SourceError (Program Unit) :=
  Program.ofTokens source.tokens

end LocLang
