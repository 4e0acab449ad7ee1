import LocLang.Span

namespace LocLang

/-- What is wrong at a place of a malformed text. -/
inductive SyntaxCause where
  | unexpectedCharacter (c : Char)
  | incompleteNumber
  | unexpectedEnd
  | unexpectedToken (text : String)
  | integerOutOfRange
  | malformedFloat
  | blockInValueArm
  /-- Reading took more steps than there are tokens. No text has this fault. -/
  | outOfSteps
deriving DecidableEq, Repr

def SyntaxCause.message : SyntaxCause → String
  | unexpectedCharacter c => "unexpected character `" ++ c.toString ++ "`"
  | incompleteNumber => "incomplete numeric literal"
  | unexpectedEnd => "unexpected end of file"
  | unexpectedToken text => "unexpected token: `" ++ text ++ "`"
  | integerOutOfRange => "integer literal out of range"
  | malformedFloat => "malformed float literal"
  | blockInValueArm => "match arms used as values cannot have block bodies"
  | outOfSteps => "out of steps"

/-- The first thing that keeps a source text from being a program. -/
inductive SourceError where
  /-- The text is malformed at `span`. -/
  | malformed (cause : SyntaxCause) (span : Span)
  /-- Reading failed with the given message. -/
  | unreadable (message : String)
deriving DecidableEq, Repr

def SourceError.text : SourceError → String
  | malformed cause span => span.locate cause.message
  | unreadable message => message

end LocLang
