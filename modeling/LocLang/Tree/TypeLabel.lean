import LocLang.Span

namespace LocLang

/-- A type name with its arguments, if it has any. -/
inductive TypeLabel where
  | mk (span : Span) (name : String) (args : List TypeLabel)
deriving Repr, Inhabited

namespace TypeLabel

def span : TypeLabel → Span
  | mk span _ _ => span

def name : TypeLabel → String
  | mk _ name _ => name

def args : TypeLabel → List TypeLabel
  | mk _ _ args => args

def isGeneric (label : TypeLabel) : Bool :=
  !label.args.isEmpty

mutual

def text : TypeLabel → String
  | mk _ name [] => name
  | mk _ name (arg :: args) => name ++ "<" ++ text arg ++ argsText args ++ ">"

/-- The arguments after the first, each after a comma. -/
def argsText : List TypeLabel → String
  | [] => ""
  | arg :: args => ", " ++ text arg ++ argsText args

end

end TypeLabel

end LocLang
