import LocLang.Diagnostic
import LocLang.Ty

namespace LocLang

/-- The values that the arms of a match leave out. -/
inductive Gap where
  /-- Variants of an enum. -/
  | variants (enumName : String) (names : List String)
  /-- A truth value. -/
  | truth
  /-- Values of a type with too many to list. -/
  | others
deriving DecidableEq, Repr

def Gap.text : Gap → String
  | variants enumName names => "missing " ++ ", ".intercalate (names.map fun name => enumName ++ "." ++ name)
  | truth => "missing a case for `true` or `false`"
  | others => "add a `_` arm to cover the remaining values"

/-- What is wrong at a place of a program. -/
inductive Issue where
  | undefinedSymbol (name : String)
  | notAFunction (name : String)
  | functionAsValue (name : String)
  | unnamedCallee
  | undefinedEnum (name : String)
  | undefinedVariant (enumName variant : String)
  | undefinedType (name : String)
  | genericType (text : String)
  | voidParameter (name : String)
  | voidVariable (name : String)
  | foreignVariant (patternEnum scrutineeEnum : String)
  | patternArity (enumName variant : String) (count : Nat)
  | assignToExpression
  | assignToFunction (name : String)
  | assignToConstant (name : String)
  | callArity (name : String) (expected actual : Nat)
  | duplicateEnum (name : String)
  | duplicateVariant (enumName variant : String)
  | reservedFunction (name : String)
  | duplicateFunction (name : String)
  | duplicateSymbol (name : String)
  | redeclared (name : String)
  | shadowsParameter (name : String)
  | missingReturnValue
  | unexpectedReturnValue
  | literalOverflow (value : Int)
  | literalAgainstVoid
  | literalNeverMatches (type : Ty)
  /-- How serious it is to leave out values is for the walk to say. -/
  | notExhaustive (severity : Severity) (gap : Gap)
deriving DecidableEq, Repr

namespace Issue

def kind : Issue → DiagnosticKind
  | undefinedSymbol _ | notAFunction _ | functionAsValue _ | unnamedCallee | undefinedEnum _
  | undefinedVariant _ _ => .unresolvedName
  | undefinedType _ | genericType _ | voidParameter _ | voidVariable _ | foreignVariant _ _ =>
    .unresolvedType
  | patternArity _ _ _ => .invalidPatternArity
  | assignToExpression | assignToFunction _ | assignToConstant _ => .invalidAssignmentTarget
  | callArity _ _ _ => .invalidCallArity
  | duplicateEnum _ | duplicateVariant _ _ | reservedFunction _ | duplicateFunction _ | duplicateSymbol _
  | redeclared _ | shadowsParameter _ => .duplicateDefinition
  | missingReturnValue | unexpectedReturnValue => .invalidReturn
  | literalOverflow _ | literalAgainstVoid | literalNeverMatches _ => .invalidLiteral
  | notExhaustive _ _ => .nonExhaustiveMatch

def severity : Issue → Severity
  | redeclared _ | shadowsParameter _ | foreignVariant _ _ => .warning
  | notExhaustive severity _ => severity
  | _ => .error

def message : Issue → String
  | undefinedSymbol name => "undefined symbol: `" ++ name ++ "`"
  | notAFunction name => "`" ++ name ++ "` is not a function"
  | functionAsValue name => "function `" ++ name ++ "` cannot be used as a value"
  | unnamedCallee => "only named functions can be called"
  | undefinedEnum name => "undefined enum: `" ++ name ++ "`"
  | undefinedVariant enumName variant => "enum `" ++ enumName ++ "` has no variant named `" ++ variant ++ "`"
  | undefinedType name => "undefined type: `" ++ name ++ "`"
  | genericType text => "generic type `" ++ text ++ "` is not supported"
  | voidParameter name => "parameter `" ++ name ++ "` cannot be of type void"
  | voidVariable name => "variable `" ++ name ++ "` cannot be of type void"
  | foreignVariant patternEnum scrutineeEnum =>
    "pattern of enum `" ++ patternEnum ++ "` can never match a value of enum `" ++ scrutineeEnum ++ "`"
  | patternArity enumName variant count =>
    "variant `" ++ enumName ++ "." ++ variant ++ "` has no fields but the pattern has " ++ toString count
  | assignToExpression => "can only assign to variables"
  | assignToFunction name => "cannot assign to function `" ++ name ++ "`"
  | assignToConstant name => "cannot assign to `" ++ name ++ "`: it is not a variable"
  | callArity name expected actual =>
    "`" ++ name ++ "` expects " ++ toString expected ++ " arguments but got " ++ toString actual
  | duplicateEnum name => "multiple enums named `" ++ name ++ "`"
  | duplicateVariant enumName variant =>
    "enum `" ++ enumName ++ "` has multiple variants named `" ++ variant ++ "`"
  | reservedFunction name => "`" ++ name ++ "` is reserved by the runtime"
  | duplicateFunction name => "multiple functions named `" ++ name ++ "`"
  | duplicateSymbol name => "multiple symbols named `" ++ name ++ "` defined in the same scope"
  | redeclared name => "`" ++ name ++ "` redeclared in the same scope"
  | shadowsParameter name => "declaration of `" ++ name ++ "` shadows a parameter"
  | missingReturnValue => "missing return value"
  | unexpectedReturnValue => "cannot return a value from a function with no return type"
  | literalOverflow value => "integer literal `" ++ toString value ++ "` overflows i32"
  | literalAgainstVoid => "cannot match a literal against a void value"
  | literalNeverMatches type => "literal pattern can never match a value of type `" ++ type.name ++ "`"
  | notExhaustive _ gap => "match is not exhaustive: " ++ gap.text

end Issue

/-- An issue and where it is. -/
structure Finding where
  issue : Issue
  span : Span
deriving DecidableEq, Repr

def Finding.diagnostic (f : Finding) : Diagnostic :=
  ⟨f.issue.kind, f.issue.severity, some f.span, f.issue.message⟩

end LocLang
