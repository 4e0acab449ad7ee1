import LocLang.Analysis.Walk

namespace LocLang

/-- Whether a literal can be equal to a value of the given type. -/
def Literal.canMatch (type : Ty) : Literal → Bool
  | .bool _ => type = .bool
  | .int value =>
    match type with
    | .int32 => fitsInt32 value
    | .int64 | .float32 | .float64 => true
    | _ => false
  | .float _ => type.isFloating

/-- What is wrong with matching a value of the given type against a literal. -/
def Literal.patternIssue? (type : Ty) (literal : Literal) : Option Issue :=
  if literal.canMatch type || type = .unknown then none
  else if type = .void then some .literalAgainstVoid
  else some (.literalNeverMatches type)

/-- What is wrong with naming a variant. -/
def EnumTable.variantIssue? (enums : EnumTable) (enumName variant : String) : Option Issue :=
  match enums.get? enumName with
  | none => some (.undefinedEnum enumName)
  | some e => if (e.discriminant? variant).isSome then none else some (.undefinedVariant enumName variant)

/-- The variant of the given enum that a pattern covers. -/
def Pattern.covers? (enumName : String) : Pattern → Option String
  | .variant _ name v args => if name = enumName && (args.getD []).isEmpty then some v else none
  | _ => none

/-- Whether a pattern is the given truth value. -/
def Pattern.isTruth (value : Bool) : Pattern → Bool
  | .literal _ (.bool b) => b = value
  | _ => false

/-- The values that patterns leave out. Patterns cover everything if one of them matches by its form, if they
    name every variant of the enum of the value, or if they name both truth values. -/
def EnumTable.gap? (enums : EnumTable) (type : Ty) (enumName : Option String) (patterns : List Pattern) :
    Option Gap :=
  if patterns.any (·.isIrrefutable) then none
  else
    match enumName.bind enums.get? with
    | some e =>
      let covered := patterns.filterMap (·.covers? e.name)
      let missing := e.variants.filter (!covered.contains ·)
      if missing.isEmpty then none else some (.variants e.name missing)
    | none =>
      if type = .bool then
        if patterns.any (·.isTruth true) && patterns.any (·.isTruth false) then none else some .truth
      else some .others

/-- Walks a pattern against a value of the given type and enum, and declares the name that it binds. -/
def Walk.pattern (enums : EnumTable) (type : Ty) (enumName : Option String) : Pattern → Walk Unit
  | .wildcard _ => pure ()
  | .literal span value =>
    match value.patternIssue? type with
    | some issue => report issue span
    | none => pure ()
  | .bind span name =>
    define { name, type, enumName, kind := .value, storage := .register } span
  | .variant span name variant args =>
    match enums.variantIssue? name variant with
    | some issue => report issue span
    | none => do
      match enumName with
      | some scrutineeEnum =>
        if scrutineeEnum ≠ name then report (.foreignVariant name scrutineeEnum) span
      | none => pure ()
      let count := (args.getD []).length
      if 0 < count then report (.patternArity name variant count) span

end LocLang
