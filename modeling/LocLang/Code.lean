import LocLang.Diagnostic
import LocLang.Ir
import LocLang.Modes
import LocLang.Symbol
import LocLang.Tree.Operator

namespace LocLang

/-- The element with the given number, if there is one. -/
def numbered {α : Type} (all : List α) (code : Int) : Option α :=
  if code < 0 then none else all[code.toNat]?

def Locality.ofCode (code : Int) : Locality :=
  (numbered [unspecified, asLocal, asGlobal] code).getD unspecified

def Uniqueness.ofCode (code : Int) : Uniqueness :=
  (numbered [unspecified, unique, shared] code).getD unspecified

def BinaryOp.ofCode? (code : Int) : Option BinaryOp :=
  numbered [add, sub, mul, div, eq, ne, lt, gt, le, ge] code

def DiagnosticKind.ofCode (code : Int) : DiagnosticKind :=
  let named :=
    [unresolvedName, unresolvedType, nonExhaustiveMatch, invalidPatternArity, invalidAssignmentTarget,
     invalidCallArity, duplicateDefinition, invalidReturn, invalidLiteral]
  (numbered named code).getD (unnamed code)

def Severity.ofCode (code : Int) : Severity :=
  (numbered [error, warning] code).getD unlisted

/-- The kind of a symbol by its number; other things that can be declared are neither values nor functions. -/
def SymbolKind.ofCode? (code : Int) : Option SymbolKind :=
  numbered [value, function] code

def SymbolKind.code : SymbolKind → Int
  | value => 0
  | function => 1

/-- How a value is held, by its number. -/
abbrev StorageCode := Option Storage

def StorageCode.ofCode (code : Int) : StorageCode :=
  numbered [.slot, .register] code

/-- What is not held in a register is worded as a slot. -/
def StorageCode.text (s : StorageCode) : String :=
  (s.getD .slot).text

/-- Whether a symbol of the given kind and storage can be assigned to. -/
def assignable (kind : Option SymbolKind) (storage : StorageCode) : Bool :=
  kind = some .value && storage = some .slot

/-- A type by its number. What is no type has no size. -/
abbrev TyCode := Option Ty

namespace TyCode

def ofCode (code : Int) : TyCode :=
  numbered [.unknown, .int32, .int64, .float32, .float64, .bool, .void] code

def lowered (t : TyCode) : TyCode :=
  t.map (·.lowered)

def isInteger (t : TyCode) : Bool :=
  t.any (·.isInteger)

def isFloating (t : TyCode) : Bool :=
  t.any (·.isFloating)

def size (t : TyCode) : Nat :=
  (t.map (·.size)).getD 0

def name (t : TyCode) : String :=
  (t.getD .unknown).name

/-- The type of code for values of the type. -/
def machine (t : TyCode) : MachineTy :=
  (t.getD .unknown).machine

/-- The wider of two types; the first one wins a tie. -/
def wider (a b : TyCode) : TyCode :=
  let a := a.lowered
  let b := b.lowered
  if a.isFloating != b.isFloating then
    if a.isFloating then a else b
  else if a.size < b.size then b else a

end TyCode

end LocLang
