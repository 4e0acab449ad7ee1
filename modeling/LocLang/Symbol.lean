import LocLang.Span
import LocLang.Ty
import LocLang.Modes

namespace LocLang

inductive SymbolKind where
  | value
  | function
deriving DecidableEq, Repr, Inhabited

/-- How the value of a symbol is held: in a memory cell, which can be stored to, or directly. -/
inductive Storage where
  | slot
  | register
deriving DecidableEq, Repr, Inhabited

def Storage.text : Storage → String
  | slot => "slot"
  | register => "register"

structure Symbol where
  name : String
  /-- The depth of the scope that declares it. -/
  depth : Nat := 0
  /-- Where it is declared; what is built in has no place. -/
  span : Option Span := none
  /-- The type of the value, or of what the function returns. -/
  type : Ty
  /-- The type as it was written, if it was. -/
  typeName : String := ""
  /-- The enum that the type names, if it does. -/
  enumName : Option String := none
  kind : SymbolKind
  storage : Storage
  modes : Modes := {}
  /-- The types of a function's parameters. -/
  params : List Ty := []
deriving DecidableEq, Repr

def Symbol.assignable (s : Symbol) : Bool :=
  s.kind = .value && s.storage = .slot

end LocLang
