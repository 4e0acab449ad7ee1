namespace LocLang

structure Enum where
  name : String
  variants : List String
deriving DecidableEq, Repr, Inhabited

def Enum.discriminant? (e : Enum) (variant : String) : Option Nat :=
  e.variants.idxOf? variant

/-- Enums by name, one for each name. -/
structure EnumTable where
  enums : List Enum
deriving DecidableEq, Repr

namespace EnumTable

/-- The enums of every program. A definition of the same name replaces one of them. -/
def predefined : EnumTable :=
  ⟨[⟨"Color", ["Red", "Green", "Blue"]⟩, ⟨"Status", ["Success", "Warning", "Error"]⟩]⟩

/-- Adds an enum, in place of one of the same name. -/
def define (t : EnumTable) (e : Enum) : EnumTable :=
  ⟨e :: t.enums.filter (·.name ≠ e.name)⟩

def get? (t : EnumTable) (name : String) : Option Enum :=
  t.enums.find? (·.name = name)

def discriminant? (t : EnumTable) (name variant : String) : Option Nat :=
  (t.get? name).bind (·.discriminant? variant)

end EnumTable

end LocLang
