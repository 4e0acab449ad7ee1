namespace LocLang

inductive Ty where
  | unknown
  | int32
  | int64
  | float32
  | float64
  | bool
  | void
deriving DecidableEq, Repr, Inhabited

namespace Ty

/-- The types that have a name in every program. -/
def primitives : List (String × Ty) :=
  [("i32", int32), ("i64", int64), ("f32", float32), ("f64", float64), ("bool", bool), ("void", void)]

/-- The primitive type of the given name. -/
def primitive? (name : String) : Option Ty :=
  primitives.lookup name

/-- The type of values whose type has the given name: every name that is not primitive is taken for an enum,
    whose values are 32-bit integers. -/
def ofName (name : String) : Ty :=
  (primitive? name).getD int32

/-- The type that code uses in place of this one. -/
def lowered : Ty → Ty
  | unknown => int32
  | t => t

/-- Whether values are integers of any width in code. -/
def isInteger (t : Ty) : Bool :=
  match t.lowered with
  | int32 | int64 | bool => true
  | _ => false

def isFloating : Ty → Bool
  | float32 | float64 => true
  | _ => false

/-- The size of values in bits. -/
def size (t : Ty) : Nat :=
  match t.lowered with
  | int32 | float32 => 32
  | int64 | float64 => 64
  | bool => 1
  | _ => 0

/-- The wider of two types: floating types are wider than integers, then the larger size decides, and the
    first one wins a tie. -/
def wider (a b : Ty) : Ty :=
  let a := a.lowered
  let b := b.lowered
  if a.isFloating != b.isFloating then
    if a.isFloating then a else b
  else if a.size < b.size then b else a

def name : Ty → String
  | unknown => "<unknown>"
  | int32 => "i32"
  | int64 => "i64"
  | float32 => "f32"
  | float64 => "f64"
  | bool => "bool"
  | void => "void"

end Ty

end LocLang
