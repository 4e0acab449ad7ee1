import LocLang.Number.Decimal

namespace LocLang

inductive Literal where
  | int (value : Int)
  | float (value : Double)
  | bool (value : Bool)
deriving DecidableEq, Repr, Inhabited

namespace Literal

/-- The greatest integer that can be written. -/
def maxInt : Nat := 0x7FFFFFFFFFFFFFFF

/-- The number with the other sign; a truth value has none. -/
def neg? : Literal → Option Literal
  | int value => some (int (-value))
  | float value => some (float value.neg)
  | bool _ => none

/-- Whether an integer can be represented in 32 bits. -/
def fitsInt32 (n : Int) : Bool :=
  -0x80000000 ≤ n && n < 0x80000000

/-- The integer that a number token without fraction and exponent denotes, unless it is too large. -/
def ofDigits? (digits : List Char) : Option Literal :=
  let n := Number.digitsValue digits
  if n ≤ maxInt then some (int n) else none

/-- The float that a number token denotes, unless it is too large. -/
def ofDecimal? (text : List Char) : Option Literal :=
  (Decimal.ofText text).toDouble?.map float

end Literal

end LocLang
