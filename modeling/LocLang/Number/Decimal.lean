import LocLang.Number.Double

namespace LocLang

namespace Number

def digitsValue (digits : List Char) : Nat :=
  digits.foldl (fun n c => 10 * n + (c.toNat - '0'.toNat)) 0

/-- The exponent from which on no more digits are read: there is no need for them in numbers of any usual length. -/
def greatExponent : Nat := 10000

/-- The value of the digits of an exponent. -/
def exponentDigitsValue (digits : List Char) : Nat :=
  digits.foldl (fun n c => if n < greatExponent then 10 * n + (c.toNat - '0'.toNat) else n) 0

/-- The value of the exponent after the letter: digits with an optional sign. -/
def exponentValue : List Char → Int
  | '-' :: digits => -(exponentDigitsValue digits : Int)
  | '+' :: digits => exponentDigitsValue digits
  | digits => exponentDigitsValue digits

/-- Whether `c` is the letter before an exponent. -/
def isExponentMark (c : Char) : Bool :=
  c = 'e' || c = 'E'

end Number

/-- A decimal number without a sign: the digits before and after the point, and the exponent. -/
structure Decimal where
  whole : List Char
  fraction : List Char
  exp : Int
deriving DecidableEq, Repr

namespace Decimal

open Number

/-- The number that a text is. -/
def ofText (text : List Char) : Decimal :=
  let mantissa := text.takeWhile (!isExponentMark ·)
  { whole := mantissa.takeWhile (· ≠ '.')
    fraction := (mantissa.dropWhile (· ≠ '.')).drop 1
    exp := exponentValue ((text.dropWhile (!isExponentMark ·)).drop 1) }

/-- The power of ten that the last digit is worth. -/
def unit (d : Decimal) : Int :=
  d.exp - d.fraction.length

/-- The digits from the first one on that is not zero. -/
def significant (d : Decimal) : List Char :=
  (d.whole ++ d.fraction).dropWhile (· = '0')

/-- How many significant digits are read at first. -/
def firstDigits : Nat := 19

/-- The binary number, unless it is too large, if all significant digits are read. Before the point only eight hundred
    of them count as places. -/
def toDoubleInFull? (d : Decimal) : Option Double :=
  let places := (d.whole.dropWhile (· = '0')).length
  Double.ofDecimal? (digitsValue d.significant) (d.unit - (places - 800 : Nat))

/-- The binary number, unless it is too large. The first digits settle it if the others are zeros, or if the next higher
    number with as many digits leads to the same. -/
def toDouble? (d : Decimal) : Option Double :=
  let first := digitsValue (d.significant.take firstDigits)
  let others := d.significant.drop firstDigits
  let unit := d.unit + others.length
  let settled := others.all (· = '0') || Double.ofDecimal? first unit = Double.ofDecimal? (first + 1) unit
  if settled then Double.ofDecimal? first unit else d.toDoubleInFull?

end Decimal

end LocLang
