namespace LocLang

namespace Number

/-- The natural number nearest to `num / den`; a tie goes to the even neighbour. -/
def roundDiv (num den : Nat) : Nat :=
  let quotient := num / den
  let remainder := num % den
  if 2 * remainder < den then quotient
  else if den < 2 * remainder then quotient + 1
  else quotient + quotient % 2

/-- The greatest `k` with `2 ^ k ≤ num / den`, for positive numbers. -/
def floorLog2 (num den : Nat) : Int :=
  let k : Int := (num.log2 : Int) - den.log2
  if den <<< k.toNat ≤ num <<< (-k).toNat then k else k - 1

/-- `units * 2 ^ exp` as a numerator and a denominator. -/
def ratio (units : Nat) (exp : Int) : Nat × Nat :=
  (units <<< exp.toNat, 1 <<< (-exp).toNat)

/-- A binary format: how many binary digits a number has, and the least and the greatest exponent of its
    last digit. -/
structure Format where
  precision : Nat
  minExp : Int
  maxExp : Int
deriving DecidableEq, Repr

/-- Numbers of 64 bits. -/
def Format.double : Format := ⟨53, -1074, 971⟩

/-- Numbers of 32 bits. -/
def Format.single : Format := ⟨24, -149, 104⟩

/-- The number of the format nearest to `num / den`, as units and exponent, or `none` above the greatest.
    A number has all its digits unless its exponent is the least. -/
def Format.round (f : Format) (num den : Nat) : Option (Nat × Int) :=
  if num = 0 then some (0, f.minExp)
  else
    let exp := max f.minExp (floorLog2 num den - (f.precision - 1))
    let units := roundDiv (num <<< (-exp).toNat) (den <<< exp.toNat)
    let (units, exp) := if units = 1 <<< f.precision then (1 <<< (f.precision - 1), exp + 1) else (units, exp)
    if exp ≤ f.maxExp then some (units, exp) else none

end Number

/-- A number of 64 bits: `± units * 2 ^ exp`, in the form that `Format.double` rounds to, or an infinity. -/
inductive Double where
  | finite (negative : Bool) (units : Nat) (exp : Int)
  | infinite (negative : Bool)
deriving DecidableEq, Repr, Inhabited

namespace Double

open Number

/-- The number nearest to `± num / den`. -/
def ofRatio (negative : Bool) (num den : Nat) : Double :=
  match Format.double.round num den with
  | some (units, exp) => finite negative units exp
  | none => infinite negative

def ofInt (n : Int) : Double :=
  ofRatio (n < 0) n.natAbs 1

/-- The number nearest to `n * 10 ^ k`, unless it is above the greatest. How far the first digit is from
    the point decides the outcome of very large and very small exponents without computing the power. -/
def ofDecimal? (n : Nat) (k : Int) : Option Double :=
  let magnitude := (Nat.toDigits 10 n).length + k
  if n = 0 || magnitude < -400 then some (ofRatio false 0 1)
  else if 400 < magnitude then none
  else
    match ofRatio false (n * Nat.pow 10 k.toNat) (Nat.pow 10 (-k).toNat) with
    | infinite _ => none
    | x => some x

/-- The number with the other sign. -/
def neg : Double → Double
  | finite negative units exp => finite (!negative) units exp
  | infinite negative => infinite (!negative)

/-- Whether the number is zero, of either sign. -/
def isZero : Double → Bool
  | finite _ units _ => units == 0
  | infinite _ => false

/-- The number rounded to 32 bits. -/
def toSingle : Double → Double
  | finite negative units exp =>
    let (num, den) := ratio units exp
    match Format.single.round num den with
    | some (units', exp') => let (num', den') := ratio units' exp'; ofRatio negative num' den'
    | none => infinite negative
  | infinite negative => infinite negative

/-- The integer part, as a word of 64 bits; a number that has no such integer part gives the least word. -/
def toInt64 : Double → Int
  | finite negative units exp =>
    let (num, den) := ratio units exp
    let n : Int := if negative then -(num / den : Nat) else (num / den : Nat)
    if -0x8000000000000000 ≤ n && n < 0x8000000000000000 then n else -0x8000000000000000
  | infinite _ => -0x8000000000000000

/-- The interchange encoding in 64 bits. -/
def bits : Double → Nat
  | finite negative units exp =>
    let sign := if negative then 1 <<< 63 else 0
    if units < 1 <<< 52 then sign + units else sign + (exp + 1075).toNat <<< 52 + (units - 1 <<< 52)
  | infinite negative => (if negative then 1 <<< 63 else 0) + 0x7FF <<< 52

end Double

end LocLang
