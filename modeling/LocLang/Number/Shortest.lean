import LocLang.Number.Double

namespace LocLang.Number

/-- A positive decimal `digits * 10 ^ exp`. -/
structure Decimal where
  digits : Nat
  exp : Int
deriving DecidableEq, Repr

/-- The decimal as a numerator and a denominator. -/
def Decimal.ratio (d : Decimal) : Nat × Nat :=
  (d.digits * Nat.pow 10 d.exp.toNat, Nat.pow 10 (-d.exp).toNat)

/-- The decimal digits, most significant first. -/
def Decimal.chars (d : Decimal) : List Char :=
  Nat.toDigits 10 d.digits

/-- The ends of the interval of reals that round to `units * 2 ^ exp`, as multiples of
    `2 ^ (exp - 2)`. Below a power of two the numbers lie twice as dense. -/
def roundingEnds (f : Format) (units : Nat) (exp : Int) : Nat × Nat :=
  let below := if units = 1 <<< (f.precision - 1) && f.minExp < exp then 1 else 2
  (4 * units - below, 4 * units + 2)

/-- Whether the decimal rounds to `units * 2 ^ exp`. -/
def readsBack (f : Format) (units : Nat) (exp : Int) (d : Decimal) : Bool :=
  let (num, den) := d.ratio
  let num := num <<< (2 - exp).toNat
  let den := den <<< (exp - 2).toNat
  let (low, high) := roundingEnds f units exp
  if units % 2 = 0 then low * den ≤ num && num ≤ high * den
  else low * den < num && num < high * den

/-- The greatest `k` with `10 ^ k ≤ num / den`, for positive numbers: the number of decimal digits gives it
    up to one. -/
def floorLog10 (num den : Nat) : Int :=
  let k : Int := (Nat.toDigits 10 num).length - (Nat.toDigits 10 den).length
  if den * Nat.pow 10 k.toNat ≤ num * Nat.pow 10 (-k).toNat then k else k - 1

/-- The nearer of the two neighbours of `num / den` on the grid of multiples of `10 ^ exp`, among those that
    read back. -/
def onGrid (f : Format) (units : Nat) (bexp : Int) (exp : Int) : Option Decimal :=
  let (num, den) := ratio units bexp
  let num := num * Nat.pow 10 (-exp).toNat
  let den := den * Nat.pow 10 exp.toNat
  let low : Decimal := ⟨num / den, exp⟩
  let high : Decimal := ⟨num / den + 1, exp⟩
  let remainder := num % den
  match readsBack f units bexp low, readsBack f units bexp high with
  | true, true => some (if 2 * remainder ≤ den then low else high)
  | true, false => some low
  | false, true => some high
  | false, false => none

/-- Tries grids of ever more digits; the last one tried is taken as it is. -/
def firstGrid (f : Format) (units : Nat) (bexp : Int) : Nat → Int → Decimal
  | 0, exp =>
    let (num, den) := ratio units bexp
    ⟨num * Nat.pow 10 (-exp).toNat / (den * Nat.pow 10 exp.toNat), exp⟩
  | tries + 1, exp =>
    match onGrid f units bexp exp with
    | some d => d
    | none => firstGrid f units bexp tries (exp - 1)

/-- The shortest decimal that reads back as the positive number `units * 2 ^ exp` of the format. Numbers of
    64 bits never need more than seventeen digits. -/
def shortest (f : Format) (units : Nat) (exp : Int) : Decimal :=
  let (num, den) := ratio units exp
  firstGrid f units exp 17 (floorLog10 num den)

end LocLang.Number
