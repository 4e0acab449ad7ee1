import LocLang.Number.Shortest

namespace LocLang.Number

def hexDigits (n : Nat) : List Char :=
  (Nat.toDigits 16 n).map Char.toUpper

/-- How many different characters a list holds. -/
def distinct (cs : List Char) : Nat :=
  cs.eraseDups.length

/-- How varied the digits of a number are, as a quotient: different digits over digits, of which no more
    count than the base has. -/
def variety (base : Nat) (digits : List Char) : Nat × Nat :=
  (distinct digits, min digits.length base)

/-- How many different hexadecimal digits a number of the given length may have to be written in hexadecimal. -/
def plainHexDigits (length : Nat) : Nat :=
  if length ≤ 6 then 2 else if length ≤ 10 then 3 else 4

/-- A nonnegative finite number as a quotient. -/
def quotient : Double → Nat × Nat
  | .finite _ units exp => ratio units exp
  | .infinite _ => (1, 0)

/-- `a + b ≤ c` for quotients, each operand and the sum rounded to 64 bits. -/
def roundedSumLe (a b c : Nat × Nat) : Bool :=
  let round (q : Nat × Nat) := quotient (Double.ofRatio false q.1 q.2)
  let a := round a
  let b := round b
  let sum := round (a.1 * b.2 + b.1 * a.2, a.2 * b.2)
  let c := round c
  sum.1 * c.2 ≤ c.1 * sum.2

/-- Whether an integer is easier to read in hexadecimal: few different hexadecimal digits, and decimal digits
    more varied by at least a fifth. -/
def prefersHex (n : Nat) : Bool :=
  let hex := hexDigits n
  let decimal := Nat.toDigits 10 n
  4096 ≤ n && distinct hex ≤ plainHexDigits hex.length &&
    roundedSumLe (variety 16 hex) (1, 5) (variety 10 decimal)

def integerText (n : Int) : String :=
  if 0 ≤ n && prefersHex n.toNat then "u0x" ++ String.ofList (hexDigits n.toNat) else toString n

/-- An exponent with its sign and at least two digits. -/
def exponentText (exp : Int) : String :=
  let digits := Nat.toDigits 10 exp.natAbs
  (if exp < 0 then "-" else "+") ++ String.ofList (if digits.length < 2 then '0' :: digits else digits)

/-- A decimal with a point: positional from `10 ^ (-4)` below `10 ^ 6`, else with an exponent. -/
def decimalText (d : Decimal) : String :=
  let cs := d.chars
  let exp := d.exp + (cs.length - 1)
  if exp < -4 || 6 ≤ exp then
    let fraction := (cs.drop 1).reverse.dropWhile (· = '0')
    String.ofList (cs.take 1) ++ "." ++ (if fraction = [] then "0" else String.ofList fraction.reverse) ++
      "e" ++ exponentText exp
  else if exp < 0 then
    "0." ++ String.ofList (List.replicate ((-exp).toNat - 1) '0' ++ cs)
  else
    let whole := exp.toNat + 1
    if cs.length ≤ whole then String.ofList (cs ++ List.replicate (whole - cs.length) '0') ++ ".0"
    else String.ofList (cs.take whole) ++ "." ++ String.ofList (cs.drop whole)

/-- A float in code, read back in the given format. -/
def floatText (f : Format) (x : Double) : String :=
  let bits := "0x" ++ String.ofList (hexDigits x.bits)
  match x with
  | .infinite _ => bits
  | .finite negative units exp =>
    let sign := if negative then "-" else ""
    if units = 0 then sign ++ "0.0"
    else
      let (num, den) := ratio units exp
      match f.round num den with
      | none => bits
      | some (units', exp') =>
        let d := shortest f units' exp'
        let (num', den') := d.ratio
        if num' * den = num * den' then sign ++ decimalText d else bits

end LocLang.Number
