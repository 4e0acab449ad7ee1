import LocLang.Number.Numeral
import LocLang.Text.Utf8

namespace LocLang.Text

/-- A byte as two upper-case hexadecimal digits. -/
def hexByte (b : UInt8) : List Char :=
  let digits := Number.hexDigits b.toNat
  if digits.length < 2 then '0' :: digits else digits

/-- Whether a byte stands for itself inside quotes. -/
def isPlain (b : UInt8) : Bool :=
  0x20 ≤ b.toNat && b.toNat ≤ 0x7E && b.toNat ≠ 0x22 && b.toNat ≠ 0x5C

def escapeByte (b : UInt8) : List Char :=
  if isPlain b then [Char.ofNat b.toNat] else '\\' :: hexByte b

def quoted (s : String) : String :=
  "\"" ++ String.ofList ((Utf8.encode s).flatMap escapeByte) ++ "\""

/-- Whether a byte can stand in a name without quotes. -/
def isNameByte (b : UInt8) : Bool :=
  let c := Char.ofNat b.toNat
  b.toNat < 0x80 && (c.isAlphanum || c = '$' || c = '-' || c = '.' || c = '_')

/-- A name, quoted if some byte of it needs that. -/
def nameText (s : String) : String :=
  if (Utf8.encode s).all isNameByte then s else quoted s

end LocLang.Text
