import LocLang.Number.Decimal

namespace LocLang.Text.Template

def isFlag (c : Char) : Bool :=
  c = '+' || c = '-' || c = '#' || c = ' ' || c = '0'

/-- Whether digits make too large a number: some digits follow a number above a million. -/
def isHuge (digits : List Char) : Bool :=
  Number.digitsValue digits.dropLast > 1000000

/-- Skips a number. After too large a number nothing is left. -/
def skipNumber (cs : List Char) : List Char :=
  if isHuge (cs.takeWhile Char.isDigit) then [] else cs.dropWhile Char.isDigit

/-- What was found in place of an index: whether a bracket was there, whether it held a number, and what follows. -/
structure Index where
  opened : Bool
  valid : Bool
  rest : List Char

/-- Skips an index in brackets. A bracket that is never closed is skipped alone. -/
def index : List Char → Index
  | '[' :: cs =>
    if cs = [']'] ∨ ']' ∉ cs then ⟨true, false, cs⟩
    else
      let inner := cs.takeWhile (· ≠ ']')
      ⟨true, inner ≠ [] && inner.all Char.isDigit && !isHuge inner, (cs.dropWhile (· ≠ ']')).drop 1⟩
  | cs => ⟨false, false, cs⟩

/-- A part of a directive that was read: complaints about it, whether an index was seen at all, whether one stands
    right before what follows, and that. -/
structure Progress where
  text : List Char := []
  indexed : Bool := false
  adjacent : Bool := false
  rest : List Char

/-- Skips an index and then a star or a number. -/
def Progress.measure (p : Progress) (complaint : String) : Progress :=
  let i := index p.rest
  let indexed := p.indexed || i.opened
  match i.rest with
  | '*' :: rest => ⟨p.text ++ complaint.toList, indexed, false, rest⟩
  | rest => ⟨p.text, indexed, i.valid, skipNumber rest⟩

/-- Skips the precision, if there is one. A dot with nothing behind it starts none. -/
def Progress.precision (p : Progress) : Progress :=
  match p.rest with
  | '.' :: c :: rest => { p with rest := c :: rest }.measure "%!(BADPREC)"
  | _ => p

/-- Reads a directive after its percent sign: its text, and what follows. -/
def directive (cs : List Char) : List Char × List Char :=
  let p := (Progress.measure { rest := cs.dropWhile isFlag } "%!(BADWIDTH)").precision
  let i := if p.adjacent then ⟨false, false, p.rest⟩ else index p.rest
  match i.rest with
  | [] => (p.text ++ "%!(NOVERB)".toList, [])
  | '%' :: rest => (p.text ++ ['%'], rest)
  | c :: rest =>
    let cause := if p.indexed || i.opened then "(BADINDEX)" else "(MISSING)"
    (p.text ++ '%' :: '!' :: c :: cause.toList, rest)

/-- Reads as many characters and directives as `fuel` says; each takes at least a character. -/
def fillWith : (fuel : Nat) → List Char → List Char
  | 0, _ => []
  | _ + 1, [] => []
  | fuel + 1, '%' :: cs => (directive cs).1 ++ fillWith fuel (directive cs).2
  | fuel + 1, c :: cs => c :: fillWith fuel cs

/-- The text of a template. -/
def fill (template : String) : String :=
  String.ofList (fillWith template.length template.toList)

end LocLang.Text.Template
