import LocLang.Number.Decimal
import LocLang.Toml
import LocLang.Toml.Moment
import LocLang.Toml.Strings

namespace LocLang.Toml

/-- Whether every underscore in a number comes after a digit and is not the last character. -/
def underscoresFit (isDigit : Char → Bool) (before : Bool) : List Char → Bool
  | [] => true
  | '_' :: cs => before && cs ≠ [] && underscoresFit isDigit false cs
  | c :: cs => underscoresFit isDigit (isDigit c) cs

/-- The value of digits in a base; capital and small letters are both digits. -/
def digitsValue? (base : Nat) (digits : List Char) : Option Nat :=
  if digits = [] then none
  else do
    let values ← digits.mapM hexValue?
    if values.all (· < base) then some (values.foldl (fun n d => base * n + d) 0) else none

/-- An integer, which has to fit in 64 bits. -/
def integer? (sign : Option Char) (n : Nat) : Option Value :=
  if sign = some '-' then
    if n ≤ 0x8000000000000000 then some (.integer (-(n : Int))) else none
  else if n < 0x8000000000000000 then some (.integer n) else none

/-- The base that a letter after a zero stands for. -/
def base? : Char → Option Nat
  | 'x' => some 16
  | 'o' => some 8
  | 'b' => some 2
  | _ => none

/-- Whether a character can stand in a number in a base, underscores included. -/
def isDigitOf (base : Nat) (c : Char) : Bool :=
  c = '_' || (hexValue? c).any (· < base)

/-- Reads an integer in another base than ten, after the letter for the base. -/
def basedInteger (base : Nat) (cs : List Char) : Option (Value × List Char) := do
  let text := cs.takeWhile (isDigitOf base)
  let digits := text.filter (· ≠ '_')
  let n ← digitsValue? base digits
  let v ← if underscoresFit (fun c => (hexValue? c).isSome) false text then integer? none n else none
  return (v, cs.dropWhile (isDigitOf base))

/-- Whether a text is digits, with a fraction and an exponent if there is one, of a number that is not too large. -/
def isFloat (text : List Char) : Bool :=
  let mantissa := text.takeWhile (!Number.isExponentMark ·)
  let exponent := text.dropWhile (!Number.isExponentMark ·)
  let whole := mantissa.takeWhile (· ≠ '.')
  let fraction := mantissa.dropWhile (· ≠ '.')
  let isDigits (cs : List Char) : Bool := cs ≠ [] && cs.all Char.isDigit
  let unsigned : List Char → List Char
    | '+' :: cs => cs
    | '-' :: cs => cs
    | cs => cs
  isDigits whole && (fraction = [] || isDigits (fraction.drop 1)) &&
    (exponent = [] || isDigits (unsigned (exponent.drop 1))) && (Decimal.ofText text).toDouble?.isSome

/-- The characters of a decimal number: digits, underscores, points, and marks of exponents, which a sign can follow.
    `marked` says whether such a mark comes right before. -/
def numberChars (marked : Bool) : List Char → List Char
  | [] => []
  | c :: cs =>
    if c.isDigit || c = '_' || c = '.' || Number.isExponentMark c || (marked && (c = '+' || c = '-')) then
      c :: numberChars (Number.isExponentMark c) cs
    else []

/-- Reads a decimal number after its sign. -/
def decimal (sign : Option Char) (cs : List Char) : Option (Value × List Char) :=
  let text := numberChars false cs
  let digits := text.filter (· ≠ '_')
  let rest := cs.drop text.length
  if !underscoresFit Char.isDigit false text then none
  else if digits ≠ [] && digits.all Char.isDigit then
    if sign = none ∧ digits.head? = some '0' ∧ 2 < digits.length then none
    else (integer? sign (Number.digitsValue digits)).map (·, rest)
  else if isFloat digits then some (.float, rest)
  else none

def startsWith (word : String) (cs : List Char) : Bool :=
  word.toList.isPrefixOf cs

/-- Reads a number that is written as a word, or a decimal one. -/
def signed (sign : Option Char) (cs : List Char) : Option (Value × List Char) :=
  if startsWith "inf" cs || startsWith "nan" cs then some (.float, cs.drop 3) else decimal sign cs

/-- What follows a comment, from the end of its line on. -/
def afterComment (cs : List Char) : List Char :=
  cs.dropWhile (· ≠ '\n')

/-- What follows blanks, line ends and comments. Every step takes a character. -/
def afterBlanks : (fuel : Nat) → List Char → List Char
  | 0, cs => cs
  | _ + 1, [] => []
  | fuel + 1, c :: cs =>
    if isSpace c || isLineEnd c then afterBlanks fuel cs
    else if c = '#' then afterBlanks fuel (afterComment cs)
    else c :: cs

/-- What follows the blanks inside a value. In an array they include line ends and comments. -/
def afterGap (inArray : Bool) (cs : List Char) : List Char :=
  if inArray then afterBlanks cs.length cs else cs.dropWhile isSpace

/-- Reads a number or a moment, which start with a digit or a sign, or a word for a number. -/
def scalar (inArray : Bool) (cs : List Char) : Option (Value × List Char) :=
  if startsDate cs then (afterDateTime (afterGap inArray) cs).map (.moment, ·)
  else if startsTime cs then (afterTime cs).map (.moment, ·)
  else
    match cs with
    | '+' :: rest => signed (some '+') rest
    | '-' :: rest => signed (some '-') rest
    | '0' :: c :: rest =>
      match base? c with
      | some base => basedInteger base rest
      | none => if c.isAlpha then none else decimal none cs
    | c :: _ => if c.isDigit || c = 'i' || c = 'n' then signed none cs else none
    | [] => none

/-- The array of elements. One of tables only stands for several tables under one key. -/
def arrayOf (nodes : List Node) : Node :=
  let tables := nodes.filterMap fun
    | .table t => some t
    | _ => none
  if nodes ≠ [] ∧ tables.length = nodes.length then .tables tables else .value .array

/-- Reads a key and the equals sign after it. -/
def keyBefore (cs : List Char) : Option (List String × List Char) := do
  let (text, rest) ← keyText (cs.length + 1) cs
  match afterBlanks rest.length rest with
  | '=' :: rest =>
    let keys ← keyParts? text
    return (keys, rest)
  | _ => none

/-- What a definition assigns, whether a line ended before it, and what follows. -/
structure Assigned where
  node : Node
  broken : Bool
  rest : List Char

mutual

/-- Reads a value, which can be an element of an array. Every step takes a character. -/
def value : (fuel : Nat) → (inArray : Bool) → List Char → Option (Node × List Char)
  | 0, _, _ => none
  | fuel + 1, inArray, cs =>
    if startsWith "true" cs then some (.value (.bool true), cs.drop 4)
    else if startsWith "false" cs then some (.value (.bool false), cs.drop 5)
    else
      match cs with
      | '[' :: rest => (elements fuel rest).map fun (nodes, rest) => (arrayOf nodes, rest)
      | '{' :: rest =>
        match afterBlanks rest.length rest with
        | '}' :: rest => some (.table { closed := true }, rest)
        | rest => (fields fuel {} rest).map fun (t, rest) => (.table { t with closed := true }, rest)
      | '"' :: _ | '\'' :: _ => (string cs).map fun (s, rest) => (.value (.text s), rest)
      | cs => (scalar inArray cs).map fun (v, rest) => (.value v, rest)

/-- Reads the elements of an array up to and with the bracket that ends it. -/
def elements : (fuel : Nat) → List Char → Option (List Node × List Char)
  | 0, _ => none
  | fuel + 1, cs =>
    match afterBlanks cs.length cs with
    | ']' :: rest => some ([], rest)
    | cs => do
      let (node, rest) ← value fuel true cs
      match afterBlanks rest.length rest with
      | ']' :: rest => some ([node], rest)
      | ',' :: rest =>
        let (nodes, rest) ← elements fuel rest
        return (node :: nodes, rest)
      | _ => none

/-- Reads definitions up to and with the brace that ends a table, and adds them to it. A comma has to stand on the line
    where the definition before it ends. -/
def fields : (fuel : Nat) → Table → List Char → Option (Table × List Char)
  | 0, _, _ => none
  | fuel + 1, t, cs => do
    let (keys, rest) ← keyBefore cs
    let a ← assigned fuel rest
    let t := t.put a.node keys
    match a.rest.dropWhile isSpace, a.broken with
    | ',' :: rest, false => fields fuel t (afterBlanks rest.length rest)
    | rest, _ =>
      match afterBlanks rest.length rest with
      | '}' :: rest => some (t, rest)
      | _ => none

/-- Reads what comes after an equals sign. On a later line that can only be an array without elements. -/
def assigned : (fuel : Nat) → List Char → Option Assigned
  | 0, _ => none
  | fuel + 1, cs =>
    match cs.dropWhile isSpace with
    | [] => none
    | c :: rest =>
      if isLineEnd c || c = '#' then
        match afterBlanks (rest.length + 1) (c :: rest) with
        | '[' :: ']' :: rest => some ⟨.value .array, true, rest⟩
        | _ => none
      else (value fuel false (c :: rest)).map fun (node, rest) => ⟨node, false, rest⟩

end

/-- What follows the end of a definition: nothing but a comment can stand on the rest of its line. -/
def afterDefinition (cs : List Char) : Option (List Char) :=
  match cs.dropWhile isSpace with
  | [] => some []
  | c :: rest =>
    if isLineEnd c then some rest else if c = '#' then some (afterComment rest) else none

/-- Reads a header of a table, or of one of several tables, after its first bracket. -/
def header (d : Draft) (cs : List Char) : Option (Draft × List Char) :=
  match cs with
  | '[' :: cs => do
    let text := cs.takeWhile (· ≠ ']')
    match cs.dropWhile (· ≠ ']') with
    | ']' :: ']' :: rest =>
      let keys ← if '[' ∈ text then none else keyParts? text
      let d ← d.openElement (String.ofList text) keys
      return (d, rest)
    | _ => none
  | cs => do
    let text := cs.takeWhile (· ≠ ']')
    match cs.dropWhile (· ≠ ']') with
    | ']' :: rest =>
      let keys ← if '[' ∈ text then none else keyParts? text
      let d ← d.openTable (String.ofList text) keys
      return (d, rest)
    | _ => none

def definition (d : Draft) (cs : List Char) : Option (Draft × List Char) := do
  let (keys, rest) ← keyBefore cs
  let a ← assigned (rest.length + 2) rest
  let rest ← if a.broken then some a.rest else afterDefinition a.rest
  let d ← d.define keys a.node
  return (d, rest)

/-- Reads headers and definitions. Every step takes a character. -/
def items : (fuel : Nat) → Draft → List Char → Option Draft
  | 0, _, _ => none
  | fuel + 1, d, cs =>
    match afterBlanks cs.length cs with
    | [] => some d
    | '[' :: rest => do
      let (d, rest) ← header d rest
      items fuel d rest
    | cs => do
      let (d, rest) ← definition d cs
      items fuel d rest

/-- Reads a document. A mark of the byte order at its start is skipped. -/
def parse? (text : String) : Option Table :=
  let cs := match text.toList with
    | '\uFEFF' :: cs => cs
    | cs => cs
  (items (cs.length + 1) {} cs).map (·.root)

end LocLang.Toml
