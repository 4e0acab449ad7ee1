import LocLang.Text.Utf8

namespace LocLang.Toml

def isSpace (c : Char) : Bool :=
  c = ' ' || c = '\t'

def isLineEnd (c : Char) : Bool :=
  c = '\n' || c = '\r'

/-- Whether a character can stand in a key without quotes. -/
def isBare (c : Char) : Bool :=
  c.isAlphanum || c = '_' || c = '-'

/-- The value of a hexadecimal digit. -/
def hexValue? (c : Char) : Option Nat :=
  if c.isDigit then some (c.toNat - '0'.toNat)
  else if 'a' ≤ c ∧ c ≤ 'f' then some (c.toNat - 'a'.toNat + 10)
  else if 'A' ≤ c ∧ c ≤ 'F' then some (c.toNat - 'A'.toNat + 10)
  else none

/-- The character of a code in hexadecimal digits; a code that no character has gives the replacement character. -/
def codeChar? (digits : List Char) : Option Char := do
  let values ← digits.mapM hexValue?
  let code := values.foldl (fun n d => 16 * n + d) 0
  return if code.isValidChar then Char.ofNat code else Text.Utf8.replacement

/-- The character that a letter after a backslash stands for. -/
def escape? : Char → Option Char
  | '"' => some '"'
  | '\\' => some '\\'
  | '/' => some '/'
  | 'n' => some '\n'
  | 't' => some '\t'
  | 'r' => some '\r'
  | 'b' => some '\x08'
  | 'f' => some '\x0c'
  | _ => none

/-- Whether a character can stand for itself in a string. -/
def isPlain (multiline : Bool) (c : Char) : Bool :=
  0x20 ≤ c.toNat || c = '\t' || (multiline && isLineEnd c)

/-- What a string with escapes is made of, when it ends and which characters it may have. -/
structure StringForm where
  /-- Whether three quotes end it. -/
  tripled : Bool
  /-- Whether lines can end in it. -/
  multiline : Bool

/-- Reads a string with escapes up to and with the quotes that end it: its text, and what follows. Blanks and line
    ends after a backslash are skipped. -/
def basicRest (form : StringForm) (skipping : Bool) : List Char → Option (List Char × List Char)
  | [] => none
  | '\\' :: 'u' :: a :: b :: c :: d :: cs => do
    let code ← codeChar? [a, b, c, d]
    let (text, rest) ← basicRest form false cs
    return (code :: text, rest)
  | '\\' :: 'U' :: a :: b :: c :: d :: e :: f :: g :: h :: cs => do
    let code ← codeChar? [a, b, c, d, e, f, g, h]
    let (text, rest) ← basicRest form false cs
    return (code :: text, rest)
  | '\\' :: c :: cs =>
    if isSpace c || isLineEnd c then basicRest form true cs
    else do
      let c ← escape? c
      let (text, rest) ← basicRest form false cs
      return (c :: text, rest)
  | '"' :: '"' :: '"' :: cs =>
    if form.tripled then some ([], cs) else some ([], '"' :: '"' :: cs)
  | c :: cs =>
    if skipping && (isSpace c || isLineEnd c) then basicRest form true cs
    else if c = '"' && !form.tripled then some ([], cs)
    else if c ≠ '\\' && isPlain form.multiline c then do
      let (text, rest) ← basicRest form false cs
      return (c :: text, rest)
    else none

/-- Reads a string without escapes up to and with the three quotes that end it. -/
def literalRest3 : List Char → Option (List Char × List Char)
  | [] => none
  | '\'' :: '\'' :: '\'' :: cs => some ([], cs)
  | c :: cs => do
    let (text, rest) ← literalRest3 cs
    return (c :: text, rest)

/-- Reads a string without escapes up to and with the quote that ends it. -/
def literalRest (cs : List Char) : Option (List Char × List Char) :=
  match cs.dropWhile (· ≠ '\'') with
  | [] => none
  | _ :: rest => some (cs.takeWhile (· ≠ '\''), rest)

/-- What follows a line end right after the quotes that start a string. -/
def afterLineEnd : List Char → List Char
  | '\r' :: '\n' :: cs => cs
  | '\n' :: cs => cs
  | cs => cs

def string : List Char → Option (String × List Char)
  | '"' :: '"' :: '"' :: cs =>
    (basicRest ⟨true, true⟩ false (afterLineEnd cs)).map fun (text, rest) => (String.ofList text, rest)
  | '"' :: cs => (basicRest ⟨false, false⟩ false cs).map fun (text, rest) => (String.ofList text, rest)
  | '\'' :: '\'' :: '\'' :: cs =>
    (literalRest3 (afterLineEnd cs)).map fun (text, rest) => (String.ofList text, rest)
  | '\'' :: cs => (literalRest cs).map fun (text, rest) => (String.ofList text, rest)
  | _ => none

/-- Reads the text of a key up to the equals sign or the blanks before it; escapes in quoted parts are resolved. Every
    step takes a character. -/
def keyText : (fuel : Nat) → List Char → Option (List Char × List Char)
  | 0, _ => none
  | _ + 1, [] => some ([], [])
  | fuel + 1, c :: cs =>
    if c = '=' then some ([], c :: cs)
    else if c = '"' then do
      let (part, rest) ← basicRest ⟨false, true⟩ false cs
      let (text, rest) ← keyText fuel rest
      return ('"' :: part ++ '"' :: text, rest)
    else if c = '\'' then do
      let (part, rest) ← literalRest cs
      let (text, rest) ← keyText fuel rest
      return ('\'' :: part ++ '\'' :: text, rest)
    else if isSpace c then
      match cs.dropWhile isSpace with
      | '.' :: rest => do
        let (text, rest') ← keyText fuel (rest.dropWhile isSpace)
        return (' ' :: cs.takeWhile isSpace ++ '.' :: rest.takeWhile isSpace ++ text, rest')
      | rest => some ([], rest)
    else if c = '.' || isBare c then do
      let (text, rest) ← keyText fuel cs
      return (c :: text, rest)
    else none

/-- The parts of a key, which are separated by dots. Every step takes a character. -/
def keyPartsWith : (fuel : Nat) → List Char → Option (List String)
  | 0, _ => none
  | fuel + 1, cs =>
    match cs.dropWhile isSpace with
    | [] => some []
    | '.' :: rest =>
      match rest with
      | [] => none
      | c :: _ => if isBare c || c = '\'' || c = '"' || c = ' ' then keyPartsWith fuel rest else none
    | c :: rest =>
      if c = '\'' || c = '"' then
        match rest.dropWhile (· ≠ c) with
        | [] => none
        | _ :: after => (keyPartsWith fuel after).map (String.ofList (rest.takeWhile (· ≠ c)) :: ·)
      else if isBare c then
        let after := rest.dropWhile isBare
        let next := after.dropWhile isSpace
        if next = [] ∨ next.head? = some '.' then
          (keyPartsWith fuel next).map (String.ofList (c :: rest.takeWhile isBare) :: ·)
        else none
      else none

/-- The parts of a key; there is at least one. -/
def keyParts? (text : List Char) : Option (List String) :=
  match keyPartsWith (text.length + 1) text with
  | none | some [] => none
  | some parts => some parts

end LocLang.Toml
