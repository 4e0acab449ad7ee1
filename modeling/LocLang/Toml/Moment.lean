namespace LocLang.Toml

def twoDigits : List Char → Option (Nat × List Char)
  | a :: b :: cs =>
    if a.isDigit && b.isDigit then
      some (10 * (a.toNat - '0'.toNat) + (b.toNat - '0'.toNat), cs)
    else none
  | _ => none

/-- Reads two digits with a value from `least` to `greatest`. -/
def twoDigitsIn (least greatest : Nat) (cs : List Char) : Option (Nat × List Char) := do
  let (n, rest) ← twoDigits cs
  if least ≤ n && n ≤ greatest then some (n, rest) else none

/-- What follows a character that has to come first. -/
def after? (c : Char) : List Char → Option (List Char)
  | d :: cs => if d = c then some cs else none
  | [] => none

def isLeapYear (year : Nat) : Bool :=
  year % 4 = 0 && (year % 100 ≠ 0 || year % 400 = 0)

def daysIn (year month : Nat) : Nat :=
  if month = 2 then (if isLeapYear year then 29 else 28)
  else if month = 4 || month = 6 || month = 9 || month = 11 then 30
  else 31

def afterDate (cs : List Char) : Option (List Char) := do
  let (century, cs) ← twoDigits cs
  let (year, cs) ← twoDigits cs
  let cs ← after? '-' cs
  let (month, cs) ← twoDigitsIn 1 12 cs
  let cs ← after? '-' cs
  let (_, cs) ← twoDigitsIn 1 (daysIn (100 * century + year) month) cs
  return cs

/-- What follows a fraction of a second, if there is one. -/
def afterFraction : List Char → Option (List Char)
  | '.' :: cs => if (cs.head?.any Char.isDigit) then some (cs.dropWhile Char.isDigit) else none
  | cs => some cs

def afterTime (cs : List Char) : Option (List Char) := do
  let (_, cs) ← twoDigitsIn 0 23 cs
  let cs ← after? ':' cs
  let (_, cs) ← twoDigitsIn 0 59 cs
  let cs ← after? ':' cs
  let (_, cs) ← twoDigitsIn 0 59 cs
  afterFraction cs

/-- What follows the distance of a time from that at the zero meridian, if there is one. -/
def afterOffset : List Char → Option (List Char)
  | 'Z' :: cs => some cs
  | c :: cs =>
    if c = '+' || c = '-' then do
      let (_, cs) ← twoDigitsIn 0 24 cs
      let cs ← after? ':' cs
      let (_, cs) ← twoDigitsIn 0 60 cs
      return cs
    else some (c :: cs)
  | [] => some []

/-- Whether a date starts here: a year and a dash. -/
def startsDate (cs : List Char) : Bool :=
  (cs.take 4).all Char.isDigit && (cs.drop 4).head? = some '-'

/-- Whether a time starts here: an hour and a colon. -/
def startsTime (cs : List Char) : Bool :=
  (cs.take 2).all Char.isDigit && (cs.drop 2).head? = some ':'

/-- What follows a date and its time, if it has one. A letter or a space leads to the time; after more than a space, of
    which `skip` gives the rest, the time has no offset. A date alone is followed by a space or nothing. -/
def afterDateTime (skip : List Char → List Char) (cs : List Char) : Option (List Char) := do
  match ← afterDate cs with
  | [] => some []
  | 'T' :: rest => afterOffset (← afterTime rest)
  | ' ' :: rest =>
    if (twoDigits rest).isSome then afterOffset (← afterTime rest)
    else if startsTime (skip rest) then afterTime (skip rest)
    else some (' ' :: rest)
  | _ => none

end LocLang.Toml
