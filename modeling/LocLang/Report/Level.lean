namespace LocLang

abbrev LogLevel := Int

namespace LogLevel

def silent : LogLevel := 0
def error : LogLevel := 1
def warn : LogLevel := 2
def verbose : LogLevel := 3

/-- The levels that have a name. -/
def names : List (String × LogLevel) :=
  [("silent", silent), ("error", error), ("warn", warn), ("verbose", verbose)]

/-- The small letter of a character, as far as it is one of ASCII. Two letters outside ASCII have such a one. -/
def smallLetter (c : Char) : Char :=
  if c = '\u0130' then 'i' else if c = '\u212A' then 'k' else c.toLower

/-- The level of a name, in small or capital letters. -/
def ofName? (name : String) : Option LogLevel :=
  names.lookup (String.ofList (name.toList.map smallLetter))

/-- What is said of a name that no level has. -/
def unknownMessage (name : String) : String :=
  s!"unknown log level: `{name}`"

def showsErrors (l : LogLevel) : Bool :=
  silent < l

def showsWarnings (l : LogLevel) : Bool :=
  error < l

def showsTrace (l : LogLevel) : Bool :=
  l = verbose

end LogLevel

end LocLang
