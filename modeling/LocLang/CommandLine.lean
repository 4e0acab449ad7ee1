namespace LocLang

/-- A flag or an argument. One dash comes before the short name, two before the name. -/
structure OptionSpec where
  name : String
  short : String
  /-- The values that can be given; all, if it does not say. -/
  values : Option (List String) := none
deriving DecidableEq, Repr

def OptionSpec.allows (o : OptionSpec) (value : String) : Bool :=
  match o.values with
  | none => true
  | some values => values.contains value

structure CommandSpec where
  name : String
  /-- The name of the primary argument, which has to be given. -/
  primary : Option String := none
  flags : List OptionSpec := []
  arguments : List OptionSpec := []
deriving DecidableEq, Repr

/-- A program with its subcommands, one of which has to be given. -/
structure ProgramSpec where
  root : CommandSpec
  subcommands : List CommandSpec
deriving DecidableEq, Repr

inductive UsageError where
  | unknownFlag (name : String)
  | unknownArgument (name : String)
  | unknownShortFlag (name : String)
  | unknownShortArgument (name : String)
  | repeatedFlag (name : String)
  | repeatedArgument (name : String)
  | repeatedPrimary (command : String)
  | unknownSubcommand (name : String)
  | unexpectedSubcommand (name : String)
  | invalidValue (value name : String)
  | missingSubcommand (program : String)
  | missingPrimary (command primary : String)
deriving DecidableEq, Repr

def UsageError.message : UsageError → String
  | unknownFlag name => s!"unknown flag: `{name}`"
  | unknownArgument name => s!"unknown argument: `{name}`"
  | unknownShortFlag name => s!"unknown flag by short name: `{name}`"
  | unknownShortArgument name => s!"unknown argument by short name: `{name}`"
  | repeatedFlag name => s!"flag `{name}` set multiple times"
  | repeatedArgument name => s!"argument `{name}` set multiple times"
  | repeatedPrimary command => s!"multiple primary arguments specified for command `{command}`"
  | unknownSubcommand name => s!"unknown subcommand: `{name}`"
  | unexpectedSubcommand name => s!"unexpected subcommand: `{name}`"
  | invalidValue value name => s!"`{value}` is not a valid value for argument [{name}]"
  | missingSubcommand program => s!"`{program}` requires a subcommand"
  | missingPrimary command primary =>
    s!"missing required primary argument `{command}` for subcommand `{primary}`"

inductive Word where
  | plain (text : String)
  | flag (long : Bool) (name : String)
  | argument (long : Bool) (name value : String)
deriving DecidableEq, Repr

/-- Reads a word. All dashes before a name are left out; without a value an argument is a flag. -/
def Word.ofText (text : String) : Word :=
  let chars := text.toList
  if chars.head? ≠ some '-' then plain text
  else
    let long := ['-', '-'].isPrefixOf chars
    let name := String.ofList ((chars.takeWhile (· ≠ '=')).dropWhile (· = '-'))
    let value := (chars.dropWhile (· ≠ '=')).drop 1
    if value = [] then flag long name else argument long name (String.ofList value)

structure Given where
  subcommand : Option CommandSpec := none
  /-- The primary argument; an empty one counts as not given. -/
  primary : String := ""
  flags : List String := []
  arguments : List (String × String) := []
deriving DecidableEq, Repr

namespace Given

def hasFlag (g : Given) (name : String) : Bool :=
  name ∈ g.flags

def argument? (g : Given) (name : String) : Option String :=
  g.arguments.lookup name

/-- Whether a subcommand can follow: none can after a flag or an argument. -/
def takesSubcommand (g : Given) : Bool :=
  g.flags.isEmpty && g.arguments.isEmpty

/-- What a name stands for, first for the subcommand, then for the program. -/
def find? (g : Given) (spec : ProgramSpec) (select : CommandSpec → List OptionSpec) (long : Bool) (name : String) :
    Option OptionSpec :=
  let candidates := (g.subcommand.map select).getD [] ++ select spec.root
  candidates.find? fun o => if long then o.name = name else o.short = name

def takeFlag (g : Given) (spec : ProgramSpec) (long : Bool) (name : String) : Except UsageError Given :=
  match g.find? spec (·.flags) long name with
  | none => .error (if long then .unknownFlag name else .unknownShortFlag name)
  | some o =>
    if g.hasFlag o.name then .error (.repeatedFlag o.name)
    else .ok { g with flags := g.flags ++ [o.name] }

def takeArgument (g : Given) (spec : ProgramSpec) (long : Bool) (name value : String) :
    Except UsageError Given :=
  match g.find? spec (·.arguments) long name with
  | none => .error (if long then .unknownArgument name else .unknownShortArgument name)
  | some o =>
    if (g.argument? o.name).isSome then .error (.repeatedArgument o.name)
    else if o.allows value then .ok { g with arguments := g.arguments ++ [(o.name, value)] }
    else .error (.invalidValue value o.name)

/-- Takes a word that is no flag or argument. A subcommand has no subcommands of its own. -/
def takePlain (g : Given) (spec : ProgramSpec) (text : String) : Except UsageError Given :=
  match g.subcommand with
  | some ⟨name, some _, _, _⟩ =>
    if g.primary = "" then .ok { g with primary := text } else .error (.repeatedPrimary name)
  | some ⟨_, none, _, _⟩ =>
    .error (if g.takesSubcommand then .unknownSubcommand text else .unexpectedSubcommand text)
  | none =>
    if !g.takesSubcommand then .error (.unexpectedSubcommand text)
    else
      match spec.subcommands.find? (·.name = text) with
      | some command => .ok { g with subcommand := some command }
      | none => .error (.unknownSubcommand text)

def take (g : Given) (spec : ProgramSpec) : Word → Except UsageError Given
  | .plain text => g.takePlain spec text
  | .flag long name => g.takeFlag spec long name
  | .argument long name value => g.takeArgument spec long name value

def takeAll (spec : ProgramSpec) : Given → List String → Except UsageError Given
  | g, [] => .ok g
  | g, text :: texts => do
    let g ← g.take spec (.ofText text)
    takeAll spec g texts

end Given

/-- Reads a command line: what was given, with the name of the subcommand. -/
def ProgramSpec.parse (spec : ProgramSpec) (texts : List String) : Except UsageError (String × Given) := do
  let g ← Given.takeAll spec {} texts
  match g.subcommand with
  | none => .error (.missingSubcommand spec.root.name)
  | some ⟨name, some primary, _, _⟩ =>
    if g.primary = "" then .error (.missingPrimary name primary) else .ok (name, g)
  | some ⟨name, none, _, _⟩ => .ok (name, g)

end LocLang
