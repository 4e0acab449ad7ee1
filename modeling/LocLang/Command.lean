import LocLang.Build
import LocLang.CommandLine

namespace LocLang

namespace Command

def version : String := "0.1.0"

def profileArgument : OptionSpec := { name := "profile", short := "p" }

def lenientFlag : OptionSpec := { name := "lenient", short := "l" }

def spec : ProgramSpec where
  root :=
    { name := "locus",
      arguments := [{ name := "loglevel", short := "ll", values := some (LogLevel.names.map (·.1)) }] }
  subcommands :=
    [{ name := "build", primary := some "source-path", flags := [lenientFlag],
       arguments := [{ name := "output", short := "o" }, profileArgument] },
     { name := "check", primary := some "source-path", flags := [lenientFlag], arguments := [profileArgument] },
     { name := "version" }]

/-- The profile with what the command line says otherwise. -/
def adjust (profile : Profile) (g : Given) : Except ProfileError Profile := do
  let level ← match g.argument? "loglevel" with
    | none => .ok profile.level
    | some name =>
      match LogLevel.ofName? name with
      | some level => .ok level
      | none => .error (.level name)
  return { profile with level, strict := profile.strict && !g.hasFlag "lenient" }

/-- Compiles sources: builds them or only checks them. What goes wrong with the profile is shown whatever its level. -/
def compile (files : FileTree) (g : Given) (build : Bool) : Report FileTree := do
  Report.start .verbose
  let profile ← match Profile.select files g.primary ((g.argument? "profile").getD "") with
    | .ok profile => pure profile
    | .error e => Report.fatal ("failed to load build profile: " ++ e.message)
  let profile ← match adjust profile g with
    | .ok profile => pure profile
    | .error e => Report.fatal e.message
  Report.start profile.level
  let sources ← match SourceFile.collect files profile g.primary with
    | .ok sources => pure sources
    | .error e => Report.fatal ("failed to load sources: " ++ e.message)
  let files ←
    if build then
      let sources := match g.argument? "output" with
        | some output => SourceFile.redirect profile output sources
        | none => sources
      let (_, files) ← Build.run files profile sources
      pure files
    else
      let _ ← Build.check files profile sources
      pure files
  Report.finish
  return files

def run (files : FileTree) (texts : List String) : Report FileTree :=
  match spec.parse texts with
  | .error e => do
    Report.start .error
    Report.fatal ("CLI usage error: " ++ e.message)
  | .ok ("build", g) => compile files g true
  | .ok ("check", g) => compile files g false
  | .ok _ => do
    Report.printLine ("locus " ++ version)
    return files

structure Outcome where
  status : ExitStatus
  shown : String
  files : FileTree

/-- Runs the program. It fails if it was ended early or reported errors. -/
def execute (files : FileTree) (texts : List String) : Outcome :=
  match (run files texts).run {} with
  | (.error status, console) => ⟨status, console.shown, files⟩
  | (.ok files, console) => ⟨if console.anyErrors then .failure else 0, console.shown, files⟩

end Command

end LocLang
