import LocLang.Ir.Text
import LocLang.Lowering
import LocLang.Parser.Program
import LocLang.Profile
import LocLang.Report.SymbolTable

namespace LocLang

/-- A source with the file that its code goes to. -/
structure SourceFile where
  /-- The absolute path. -/
  path : String
  /-- The path that is shown. -/
  shown : String
  output : String
deriving DecidableEq, Repr

/-- Why there is nothing to build. -/
inductive SourcesError where
  | file (e : FileError)
  | noSources (directory : String)
deriving DecidableEq, Repr

def SourcesError.message : SourcesError → String
  | file e => e.message
  | noSources directory => s!"directory `{directory}` contains no source files"

namespace SourceFile

def ext : String := ".loc"

def ofPath (files : FileTree) (profile : Profile) (path : String) : SourceFile :=
  { path, shown := Path.relative files.currentPath path, output := Path.withExtension path profile.outputExt }

/-- The names of the sources in a directory, in natural order. -/
def namesIn (files : FileTree) (directory : String) : List String :=
  Text.naturalSort ((files.filesIn (Path.plainNames directory)).filter (Path.extension · = ext))

/-- The sources that a path stands for: a file, or the sources in a directory. -/
def collect (files : FileTree) (profile : Profile) (path : String) : Except SourcesError (List SourceFile) :=
  let full := Path.absolute files.currentPath path
  match files.stat full with
  | .error e => .error (.file e)
  | .ok (.file _) => .ok [ofPath files profile full]
  | .ok .directory =>
    match namesIn files full with
    | [] => .error (.noSources path)
    | names => .ok (names.map fun name => ofPath files profile (Path.join full name))

/-- Sends the code to another place: that of a single source to a file, that of several to a directory. -/
def redirect (profile : Profile) (output : String) : List SourceFile → List SourceFile
  | [source] => [{ source with output }]
  | sources =>
    sources.map fun source =>
      { source with output := Path.join output (Path.base (Path.withExtension source.path profile.outputExt)) }

end SourceFile

/-- A source with what a phase made of it. -/
structure Staged (α : Type) where
  source : SourceFile
  /-- The contents of the source, if they could be read. -/
  bytes : List UInt8 := []
  outcome : α

namespace Staged

variable {α β : Type}

/-- What reports on the source are about. -/
def subject (s : Staged α) : Subject :=
  { shown := s.source.shown, file := some (s.source.path, s.bytes) }

def map (f : α → β) (s : Staged α) : Staged β :=
  { s with outcome := f s.outcome }

end Staged

/-- Why a source has no tree. -/
inductive ParseFailure where
  | file (e : FileError)
  | source (e : SourceError)
deriving DecidableEq, Repr

/-- How code gets into files. -/
structure Writer where
  /-- The contents of the file with the code of a module. -/
  print : IrModule → List UInt8
  /-- What goes wrong when contents are written to the open file at a path, or when it is closed then: how many bytes
      the file keeps, and why. -/
  fault? : String → List UInt8 → Option (Nat × FileError)

namespace Writer

/-- Writes the text of the code, with no fault. -/
def sound : Writer where
  print m := Text.Utf8.encode m.text
  fault? _ _ := none

/-- What the file at a path keeps of the code of a module. -/
def kept (w : Writer) (path : String) (m : IrModule) : List UInt8 :=
  match w.fault? path (w.print m) with
  | none => w.print m
  | some (n, _) => (w.print m).take n

def outcome (w : Writer) (path : String) (m : IrModule) : Except FileError Unit :=
  match w.fault? path (w.print m) with
  | none => .ok ()
  | some (_, e) => .error e

end Writer

namespace Build

/-- Reads a source and its program. -/
def parse (files : FileTree) (source : SourceFile) : Staged (Except ParseFailure (Program Unit)) :=
  match files.read source.path with
  | .error e => { source, outcome := .error (.file e) }
  | .ok bytes => { source, bytes, outcome := (Source.ofBytes bytes).parse.mapError .source }

def reportEach {α : Type} (report : Staged α → Report Unit) : List (Staged α) → Report Unit
  | [] => pure ()
  | s :: rest => do
    report s
    reportEach report rest

def reportParsed (s : Staged (Except ParseFailure (Program Unit))) : Report Unit :=
  match s.outcome with
  | .ok _ => pure ()
  | .error (.file e) => Report.failure s.source.shown e.message
  | .error (.source e) => Report.sourceError s.subject e

def reportAnalyzed (s : Staged Analysis) : Report Unit :=
  Report.analysis s.subject s.outcome

/-- A fault in lowering should not have happened. -/
def reportLowered (s : Staged (Except LowerError IrModule)) : Report Unit :=
  match s.outcome with
  | .ok _ => pure ()
  | .error (.rejected n) => Report.failure s.source.shown (LowerError.rejected n).message
  | .error (.faulty f) => Report.internalError f.message

def reportWritten (s : Staged (Except FileError Unit)) : Report Unit :=
  match s.outcome with
  | .ok _ => pure ()
  | .error e => Report.failure s.source.shown e.message

def successes {ε α : Type} (staged : List (Staged (Except ε α))) : List (Staged α) :=
  staged.filterMap fun s =>
    match s.outcome with
    | .ok a => some (s.map fun _ => a)
    | .error _ => none

/-- Parses and analyses the sources. There is no result if errors were reported. -/
def analyze (files : FileTree) (profile : Profile) (sources : List SourceFile) :
    Report (Option (List (Staged Analysis))) := do
  let parsed := sources.map (parse files)
  reportEach reportParsed parsed
  if (← get).anyErrors then
    return none
  let analyzed := (successes parsed).map (·.map (·.analyze profile.strict))
  reportEach reportAnalyzed analyzed
  return if (← get).anyErrors then none else some analyzed

/-- Checks the sources and says whether no error was reported. -/
def check (files : FileTree) (profile : Profile) (sources : List SourceFile) : Report Bool := do
  return (← analyze files profile sources).isSome

/-- Writes the code of a source, and makes the directories that lead to its place. A file that was opened stays, also
    if not all of the code gets into it. -/
def writeOne (w : Writer) (files : FileTree) (s : Staged IrModule) : FileTree × Except FileError Unit :=
  match files.ensureDirectories (Path.directory s.source.output) with
  | (files, .error e) => (files, .error e)
  | (files, .ok ()) =>
    match files.write s.source.output (w.kept s.source.output s.outcome) with
    | .error e => (files, .error e)
    | .ok files => (files, w.outcome s.source.output s.outcome)

/-- Writes the code of every source. One that fails keeps none of the others from being written. -/
def writeAll (w : Writer) (files : FileTree) :
    List (Staged IrModule) → FileTree × List (Staged (Except FileError Unit))
  | [] => (files, [])
  | s :: rest =>
    let (files, outcome) := writeOne w files s
    let (files, written) := writeAll w files rest
    (files, s.map (fun _ => outcome) :: written)

/-- Builds the sources: says whether no error was reported, and gives the files afterwards. -/
def runWith (w : Writer) (files : FileTree) (profile : Profile) (sources : List SourceFile) :
    Report (Bool × FileTree) := do
  match ← analyze files profile sources with
  | none => return (false, files)
  | some analyzed =>
    let lowered := analyzed.map fun s => s.map (·.lower (profile.target (Path.base s.source.path)))
    reportEach reportLowered lowered
    if (← get).anyErrors then
      return (false, files)
    let (files, written) := writeAll w files (successes lowered)
    reportEach reportWritten written
    return (!(← get).anyErrors, files)

/-- Builds the sources where nothing goes wrong with open files. -/
def run : FileTree → Profile → List SourceFile → Report (Bool × FileTree) :=
  runWith .sound

end Build

end LocLang
