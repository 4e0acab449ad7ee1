import LocLang.File.Tree
import LocLang.Ir
import LocLang.Report.Level
import LocLang.Text.Utf8
import LocLang.Toml.Document

namespace LocLang

structure Profile where
  triple : String := ({} : Target).triple
  layout : String := ({} : Target).layout
  /-- The extension of output files, with its dot. -/
  outputExt : String := ".ll"
  /-- Whether a match that is not exhaustive is an error. -/
  strict : Bool := true
  level : LogLevel := .verbose
deriving DecidableEq, Repr

inductive ProfileError where
  /-- The document is malformed, or a value has a wrong type. -/
  | malformed
  | extension (ext : String)
  | level (name : String)
  | file (e : FileError)
deriving DecidableEq, Repr

def ProfileError.message : ProfileError → String
  | malformed => "malformed build profile"
  | extension ext => s!"output extension `{ext}` must begin with a `.`"
  | level name => LogLevel.unknownMessage name
  | file e => e.message

namespace Profile

/-- What a key stands for. If there is no such key, it can be written in capital letters too. -/
def setting? (t : Toml.Table) (key : String) : Option Toml.Node :=
  (t.lookup key).or (t.lookup key.toUpper)

/-- A text, or nothing if there is none. -/
def textSetting (t : Toml.Table) (key : String) : Except ProfileError String :=
  match setting? t key with
  | none => .ok ""
  | some (.value (.text s)) => .ok s
  | some _ => .error .malformed

/-- A truth value, if there is one. -/
def boolSetting (t : Toml.Table) (key : String) : Except ProfileError (Option Bool) :=
  match setting? t key with
  | none => .ok none
  | some (.value (.bool b)) => .ok (some b)
  | some _ => .error .malformed

/-- An extension starts with a dot; an empty one is none. -/
def checkExtension (ext : String) : Except ProfileError String :=
  if ext = "" then .ok ({} : Profile).outputExt
  else if ext.toList.head? = some '.' then .ok ext
  else .error (.extension ext)

/-- The level of a name; an empty one is none. -/
def checkLevel (name : String) : Except ProfileError LogLevel :=
  if name = "" then .ok ({} : Profile).level
  else
    match LogLevel.ofName? name with
    | some level => .ok level
    | none => .error (.level name)

/-- The text, unless it is empty. -/
def orDefault (text default : String) : String :=
  if text = "" then default else text

/-- The profile of a table. All types are checked before any value. -/
def ofTable (t : Toml.Table) : Except ProfileError Profile := do
  let triple ← textSetting t "target-triple"
  let layout ← textSetting t "data-layout"
  let ext ← textSetting t "output-ext"
  let strict ← boolSetting t "strict-match"
  let level ← textSetting t "loglevel"
  let default : Profile := {}
  return {
    triple := orDefault triple default.triple
    layout := orDefault layout default.layout
    outputExt := ← checkExtension ext
    strict := strict.getD default.strict
    level := ← checkLevel level }

def ofText (text : String) : Except ProfileError Profile :=
  match Toml.parse? text with
  | none => .error .malformed
  | some root =>
    match setting? root "build" with
    | none => .ok {}
    | some (.table t) => ofTable t
    | some _ => .error .malformed

def load (files : FileTree) (path : String) : Except ProfileError Profile :=
  match files.read path with
  | .error e => .error (.file e)
  | .ok bytes => ofText (Text.Utf8.text bytes)

/-- The name of the file with the profile next to a source. -/
def fileName : String := "locus.toml"

/-- The profile for a source: the one that is asked for, or the one next to the source, or the default. -/
def select (files : FileTree) (source path : String) : Except ProfileError Profile :=
  if path ≠ "" then load files path
  else
    let directory := if files.isDirectory source then source else Path.directory source
    match load files (Path.join directory fileName) with
    | .error (.file ⟨_, _, .notFound⟩) => .ok {}
    | profile => profile

/-- What modules say about the target, for the source of the given name. -/
def target (p : Profile) (sourceName : String) : Target :=
  { sourceName, layout := p.layout, triple := p.triple }

end Profile

end LocLang
