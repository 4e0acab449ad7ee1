import LocLang.File.Path

namespace LocLang

/-- Why something cannot be done with a file. -/
inductive FileCause where
  | notFound
  | notDirectory
  | isDirectory
  | alreadyExists
  /-- A name or a path is too long. -/
  | tooLong
  /-- A path has a null character. -/
  | invalid
  /-- What a device says when it fails. -/
  | device (text : String)
deriving DecidableEq, Repr

def FileCause.text : FileCause → String
  | notFound => "no such file or directory"
  | notDirectory => "not a directory"
  | isDirectory => "is a directory"
  | alreadyExists => "file exists"
  | tooLong => "file name too long"
  | invalid => "invalid argument"
  | device text => text

/-- Something that cannot be done with a file. -/
structure FileError where
  action : String
  path : String
  cause : FileCause
deriving DecidableEq, Repr

def FileError.message (e : FileError) : String :=
  e.action ++ " " ++ e.path ++ ": " ++ e.cause.text

inductive FileEntry where
  | file (bytes : List UInt8)
  | directory
deriving DecidableEq, Repr

/-- The names that lead to a place from the root. -/
abbrev Place := List String

structure FileTree where
  /-- Where relative paths start. -/
  current : Place
  /-- What there is, apart from the root; of two entries for a place the first counts. -/
  entries : List (Place × FileEntry)
deriving DecidableEq, Repr

namespace FileTree

/-- The path of the directory that relative paths start from. -/
def currentPath (t : FileTree) : String :=
  Path.ofNames true t.current

/-- What is at a place. The root is always a directory. -/
def lookup? (t : FileTree) (place : Place) : Option FileEntry :=
  if place = [] then some .directory else t.entries.lookup place

def put (t : FileTree) (place : Place) (entry : FileEntry) : FileTree :=
  { t with entries := (place, entry) :: t.entries.filter (·.1 ≠ place) }

/-- The greatest length of a name, in bytes. -/
def maxNameSize : Nat := 255

/-- The greatest length of a path, in bytes. -/
def maxPathSize : Nat := 4095

/-- The place that a name leads to from another one. A dot leads nowhere else, two dots lead back. -/
def walk (place : Place) (name : String) : Place :=
  if name = "" ∨ name = "." then place
  else if name = ".." then place.dropLast
  else place ++ [name]

/-- Follows names from a place; what they lead to need not exist. -/
def follow (t : FileTree) (place : Place) : List String → Except FileCause Place
  | [] => .ok place
  | name :: names =>
    match t.lookup? place with
    | none => .error .notFound
    | some (.file _) => .error .notDirectory
    | some .directory =>
      if maxNameSize < name.utf8ByteSize then .error .tooLong else t.follow (walk place name) names

/-- The place of a path. -/
def locate (t : FileTree) (path : String) : Except FileCause Place :=
  if '\x00' ∈ path.toList then .error .invalid
  else if path = "" then .error .notFound
  else if maxPathSize < path.utf8ByteSize then .error .tooLong
  else t.follow (if Path.isAbsolute path then [] else t.current) (Path.names path)

/-- What a path leads to. -/
def find (t : FileTree) (path : String) : Except FileCause FileEntry :=
  match t.locate path with
  | .error cause => .error cause
  | .ok place =>
    match t.lookup? place with
    | none => .error .notFound
    | some entry => .ok entry

def isDirectory (t : FileTree) (path : String) : Bool :=
  match t.find path with
  | .ok .directory => true
  | _ => false

/-- Looks what a path leads to. -/
def stat (t : FileTree) (path : String) : Except FileError FileEntry :=
  (t.find path).mapError (⟨"stat", path, ·⟩)

def read (t : FileTree) (path : String) : Except FileError (List UInt8) :=
  match t.find path with
  | .error cause => .error ⟨"open", path, cause⟩
  | .ok .directory => .error ⟨"read", path, .isDirectory⟩
  | .ok (.file bytes) => .ok bytes

/-- Makes a directory inside one that exists. -/
def makeDirectory (t : FileTree) (path : String) : FileTree × Except FileError Unit :=
  match t.locate path with
  | .error cause => (t, .error ⟨"mkdir", path, cause⟩)
  | .ok place =>
    match t.lookup? place with
    | some _ => (t, .error ⟨"mkdir", path, .alreadyExists⟩)
    | none => (t.put place .directory, .ok ())

/-- The path without its last name and the slash before it, unless that is all there is. -/
def parentPath? (path : String) : Option String :=
  let chars := Path.upToSlash (Path.trimSlashes path.toList)
  if chars.length ≤ 1 then none else some (String.ofList chars.dropLast)

/-- Makes a directory and those that lead to it, as far as they do not exist. Those that are made stay, also if there is
    a failure. Every step back shortens the path, whose length is the fuel. -/
def ensureDirectoriesWith (t : FileTree) : (fuel : Nat) → String → FileTree × Except FileError Unit
  | 0, path => t.makeDirectory path
  | fuel + 1, path =>
    match t.find path with
    | .ok .directory => (t, .ok ())
    | .ok (.file _) => (t, .error ⟨"mkdir", path, .notDirectory⟩)
    | .error _ =>
      match parentPath? path with
      | none => t.makeDirectory path
      | some parent =>
        match t.ensureDirectoriesWith fuel parent with
        | (t, .error e) => (t, .error e)
        | (t, .ok ()) => t.makeDirectory path

/-- Makes a directory and those that lead to it, as far as they do not exist. -/
def ensureDirectories (t : FileTree) (path : String) : FileTree × Except FileError Unit :=
  t.ensureDirectoriesWith path.length path

/-- The tree with a directory and those that lead to it, if all of them can be made. -/
def makeDirectories (t : FileTree) (path : String) : Except FileError FileTree :=
  let (t, outcome) := t.ensureDirectories path
  outcome.map fun _ => t

/-- Writes a file, in place of one that exists. -/
def write (t : FileTree) (path : String) (bytes : List UInt8) : Except FileError FileTree :=
  match t.locate path with
  | .error cause => .error ⟨"open", path, cause⟩
  | .ok place =>
    match t.lookup? place with
    | some .directory => .error ⟨"open", path, .isDirectory⟩
    | _ => .ok (t.put place (.file bytes))

/-- The files of a directory by name. -/
def filesIn (t : FileTree) (place : Place) : List String :=
  t.entries.filterMap fun
    | (p, .file _) => if p.dropLast = place then p.getLast? else none
    | (_, .directory) => none

/-- What is new or has changed. -/
def changed (before after : FileTree) : List (Place × FileEntry) :=
  after.entries.filter fun (place, entry) => before.lookup? place ≠ some entry

/-- The files below the current directory that are new or have changed, by the paths from there. -/
def changedFiles (before after : FileTree) : List (String × List UInt8) :=
  (before.changed after).filterMap fun
    | (place, .file bytes) =>
      if after.current.isPrefixOf place then
        some (Path.joinNames (place.drop after.current.length), bytes)
      else none
    | (_, .directory) => none

end FileTree

end LocLang
