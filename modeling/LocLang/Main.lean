import LocLang.Command

namespace LocLang.Main

/-- What is at a path, if anything can be found out about it. -/
def entryAt (path : String) : IO (Option FileEntry) := do
  try
    let bytes ← IO.FS.readBinFile path
    return some (.file bytes.toList)
  catch
    | .inappropriateType .. => return some .directory
    | _ => return none

/-- Adds what is at a place, and before that the directories that lead to it. -/
def visit (files : FileTree) (done : Place) : Place → IO FileTree
  | [] => return files
  | name :: names => do
    let place := done ++ [name]
    match ← entryAt (Path.ofNames true place) with
    | none => return files
    | some entry => visit (files.put place entry) place names

/-- The paths that a command line leads to: words, values, and profiles next to them. -/
def pathsOf (text : String) : List String :=
  let path := match Word.ofText text with
    | .plain text => text
    | .flag _ _ => ""
    | .argument _ _ value => value
  [path, Path.join path Profile.fileName, Path.join (Path.directory path) Profile.fileName]

/-- The files that a command line leads to. -/
def survey (texts : List String) : IO FileTree := do
  let directory := toString (← IO.currentDir)
  let mut files : FileTree := ⟨Path.plainNames directory, []⟩
  files ← visit files [] files.current
  for path in texts.flatMap pathsOf do
    files ← visit files [] (Path.plainNames (Path.absolute directory path))
  return files

/-- The directory that a command line names as its source, if it names one. -/
def sourceDirectory? (files : FileTree) (texts : List String) : Option String :=
  match Command.spec.parse texts with
  | .ok (_, g) => if g.primary ≠ "" ∧ files.isDirectory g.primary then some g.primary else none
  | .error _ => none

/-- Writes what has changed. -/
def apply (before after : FileTree) : IO Unit := do
  for (place, entry) in (before.changed after).reverse do
    let path := Path.ofNames true place
    match entry with
    | .directory => IO.FS.createDirAll path
    | .file bytes => IO.FS.writeBinFile path ⟨bytes.toArray⟩

end LocLang.Main

open LocLang in
def main (texts : List String) : IO UInt32 := do
  let files ← Main.survey texts
  if let some directory := Main.sourceDirectory? files texts then
    IO.println s!"Fatal Error failed to load sources: directory `{directory}` cannot be listed\n"
    return 1
  let outcome := Command.execute files texts
  IO.print outcome.shown
  Main.apply files outcome.files
  return outcome.status.toUInt32
