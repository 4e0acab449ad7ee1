namespace LocLang.Path

/-- The characters after the last slash. -/
def lastName (path : List Char) : List Char :=
  (path.reverse.takeWhile (· ≠ '/')).reverse

/-- The characters up to and with the last slash. -/
def upToSlash (path : List Char) : List Char :=
  (path.reverse.dropWhile (· ≠ '/')).reverse

/-- The characters of a path from the last dot of its last name on. -/
def extensionChars (path : List Char) : List Char :=
  let name := lastName path
  if '.' ∈ name then '.' :: (name.reverse.takeWhile (· ≠ '.')).reverse else []

/-- The characters of a path before its extension. -/
def stemChars (path : List Char) : List Char :=
  path.take (path.length - (extensionChars path).length)

/-- The extension of a path with its dot, or nothing. -/
def extension (path : String) : String :=
  String.ofList (extensionChars path.toList)

/-- The path with another extension, which is written with its dot. -/
def withExtension (path ext : String) : String :=
  String.ofList (stemChars path.toList ++ ext.toList)

def isAbsolute (path : String) : Bool :=
  path.toList.head? = some '/'

/-- The names between slashes; an empty one stands wherever there is none. -/
def splitNames : List Char → List (List Char)
  | [] => [[]]
  | c :: cs =>
    if c = '/' then [] :: splitNames cs
    else
      match splitNames cs with
      | [] => [[c]]
      | name :: names => (c :: name) :: names

/-- The names in a path, the empty ones included. -/
def names (path : String) : List String :=
  (splitNames path.toList).map String.ofList

/-- Adds a name to names that lead to a place, the last one first. A dot changes nothing, two dots go back; at the
    start of an absolute path there is nothing to go back to. -/
def step (absolute : Bool) (place : List String) (name : String) : List String :=
  if name = "" ∨ name = "." then place
  else if name = ".." then
    match place with
    | [] => if absolute then [] else [".."]
    | last :: rest => if last = ".." then ".." :: place else rest
  else name :: place

/-- The names that lead to a place, without dots as far as possible. -/
def plainNames (path : String) : List String :=
  ((names path).foldl (step (isAbsolute path)) []).reverse

/-- Names with slashes between them. -/
def joinNames : List String → String
  | [] => ""
  | [name] => name
  | name :: names => name ++ "/" ++ joinNames names

/-- The path of a place. -/
def ofNames (absolute : Bool) (names : List String) : String :=
  if absolute then "/" ++ joinNames names else if names = [] then "." else joinNames names

/-- The shortest path to the same place. -/
def clean (path : String) : String :=
  ofNames (isAbsolute path) (plainNames path)

/-- The path of a place seen from a directory. Nothing seen from nothing is nothing. -/
def join (directory path : String) : String :=
  if directory = "" then
    if path = "" then "" else clean path
  else if path = "" then clean directory
  else clean (directory ++ "/" ++ path)

/-- The absolute path of a place seen from a directory. -/
def absolute (directory path : String) : String :=
  if isAbsolute path then clean path else join directory path

/-- The path of the directory that a place is in. -/
def directory (path : String) : String :=
  clean (String.ofList (upToSlash path.toList))

/-- A path without slashes at its end. -/
def trimSlashes (path : List Char) : List Char :=
  (path.reverse.dropWhile (· = '/')).reverse

/-- The last name of a path. -/
def base (path : String) : String :=
  let trimmed := trimSlashes path.toList
  if path = "" then "." else if trimmed = [] then "/" else String.ofList (lastName trimmed)

/-- The names that lead from one place to another: back as far as they have nothing in common, then forth. -/
def route : List String → List String → List String
  | a :: source, b :: target =>
    if a = b then route source target else (a :: source).map (fun _ => "..") ++ b :: target
  | source, target => source.map (fun _ => "..") ++ target

/-- The path from one absolute place to another. -/
def relative (directory path : String) : String :=
  ofNames false (route (plainNames directory) (plainNames path))

end LocLang.Path
