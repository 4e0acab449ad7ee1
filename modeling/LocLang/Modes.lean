namespace LocLang

/-- Whether a declaration is marked as local or as global. -/
inductive Locality where
  | unspecified
  | asLocal
  | asGlobal
deriving DecidableEq, Repr, Inhabited

/-- Whether a declaration is marked as unique or as shared. -/
inductive Uniqueness where
  | unspecified
  | unique
  | shared
deriving DecidableEq, Repr, Inhabited

def Locality.word? : Locality → Option String
  | unspecified => none
  | asLocal => some "local"
  | asGlobal => some "global"

def Uniqueness.word? : Uniqueness → Option String
  | unspecified => none
  | unique => some "unique"
  | shared => some "shared"

structure Modes where
  locality : Locality := .unspecified
  uniqueness : Uniqueness := .unspecified
deriving DecidableEq, Repr, Inhabited

def Modes.text (m : Modes) : String :=
  match m.locality.word?, m.uniqueness.word? with
  | none, none => "default"
  | none, some u => u
  | some l, none => l
  | some l, some u => l ++ " " ++ u

end LocLang
