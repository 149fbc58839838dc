import JsonIntake.Failure

/-!
# File trees

The files below the current directory.  A path is a list of names from that
directory on; in written form names are joined by slashes, and a single or a
double dot stands for a directory itself or the one around it.
-/

namespace JsonIntake

/-- Directories and files by path; the current directory itself is always
there. -/
structure FileTree where
  directories : List (List String)
  files : List (List String × List UInt8)

namespace FileTree

def empty : FileTree := ⟨[], []⟩

/-- What a path leads to. -/
inductive Entry where
  | file (content : List UInt8)
  | directory

def entry? (tree : FileTree) (path : List String) : Option Entry :=
  match tree.files.find? fun file => file.1 == path with
  | some (_, content) => some (.file content)
  | none =>
    if path.isEmpty || tree.directories.contains path then some .directory
    else none

def isDirectory (tree : FileTree) (path : List String) : Bool :=
  match tree.entry? path with
  | some .directory => true
  | _ => false

/-- Cut a text at every slash. -/
def splitSlashes (text : List Char) : List (List Char) :=
  text.foldr
    (fun c pieces =>
      if c = '/' then [] :: pieces
      else
        match pieces with
        | [] => [[c]]
        | piece :: rest => (c :: piece) :: rest)
    [[]]

/-- The names in a written path, with the empty ones between slashes. -/
def components (path : String) : List String :=
  (splitSlashes path.toList).map String.ofList

/-- Follow one name from a directory. -/
def follow (tree : FileTree) (place : List String) (name : String) :
    Except FileFault (List String) :=
  match tree.entry? place with
  | none => .error .notFound
  | some (.file _) => .error .notDirectory
  | some .directory =>
    if name = "" ∨ name = "." then .ok place
    else if name = ".." then
      if place.isEmpty then .error .notFound else .ok place.dropLast
    else .ok (place ++ [name])

/-- The place that a written path leads to, and what is there. -/
def resolve (tree : FileTree) (path : String) :
    Except FileFault (List String × Entry) :=
  if path = "" then .error .notFound
  else do
    let place ← (components path).foldlM tree.follow []
    match tree.entry? place with
    | some entry => .ok (place, entry)
    | none => .error .notFound

def pathExists (tree : FileTree) (path : String) : Bool :=
  match tree.resolve path with
  | .ok _ => true
  | .error _ => false

/-- Whether a written path leads to a directory. -/
def leadsToDirectory (tree : FileTree) (path : String) : Bool :=
  match tree.resolve path with
  | .ok (_, .directory) => true
  | _ => false

/-- Whether a written path leads to a file. -/
def leadsToFile (tree : FileTree) (path : String) : Bool :=
  match tree.resolve path with
  | .ok (_, .file _) => true
  | _ => false

/-- The names of a written path without dots and empty names. -/
def plainNames (path : String) : List String :=
  (components path).filter fun name => name != "" && name != "."

/-- The directories around a path, outermost first. -/
def parents (path : List String) : List (List String) :=
  ((List.range path.length).map path.take).filter fun parent =>
    !parent.isEmpty

/-- Make a directory and those around it. -/
def addDirectory (tree : FileTree) (path : String) : FileTree :=
  let names := plainNames path
  let wanted := parents names ++ [names]
  { tree with
    directories := tree.directories ++ wanted.filter fun directory =>
      !directory.isEmpty && !tree.directories.contains directory }

/-- Write a file, in place of one that is there, and make the directories
around it. -/
def write (tree : FileTree) (path : String) (content : List UInt8) :
    FileTree :=
  let names := plainNames path
  let missing := (parents names).filter fun directory =>
    !tree.directories.contains directory
  { directories := tree.directories ++ missing
    files :=
      (names, content) :: tree.files.filter fun file => file.1 != names }

/-- The names in a directory. -/
def children (tree : FileTree) (path : List String) : List String :=
  let inside (other : List String) : Option String :=
    if other.dropLast = path then other.getLast? else none
  (tree.directories.filterMap inside ++
    tree.files.filterMap fun file => inside file.1).eraseDups

end FileTree

end JsonIntake
