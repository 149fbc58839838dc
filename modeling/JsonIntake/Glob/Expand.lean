import JsonIntake.Glob.Pattern
import JsonIntake.Source.Basic

/-!
# Expanding glob patterns

A pattern is matched against a file tree one component at a time.  Components
without wildcards are looked up directly; the others are tried on every name
in the directory.  The files that are found are sorted by their components, so
that the order of a read does not depend on the order of the search.
-/

namespace JsonIntake.Glob

/-- A path that has been reached. -/
structure Place where
  /-- In written form. -/
  path : String
  isDirectory : Bool

/-- Whether a written path is the current directory. -/
def isHere (path : String) : Bool :=
  path.toList.head? == some '.' &&
    (FileTree.components path).all fun name => name == "." || name == ""

/-- The written path of a name in a directory. -/
def joinPath (directory name : String) : String :=
  if directory = "" ∨ directory.toList.getLast? = some '/' then
    directory ++ name
  else directory ++ "/" ++ name

namespace Place

def ofPath (tree : FileTree) (path : String) : Place :=
  ⟨path, tree.leadsToDirectory path⟩

/-- A name in a directory; names in the current directory stand alone. -/
def child (tree : FileTree) (place : Place) (name : String) : Place :=
  ofPath tree
    (if isHere place.path then name else joinPath place.path name)

/-- The names in a directory, in order. -/
def names (tree : FileTree) (place : Place) : List String :=
  match tree.resolve place.path with
  | .ok (names, .directory) =>
    (tree.children names).mergeSort fun a b => !decide (b < a)
  | _ => []

end Place

/-- Go on from a place with the components that are left; without any the
place itself is found. -/
def continueWith (search : List Pattern → Place → List Place)
    (patterns : List Pattern) (place : Place) : List Place :=
  match patterns with
  | [] => [place]
  | _ => search patterns place

/-- Try the first component on the name of a place. -/
def matchHere (search : List Pattern → Place → List Place)
    (name : String) (place : Place) : List Pattern → List Place
  | [] => []
  | pattern :: rest =>
    if pattern.fits name then continueWith search rest place else []

/-- Try the components on a place found in a directory.  Where the first one
stands for any number of directories, it may go on inside of the place, or
leave the place to the component behind it. -/
def visit (search : List Pattern → Place → List Place)
    (pattern : Pattern) (rest : List Pattern)
    (name : String) (place : Place) : List Place :=
  if pattern.isRecursive then
    let later := rest.dropWhile Pattern.isRecursive
    if place.isDirectory then
      let here :=
        if later.isEmpty then [place] else matchHere search name place later
      here ++ search (pattern :: later) place
    else matchHere search name place later
  else matchHere search name place (pattern :: rest)

/-- The places that a list of components leads to from a place. -/
def search (tree : FileTree) : (steps : Nat) → List Pattern → Place →
    List Place
  | 0, _, _ => []
  | _ + 1, [], _ => []
  | steps + 1, pattern :: rest, place =>
    let onward := search tree steps
    match pattern.literal? with
    | some name =>
      let isSpecial := name = "." ∨ name = ".."
      let next := place.child tree name
      let found :=
        if isSpecial then place.isDirectory else tree.pathExists next.path
      if found then continueWith onward rest next else []
    | none =>
      if ¬ place.isDirectory then []
      else
        -- Only a written dot stands for the directories named by dots.
        let dots :=
          if pattern.tokens.head? = some (.char '.') then
            ["..", "."].filter pattern.fits
          else []
        let special := dots.flatMap fun name =>
          continueWith onward rest
            (Place.ofPath tree (joinPath place.path name))
        let inside := (place.names tree).flatMap fun name =>
          visit onward pattern rest name (place.child tree name)
        special ++ inside

/-- Greatest number of names in a path of the tree. -/
def treeDepth (tree : FileTree) : Nat :=
  let lengths := tree.directories.map List.length ++
    tree.files.map fun file => file.1.length
  lengths.foldl max 0

/-- The components of a pattern; a slash at the end begins no other one. -/
def patternComponents (text : List Char) : List (List Char) :=
  let pieces := FileTree.splitSlashes text
  if pieces.getLast? = some [] then pieces.dropLast else pieces

/-- The key of one component in the order of paths: dots before names. -/
def componentKey (name : String) : Nat × String :=
  if name = "." then (0, "")
  else if name = ".." then (1, "")
  else (2, name)

/-- The components that count in the order of paths: a single dot counts only
in front. -/
def orderKey (path : String) : List (Nat × String) :=
  match FileTree.components path with
  | [] => []
  | first :: rest =>
    let kept := rest.filter fun name => name != "" && name != "."
    ((if first = "" then [] else [first]) ++ kept).map componentKey

/-- Whether one path may stand before another. -/
def keyLe : List (Nat × String) → List (Nat × String) → Bool
  | [], _ => true
  | _ :: _, [] => false
  | (k, a) :: as, (l, b) :: bs =>
    if k < l then true
    else if l < k then false
    else if a < b then true
    else if b < a then false
    else keyLe as bs

/-- The files of a tree that a relative pattern stands for.  A pattern that
ends in a slash stands for directories only. -/
def expand (tree : FileTree) (text : String) :
    Except PatternFault (List String) := do
  let _ ← Pattern.parse text.toList
  let patterns ← (patternComponents text.toList).mapM Pattern.parse
  let steps := (patterns.length + 1) * (treeDepth tree + 2)
  let found := search tree steps patterns ⟨".", true⟩
  let wanted :=
    if text.toList.getLast? = some '/' ∨ text.toList.head? = some '/' then []
    else found
  let files := (wanted.map Place.path).filter tree.leadsToFile
  .ok (files.mergeSort fun a b => keyLe (orderKey a) (orderKey b))

/-- Why a pattern gives no sources. -/
inductive GlobFailure where
  | badPattern (pattern : String) (fault : PatternFault)
  | noFiles (pattern : String)
  | unreadable (path : String) (failure : Failure)

/-- The messages of a failure, the outermost one first. -/
def GlobFailure.chain : GlobFailure → List String
  | .badPattern pattern fault =>
    ["invalid glob pattern: " ++ pattern, fault.message]
  | .noFiles pattern => ["no files found matching pattern: " ++ pattern]
  | .unreadable path failure => ["open " ++ path, failure.message]

/-- The files that a pattern stands for, in order. -/
def filesMatching (tree : FileTree) (pattern : String) :
    Except GlobFailure (List String) :=
  (expand tree pattern).mapError (.badPattern pattern)

/-- The files that a pattern stands for, opened as sources.  There has to be
at least one. -/
def sourcesMatching (tree : FileTree) (pattern : String) :
    Except GlobFailure (List Source) := do
  let files ← filesMatching tree pattern
  if files.isEmpty then .error (.noFiles pattern)
  else
    files.mapM fun path =>
      (Source.openFile tree path).mapError (.unreadable path)

end JsonIntake.Glob
