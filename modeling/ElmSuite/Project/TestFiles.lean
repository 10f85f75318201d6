import ElmSuite.Files.Glob
import ElmSuite.Files.Resolve
import ElmSuite.Log
import ElmSuite.Names

/-!
# Test files

The candidate test files are gathered from the arguments of a run. A directory
stands for the Elm files below it, a file for itself, and anything else is a
pattern. What lies in a build or package cache is left out. The files are listed
by their canonical paths, each once.
-/

namespace ElmSuite.TestFiles

/-- The directories that are left out. -/
def ignoredNames : List String := ["elm-stuff", "node_modules"]

/-- Whether names lead through an ignored directory, the last one counting where `isDir` is set. An
ignored directory is overlooked below a name with a line feed; what the names behind it hold does not
matter. -/
def isIgnored (names : List String) (isDir : Bool) : Bool :=
  match names with
  | [] => false
  | name :: rest =>
    (ignoredNames.contains name && (isDir || rest ≠ [])) ||
      (!name.toList.contains '\n' && isIgnored rest isDir)

/-- Whether a name is that of an Elm file. -/
def isElmName (name : String) : Bool := ".elm".toList.isSuffixOf name.toList

variable (fs : FileSystem)

/-- Looks at a node below a directory, which may meet an obstacle: a link is followed, and a directory
is listed. -/
def checkNode (path : Path) : Node → Except FileError Unit
  | .file .. => .ok ()
  | _ => (fs.isDir path).map fun _ => ()

/-- The Elm files below a directory. Links to directories are not entered, but each link is
followed. -/
def inDirectory (dir : Path) : Except Fault (List Path) := do
  let below := ((fs.node? dir).map Node.descendants).getD []
  let pathOf (names : List String) : Path := ⟨dir.anchor, dir.names ++ names⟩
  below.forM fun (names, node) => (checkNode fs (pathOf names) node).mapError Fault.file
  let named := below.filterMap fun (names, _) =>
    if names.getLast?.any isElmName then some names else none
  let files ← named.filterM fun names => (fs.isFile (pathOf names)).mapError Fault.file
  return (files.filter (!isIgnored · false)).map fun names => fs.resolved (pathOf names)

/-- Whether a path that fits a pattern is left out. One that is not below the root is judged by all
its names. -/
def isIgnoredMatch (root path : Path) (isDir : Bool) : Bool :=
  isIgnored ((path.relativeTo? root).getD path.names) isDir

/-- The test files that a path which fits a pattern stands for. -/
def ofMatch (root path : Path) : Except Fault (List Path) := do
  let isDir ← (fs.isDir path).mapError Fault.file
  if isIgnoredMatch root path isDir then return []
  else if isDir then inDirectory fs path
  else if ← (fs.isFile path).mapError Fault.file then return [fs.resolved path]
  else return []

/-- The test files that one argument stands for. -/
def ofCandidate (root candidate : Path) : Except Fault (List Path) := do
  if ← (fs.isDir candidate).mapError Fault.file then inDirectory fs candidate
  else if ← (fs.isFile candidate).mapError Fault.file then return [fs.resolved candidate]
  else
    let found ← fs.expand candidate
    return (← found.mapM (ofMatch fs root)).flatten

/-- What the arguments lead to: each read from `base`, or the tests directory of the project if there
are none. -/
def candidates (arguments : List String) (root base : Path) : List Path :=
  if arguments = [] then [root.child "tests"] else arguments.map base.joinText

/-- Gathers the test files that arguments stand for. -/
def gather (arguments : List String) (root base : Path) : Except Fault PathSet :=
  match (candidates arguments root base).mapM (ofCandidate fs root) with
  | .ok found => .ok (PathSet.ofList found.flatten)
  | .error (.file _) => .error (.problem .unreadableTestFiles)
  | .error e => .error e

/-- The record of how many test files were gathered. -/
def foundNote (files : PathSet) : LogRecord :=
  ⟨.info, "Found " ++ toString files.size ++ " candidate test file(s)"⟩

end ElmSuite.TestFiles
