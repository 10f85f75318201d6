import ElmSuite.Files.Spelling
import ElmSuite.Log
import ElmSuite.Project.Manifest

/-!
# Projects

A project is found by its manifest, in a directory or in the nearest one above
it. Its source directories are those that its manifest lists, or `src` for a
package, and its `tests` directory if it has one, each once and by its canonical
path.
-/

namespace ElmSuite

/-- A project that was loaded. -/
structure Project where
  root : Path
  manifest : Manifest
  /-- The canonical paths of the source directories. -/
  sourceDirs : List Path

namespace Project

/-- The directory of the tests of a project. -/
def testsDirectory : String := "tests"

/-- The first of some directories that holds a manifest. -/
def firstWithManifest (fs : FileSystem) : List Path → Except Fault (Option Path)
  | [] => .ok none
  | dir :: rest =>
    match fs.isFile (dir.child Manifest.fileName) with
    | .error e => .error (.file e)
    | .ok true => .ok (some dir)
    | .ok false => firstWithManifest fs rest

/-- The nearest directory with a manifest, from `start` up. -/
def findRoot (fs : FileSystem) (start : Path) : Except Fault Path :=
  match firstWithManifest fs (start :: start.parents) with
  | .error e => .error e
  | .ok (some dir) => .ok dir
  | .ok none => .error (.problem (.missingManifest start))

/-- Makes the root of a project the working directory. -/
def enterRoot (fs : FileSystem) (root : Path) : Except Fault FileSystem :=
  match fs.enter root with
  | .error (.file _) => .error (.problem (.changeDirectory root))
  | .error e => .error e
  | .ok entered => .ok entered

/-- The canonical path of one source directory. -/
def resolveEntry (fs : FileSystem) (root : Path) (entry : CodePoints) : Except Fault Path :=
  match fs.resolveSpelled root entry with
  | .error (.file _) => .error (.problem (.invalidSourceDirectory entry))
  | .error e => .error e
  | .ok dir =>
    match fs.isDir dir with
    | .error e => .error (.file e)
    | .ok true => .ok dir
    | .ok false => .error (.problem (.invalidSourceDirectory entry))

/-- The source directories that a manifest declares. -/
def declaredDirectories (manifest : Manifest) : List CodePoints :=
  match manifest.kind with
  | .package => [.ofString "src"]
  | .application => manifest.sourceDirectories.getD []

/-- The canonical paths of the source directories, that of the tests last. -/
def resolveSourceDirs (fs : FileSystem) (root : Path) (manifest : Manifest) :
    Except Fault (List Path) := do
  let declared ← (declaredDirectories manifest).mapM (resolveEntry fs root)
  let tests := root.child testsDirectory
  if ← (fs.isDir tests).mapError Fault.file then return (declared ++ [fs.resolved tests]).eraseDups
  else return declared.eraseDups

/-- Loads the project at `root`. -/
def load (fs : FileSystem) (root : Path) : Except Fault Project := do
  let manifest ← Manifest.read fs root
  return ⟨root, manifest, ← resolveSourceDirs fs root manifest⟩

/-- The record that a project was loaded. -/
def loadedNote (p : Project) : LogRecord :=
  ⟨.info, "Loaded " ++ p.manifest.kind.name ++ " project with " ++ toString p.sourceDirs.length ++
    " source director(y/ies)"⟩

/-- The fields of the manifest for the generated program: those of the project, with the generated
source directory before those of the project. -/
def generatedManifest (p : Project) (layout : Layout) : List (CodePoints × JsonValue) :=
  let dirs := (layout.sourceDirectory :: p.sourceDirs).map fun d =>
    JsonValue.string (CodePoints.ofString (toString d))
  JsonValue.setField (CodePoints.ofString Manifest.sourceDirectoriesField) (.array dirs)
    p.manifest.fields

end Project

end ElmSuite
