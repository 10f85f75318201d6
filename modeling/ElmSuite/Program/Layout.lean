import ElmSuite.Path

/-!
# Where generated files go

The fixed places of the generated files below the root of a project.
-/

namespace ElmSuite

/-- The places of the generated files of the project at `root`. -/
structure Layout where
  root : Path
  deriving DecidableEq, Repr

namespace Layout

/-- The directory of all generated files. -/
def directory (l : Layout) : Path :=
  ⟨l.root.anchor, l.root.names ++ ["elm-stuff", "generated-code", "elm-community", "elm-test"]⟩

/-- The source directory of the generated program. -/
def sourceDirectory (l : Layout) : Path := l.directory.child "src"

/-- The compiled program. -/
def compiledProgram (l : Layout) : Path := l.directory.child "elmTestOutput.js"

/-- The manifest for the generated program. -/
def manifest (l : Layout) : Path := l.directory.child "elm.json"

/-- The segments of a module name as they lead to its file. -/
def fileSegments : List String → List String
  | [] => []
  | [last] => [last ++ ".elm"]
  | segment :: rest => segment :: fileSegments rest

/-- The file of the program with this module name, its segments being directories but for the
last. -/
def programFile (l : Layout) (moduleName : String) : Path :=
  (fileSegments (splitString '.' moduleName)).foldl Path.joinText l.sourceDirectory

end Layout

end ElmSuite
