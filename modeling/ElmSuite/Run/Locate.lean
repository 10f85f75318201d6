import ElmSuite.Files.Resolve
import ElmSuite.Files.Search

/-!
# Locating the tools

The compiler is the one that the user asks for: a bare name is left to the
search path, anything with a slash has to be a file. The interface dump tool
lies beside the running executable, wherever links to it may lie.
-/

namespace ElmSuite

/-- Whether a text can be the last name of a path. -/
def isLastName (name : String) : Bool :=
  name.toList.getLast?.any (· ≠ '/') && !(Path.ofString name).isAbsolute &&
    (Path.ofString name).names.length = 1

/-- A path with another last name. -/
def Path.sibling (p : Path) (name : String) : Except Fault Path :=
  if p.names = [] then .error (.noName p)
  else if isLastName name then .ok (p.parent.child name)
  else .error (.invalidName name)

/-- Whether a text has a slash, so that it is a path and no bare name. -/
def hasSlash (text : String) : Bool := text.toList.contains '/'

namespace Compiler

/-- The compiler that a value asks for. A directory is no compiler, not even under a bare name. -/
def locate (fs : FileSystem) (s : Surroundings) (value : String) : Except Fault String := do
  let path ← s.expandHome (Path.ofString value)
  if ← (fs.isDir path).mapError Fault.file then throw (.problem (.invalidCompilerPath value))
  if !hasSlash value then return (fs.findProgram s.searchPath value).getD value
  if ← (fs.isFile path).mapError Fault.file then return toString (fs.resolved path)
  throw (.problem (.invalidCompilerPath value))

end Compiler

namespace Dump

/-- The name of the interface dump tool. -/
def programName : String := "elm-interface-to-json"

/-- The fault that the running executable cannot be told. -/
def unknown (detail : String) : Fault := .problem (.unknownExecutable detail)

/-- The tool of a name beside the executable, whose links are followed. -/
def locate (fs : FileSystem) (s : Surroundings) (executable name : String) : Except Fault Path := do
  if executable = "" then throw (unknown "empty argv[0]")
  let located? := if hasSlash executable then some executable
    else fs.findProgram s.searchPath executable
  match located? with
  | none => throw (unknown (executable ++ " is not on PATH"))
  | some text =>
    match fs.resolve (Path.ofString text) with
    | .ok resolved => resolved.sibling name
    | .error (.file e) => throw (unknown e.message)
    | .error e => throw e

end Dump

end ElmSuite
