import ElmSuite.Files.Change
import ElmSuite.Json.Printer
import ElmSuite.Json.Reader
import ElmSuite.Program.Layout
import ElmSuite.Text.Line
import ElmSuite.Text.Utf8

/-!
# Project manifests

The manifest `elm.json` of a project is a JSON object. It tells an application,
which lists its source directories, from a package. Its other fields are kept as
they are, for the manifest of the generated program.
-/

namespace ElmSuite

/-- The kinds of projects. -/
inductive ProjectKind where
  | application
  | package
  deriving DecidableEq, Repr

/-- A manifest that was read and checked. -/
structure Manifest where
  kind : ProjectKind
  /-- The source directories listed, if there is a list. -/
  sourceDirectories : Option (List CodePoints)
  /-- The fields as they were read. -/
  fields : List (CodePoints × JsonValue)

namespace ProjectKind

/-- The name of a kind. -/
def name : ProjectKind → String
  | application => "application"
  | package => "package"

/-- The kind that a value names. -/
def ofValue? : JsonValue → Option ProjectKind
  | .string s => [application, package].find? fun k => CodePoints.ofString k.name = s
  | _ => none

end ProjectKind

namespace Manifest

/-- The name of the file of a manifest. -/
def fileName : String := "elm.json"

/-- The field of the source directories. -/
def sourceDirectoriesField : String := "source-directories"

/-- The strings of a list, or the number of faults: of items that are no strings, or of the list if
it is empty. -/
def checkDirectories : JsonValue → Except Nat (Option (List CodePoints))
  | .null => .ok none
  | .array items =>
    let faults := (items.filter fun x => match x with | .string _ => false | _ => true).length
    if items.isEmpty then .error 1
    else if faults ≠ 0 then .error faults
    else .ok (some (items.filterMap fun x => match x with | .string s => some s | _ => none))
  | _ => .error 1

/-- Checks the fields of the manifest at `path`. The faults of both fields are counted together,
unless the field of the source directories is at fault under its usual name. -/
def ofFields (path : Path) (fields : List (CodePoints × JsonValue)) : Except Problem Manifest :=
  let kind : Except Nat ProjectKind :=
    match JsonValue.firstField? fields ["type", "project_type"] with
    | none => .ok .application
    | some value => match ProjectKind.ofValue? value with
      | some kind => .ok kind
      | none => .error 1
  let directories : Except Nat (Option (List CodePoints)) :=
    match JsonValue.firstField? fields [sourceDirectoriesField, "source_directories"] with
    | none => .ok none
    | some value => checkDirectories value
  let usualName := (JsonValue.field? fields sourceDirectoriesField).isSome
  let malformed (faults : Nat) : Except Problem Manifest :=
    .error (.malformedManifest path (toString faults ++ " invalid field(s)"))
  match kind, directories with
  | .ok kind, .ok directories =>
    if kind = .application ∧ directories = none then .error (.invalidSourceDirectories path)
    else .ok ⟨kind, directories, fields⟩
  | .error m, .ok _ => malformed m
  | .ok _, .error n => if usualName then .error (.invalidSourceDirectories path) else malformed n
  | .error m, .error n =>
    if usualName then .error (.invalidSourceDirectories path) else malformed (m + n)

/-- Reads the text of the manifest at `path`. -/
def ofText (path : Path) (text : List Char) : Except Fault Manifest :=
  match JsonReader.document text with
  | .error (.tooManyDigits n) => .error (.tooManyDigits n)
  | .error (.malformed mistake remaining) =>
    .error (.problem (.malformedManifest path (mistake.detail text (text.length - remaining))))
  | .ok (.object fields) => (ofFields path fields).mapError .problem
  | .ok _ => .error (.problem (.malformedManifest path "expected a JSON object"))

/-- Reads the manifest of the project at `root`. -/
def read (fs : FileSystem) (root : Path) : Except Fault Manifest :=
  let path := root.child fileName
  match fs.read path with
  | .error (.file _) => .error (.problem (.unreadableManifest path))
  | .error e => .error e
  | .ok bytes =>
    match Utf8.decode bytes with
    | .error _ => .error (.problem (.unreadableManifest path))
    | .ok text => ofText path (Text.unifyLineEnds text)

/-- The text of a manifest with these fields. -/
def text (fields : List (CodePoints × JsonValue)) : String :=
  JsonPrinter.document (.object fields) ++ "\n"

/-- Writes the manifest for the generated program. -/
def write (fs : FileSystem) (layout : Layout) (fields : List (CodePoints × JsonValue)) :
    Except Fault FileSystem :=
  fs.writeTextWithParents layout.manifest (text fields)

end Manifest

end ElmSuite
