import ElmSuite.CommandLine.Command
import ElmSuite.Json.Reader

/-!
# Scenarios

A scenario describes what a command finds around itself: the files, the working
directory, the variables, and what each start of a tool leads to. It is read from
a JSON object whose fields may all be missing:

* `files`: by path, a text, `null` for a directory, or an object with the field
  `executable` (a text) or `link` (a path);
* `directory`, `executable`: the working directory, and the name of the command;
* `variables`: by name, a text; no file adds to them;
* `compiler`, `dump`, `runtime`: for each start an object with `exit`, `stdout`
  and `stderr`, or with `refused` or `lost`, which hold a reason.
-/

namespace ElmSuite.Scenario

/-- The text that a value is. -/
def text? : JsonValue → Option String
  | .string s => s.text?
  | _ => none

/-- The fields of an object, by their names. -/
def fieldsOf : JsonValue → List (String × JsonValue)
  | .object fields => fields.filterMap fun (name, value) => name.text?.map (·, value)
  | _ => []

/-- The value of a field of an object. -/
def field? (value : JsonValue) (name : String) : Option JsonValue := (fieldsOf value).lookup name

/-- The text in a field of an object. -/
def fieldText? (value : JsonValue) (name : String) : Option String := (field? value name).bind text?

/-- The node that a value describes. -/
def node : JsonValue → Node
  | .string s => .file (s.text?.getD "").toUTF8.toList false
  | value =>
    match fieldText? value "executable", fieldText? value "link" with
    | some text, _ => .file text.toUTF8.toList true
    | none, some target => .link target
    | none, none => .empty

/-- The file tree of a scenario. -/
def tree (value : JsonValue) : Node :=
  (fieldsOf ((field? value "files").getD .null)).foldl (fun tree (path, value) =>
    tree.put (Path.ofString path).names (node value)) .empty

/-- What a value says that a start of a tool leads to. -/
def outcome (value : JsonValue) : ToolOutcome :=
  match fieldText? value "refused", fieldText? value "lost" with
  | some reason, _ => .notStarted reason
  | none, some reason => .lost reason
  | none, none =>
    let code := match field? value "exit" with
      | some (.integer n) => n
      | _ => 0
    .ended ⟨code, (fieldText? value "stdout").getD "", (fieldText? value "stderr").getD ""⟩

/-- What the starts of a tool lead to; the last one described stands for all that follow. -/
def outcomes (value : JsonValue) (name : String) : Nat → ToolOutcome :=
  let described := match field? value name with
    | some (.array items) => items.map outcome
    | _ => []
  fun n => (described[n]?).getD (described.getLast?.getD (.ended ⟨0, "", ""⟩))

/-- The field that describes the tool in a role. -/
def fieldName : ToolRole → String
  | .compiler => "compiler"
  | .dump => "dump"
  | .runtime => "runtime"

/-- The call of the command in a scenario. -/
def invocation (words : List String) (value : JsonValue) : Invocation :=
  let bindings := (fieldsOf ((field? value "variables").getD .null)).filterMap
    fun (name, value) => (text? value).map (name, ·)
  { words := words
    bindings := fun name => bindings.lookup name
    variableSource := .none
    executable := (fieldText? value "executable").getD Command.name
    files := ⟨tree value, some (Path.ofString ((fieldText? value "directory").getD "/")).names⟩
    homeOf := fun user => if user = "root" then some "/root" else none
    processors := 4
    terminal := false
    outcome := fun role => outcomes value (fieldName role) }

/-- The call of the command in the scenario that a text describes, if it is JSON. -/
def ofText? (words : List String) (text : String) : Option Invocation :=
  match JsonReader.document text.toList with
  | .ok value => some (invocation words value)
  | .error _ => none

end ElmSuite.Scenario
