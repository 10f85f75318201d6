import ElmSuite.Fault
import ElmSuite.Json.Reader

/-!
# Interface dumps

The dump of a build lists, for each module, the values at its top level with
their types. A dump is accepted as a whole or not at all: the faulty fields of
all records are counted together. The tests of a module are the values whose
type is exactly that of a test suite.
-/

namespace ElmSuite

/-- A value at the top level of a module, with its type. -/
structure Declaration where
  name : CodePoints
  signature : CodePoints
  deriving DecidableEq, Repr

/-- What a dump says of one module. -/
structure ModuleRecord where
  moduleName : CodePoints
  declarations : List Declaration
  deriving DecidableEq, Repr

/-- The tests that the compiler confirms for a module, and the file that declares it. -/
structure ModuleTests where
  file : Path
  tests : TextSet
  deriving DecidableEq

namespace InterfaceDump

/-- The type of a test suite. -/
def testType : String := "Test.Test"

/-- What checking a part of a dump gives: the part, or the number of its faulty fields. -/
inductive Checked (α : Type) where
  | accepted (a : α)
  | rejected (faults : Nat)
  deriving Repr

/-- Both parts, or the faults of the two together. -/
def Checked.both {α β : Type} : Checked α → Checked β → Checked (α × β)
  | .accepted a, .accepted b => .accepted (a, b)
  | .accepted _, .rejected n => .rejected n
  | .rejected m, .accepted _ => .rejected m
  | .rejected m, .rejected n => .rejected (m + n)

/-- The part seen in another way. -/
def Checked.map {α β : Type} (f : α → β) : Checked α → Checked β
  | .accepted a => .accepted (f a)
  | .rejected n => .rejected n

/-- All parts of a list, or the faults of all together. -/
def checkAll {α : Type} (check : JsonValue → Checked α) : List JsonValue → Checked (List α)
  | [] => .accepted []
  | x :: xs => ((check x).both (checkAll check xs)).map fun (a, as) => a :: as

/-- A field that has to be a string. -/
def checkText : Option JsonValue → Checked CodePoints
  | some (.string s) => .accepted s
  | _ => .rejected 1

/-- One declaration of a record. -/
def checkDeclaration : JsonValue → Checked Declaration
  | .object fields =>
    ((checkText (JsonValue.field? fields "name")).both
      (checkText (JsonValue.field? fields "signature"))).map fun (n, s) => ⟨n, s⟩
  | _ => .rejected 1

/-- The declarations of a record, none if the field is absent. -/
def checkDeclarations : Option JsonValue → Checked (List Declaration)
  | none => .accepted []
  | some (.array items) => checkAll checkDeclaration items
  | some _ => .rejected 1

/-- One record of a dump. Each field may go by either of two names. -/
def checkRecord : JsonValue → Checked ModuleRecord
  | .object fields =>
    ((checkText (JsonValue.firstField? fields ["moduleName", "module_name"])).both
      (checkDeclarations (JsonValue.firstField? fields ["types", "declarations"]))).map
        fun (m, ds) => ⟨m, ds⟩
  | _ => .rejected 1

/-- Reads the output of the dump tool. -/
def read (stdout : String) : Except Fault (List ModuleRecord) :=
  let text := stdout.toList
  if Text.allBlank text then .error (.problem .emptyDump)
  else match JsonReader.document text with
    | .error (.tooManyDigits n) => .error (.tooManyDigits n)
    | .error (.malformed mistake remaining) =>
      .error (.problem (.malformedDump (mistake.detail text (text.length - remaining))))
    | .ok (.array items) =>
      match checkAll checkRecord items with
      | .accepted records => .ok records
      | .rejected n =>
        .error (.problem (.malformedDump (toString n ++ " invalid module record field(s)")))
    | .ok other => .error (.problem (.dumpNotArray other.typeName))

/-- The names that a record declares with the test type. -/
def testsOf (testType : String) (r : ModuleRecord) : TextSet :=
  TextSet.ofList ((r.declarations.filter fun d => d.signature = .ofString testType).map (·.name))

/-- The module of a record and its file, if the module is in a table. -/
def knownModule? (table : NameMap Path) (r : ModuleRecord) : Option (String × Path) := do
  let moduleName ← r.moduleName.text?
  return (moduleName, ← table[moduleName]?)

/-- Adds the tests of a record to what was collected. -/
def collectRecord (table : NameMap Path) (testType : String) (found : NameMap ModuleTests)
    (r : ModuleRecord) : NameMap ModuleTests :=
  match knownModule? table r with
  | none => found
  | some (moduleName, file) =>
    let tests := testsOf testType r
    if tests.isEmpty then found
    else
      let before := (found[moduleName]?.map (·.tests)).getD ∅
      found.insert moduleName ⟨file, before.insertMany tests.toList⟩

/-- The tests of the modules in a table. -/
def collect (table : NameMap Path) (testType : String) (records : List ModuleRecord) :
    NameMap ModuleTests :=
  records.foldl (collectRecord table testType) ∅

end InterfaceDump

end ElmSuite
