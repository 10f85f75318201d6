import ElmSuite.Fault
import ElmSuite.Program.Literal
import ElmSuite.Program.Sha256
import ElmSuite.Settings.Integer

/-!
# The generated program

The runner program imports every module with tests, makes one group of the
tests of each module, and runs the groups with the options of the run. The name
of its module holds a digest of its body, so that the same tests with the same
options always give the same program and the compiler can reuse its work. There is
no program where an integer has too many digits to be shown, or where a surrogate
stands alone in a name or a path, so that the body has no digest.
-/

namespace ElmSuite

/-- How the results of a run are reported. -/
inductive Report where
  | console
  | json
  | junit
  deriving DecidableEq, Repr

/-- What a run is told beside its tests. -/
structure RunOptions where
  /-- How often each fuzz test is tried. -/
  fuzz : Option Int := none
  /-- The first random seed. -/
  seed : Option Int := none
  /-- The number of workers. -/
  processes : Int := 1
  report : Report := .console
  /-- Whether a console report is in colour. -/
  useColor : Bool := false
  /-- The arguments of the run as they were given. -/
  paths : List CodePoints := []
  deriving DecidableEq, Repr

/-- A program text and the name of its module. -/
structure Program where
  moduleName : String
  source : String
  deriving DecidableEq, Repr

namespace Report

/-- The name of a report. -/
def name : Report → String
  | console => "console"
  | json => "json"
  | junit => "junit"

/-- All reports, in the order in which they are offered. -/
def all : List Report := [console, json, junit]

/-- The report of a name. -/
def ofName (s : String) : Except Fault Report :=
  match all.find? (·.name = s) with
  | some r => .ok r
  | none => .error (.unknownReport s)

/-- Whether a report is made to be read by a machine. -/
def isMachineReadable (r : Report) : Bool := r ≠ console

/-- The expression for a report. -/
def code : Report → Bool → String
  | json, _ => "JsonReport"
  | junit, _ => "JUnitReport"
  | console, true => "(ConsoleReport UseColor)"
  | console, false => "(ConsoleReport Monochrome)"

end Report

namespace Program

open CodePoints (ofChars ofString)

/-- Texts with a separator between neighbours. -/
def joinWith {α : Type} (separator : List α) (texts : List (List α)) : List α :=
  separator.intercalate texts

/-- The expression for an integer that need not be there. -/
def maybeInteger : Option Int → List Char
  | none => "Nothing".toList
  | some n => "(Just ".toList ++ (toString n).toList ++ [')']

/-- The imports that every program needs. -/
def runnerImports : String :=
  "import Test.Reporter.Reporter exposing (Report(..))\n" ++
    "import Console.Text exposing (UseColor(..))\nimport Test.Runner.Node\nimport Test"

/-- The names in ascending order, repeated ones kept. -/
def sorted (names : List CodePoints) : List CodePoints :=
  names.mergeSort fun a b => (compare a b).isLE

/-- What stands before the references of a group. -/
def groupStart (moduleName : String) : List Char :=
  "Test.describe ".toList ++ Literal.literal moduleName ++ "\n            [ ".toList

/-- The group of the tests of one module. -/
def group (moduleName : String) (tests : List CodePoints) : CodePoints :=
  let references := (sorted tests).map fun n => ofString moduleName ++ '.'.toNat :: n
  ofChars (groupStart moduleName) ++ joinWith (ofString "\n            , ") references ++
    ofString "\n            ]"

/-- The fields of the options before the paths. -/
def shownOptions (o : RunOptions) : List Char :=
  let fields : List (List Char) :=
    [ "runs = ".toList ++ maybeInteger o.fuzz,
      "report = ".toList ++ (o.report.code o.useColor).toList,
      "seed = ".toList ++ maybeInteger o.seed,
      "processes = ".toList ++ (toString o.processes).toList ]
  "\x7b ".toList ++ joinWith "\n            , ".toList fields ++ "\n            , ".toList

/-- The list of the literals of texts. -/
def literals (texts : List CodePoints) : CodePoints :=
  '['.toNat :: (joinWith (ofString ", ") (texts.map Literal.ofText) ++ [']'.toNat])

/-- The record of the options of a run. -/
def optionsRecord (o : RunOptions) : CodePoints :=
  ofChars (shownOptions o ++ "paths = ".toList) ++ literals o.paths ++
    ofString "\n            \x7d"

/-- The imports of the modules with tests. -/
def importLines (modules : List String) : List Char :=
  joinWith ['\n'] (modules.map fun m => "import ".toList ++ m.toList)

/-- What stands before the groups of a program. -/
def opening (modules : List String) : List Char :=
  importLines modules ++ "\n\n".toList ++ runnerImports.toList ++
    "\n\nmain : Test.Runner.Node.TestProgram\nmain =\n    [ ".toList

/-- What stands between the groups of a program and its options. -/
def afterGroups : List Char :=
  "\n    ]\n        |> Test.concat\n        |> Test.Runner.Node.runWithOptions\n            ".toList

/-- The program without its header. Modules are listed in ascending order. -/
def body (tests : NameMap (List CodePoints)) (o : RunOptions) : CodePoints :=
  ofChars (opening tests.keys) ++
    joinWith (ofString "\n    , ") (tests.toList.map fun (m, names) => group m names) ++
    ofChars afterGroups ++ optionsRecord o ++ ofString "\n"

end Program

/-- How programs are generated. -/
structure Generator where
  /-- The name that comes before that of the program's module. -/
  nameSpace : String := "Test.Generated"
  /-- The number that goes into every digest. -/
  hashSeed : Int := 8675309
  /-- How many digits of the digest the name holds; a negative number leaves as many out. -/
  hashLength : Int := 16
  deriving DecidableEq, Repr

namespace Generator

/-- The first `length` digits, or all but the last ones for a negative `length`. -/
def cutDigest (length : Int) (digits : List Char) : List Char :=
  if 0 ≤ length then digits.take length.toNat else digits.take (digits.length - length.natAbs)

/-- The text of which a digest is taken. -/
def hashedText (g : Generator) (body : String) : String := toString g.hashSeed ++ "\n" ++ body

/-- The digest of a body as it goes into a name. -/
def contentHash (g : Generator) (body : String) : List Char :=
  cutDigest g.hashLength (Sha256.hexDigest (g.hashedText body).toUTF8.toList)

/-- The name of the module of a program with this body. -/
def programName (g : Generator) (body : String) : String :=
  g.nameSpace ++ ".Main" ++ String.ofList (g.contentHash body)

/-- The program with a body. -/
def programOf (g : Generator) (body : String) : Program :=
  ⟨g.programName body, "module " ++ g.programName body ++ " exposing (main)\n\n" ++ body⟩

/-- The integers that a program is generated from. -/
def integers (g : Generator) (o : RunOptions) : List Int :=
  o.fuzz.toList ++ o.seed.toList ++ [o.processes, g.hashSeed]

/-- A body as it is encoded for its digest. -/
def encodedBody (g : Generator) (body : CodePoints) : Except Fault String :=
  (CodePoints.encode (g.hashedText "").length body).mapError .unencodable

/-- The program that runs the tests, of which every module has to have some. -/
def generate (g : Generator) (tests : NameMap TextSet) (o : RunOptions) : Except Fault Program :=
  if tests.isEmpty then .error .noTests
  else
    let empty := (tests.filter fun _ names => names.isEmpty).keys
    if empty ≠ [] then .error (.modulesWithoutTests empty)
    else if ¬(g.integers o).all IntegerText.isShown then .error .longInteger
    else (g.encodedBody (Program.body (tests.map fun _ names => names.toList) o)).map g.programOf

end Generator

end ElmSuite
