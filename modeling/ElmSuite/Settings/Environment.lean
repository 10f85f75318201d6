import ElmSuite.Fault
import ElmSuite.Files.Lookup
import ElmSuite.Settings.Integer

/-!
# Settings from the environment

The tools and other settings that environment variables name. An empty variable
counts as one that is not set. Variables may be added from a file before the
settings are read. How such a file is found and what it may hold is left open;
reading it can fail, but not with a problem that a run reports.
-/

namespace ElmSuite

/-- The variables that are set. -/
abbrev Variables := String → Option String

/-- What adds the variables of a file to those that are set. -/
structure VariableSource where
  /-- The variables that are set once the file was read, if there is one. -/
  read : FileSystem → Variables → Except Fault Variables
  /-- Problems are those of a run, of which the source knows nothing. -/
  noProblem : ∀ fs bindings p, read fs bindings ≠ .error (.problem p)

/-- The source that finds no file. -/
def VariableSource.none : VariableSource where
  read _ bindings := .ok bindings
  noProblem := nofun

/-- What the environment settles. -/
structure Settings where
  /-- The compiler. -/
  compiler : String := "elm"
  /-- The program that runs compiled tests. -/
  runtime : String := "node"
  /-- The interface dump tool, if it is not the one beside the running executable. -/
  interfaceDump : Option String := none
  /-- The number of workers, if it is not left to the machine. -/
  workers : Option Int := none
  /-- The log file, if there is one. -/
  logFile : Option Path := none
  deriving DecidableEq, Repr

namespace Settings

/-- The variable of the number of workers. -/
def workersVariable : String := "ELM_TEST_WORKERS"

/-- Reads the settings from the variables that `lookup` knows. -/
def ofVariables (lookup : Variables) : Except Problem Settings :=
  let filled (name : String) : Option String := (lookup name).filter (· ≠ "")
  let settings : Settings :=
    { compiler := (filled "ELM_TEST_COMPILER").getD "elm"
      runtime := (filled "ELM_TEST_RUNTIME").getD "node"
      interfaceDump := filled "ELM_TEST_INTERFACE_DUMP"
      logFile := (filled "ELM_TEST_LOG_FILE").map Path.ofString }
  match filled workersVariable with
  | none => .ok settings
  | some value =>
    (IntegerText.read workersVariable value true).map fun n => { settings with workers := some n }

end Settings

end ElmSuite
