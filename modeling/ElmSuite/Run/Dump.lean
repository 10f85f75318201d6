import ElmSuite.InterfaceDump
import ElmSuite.Run.Tool

/-!
# Dumping interfaces

The interface dump tool is started once for a whole project. What it prints
counts, and not how it ends: a bad exit status is noted in the log only.
-/

namespace ElmSuite.Dump

/-- What the dump tool is told. -/
def arguments (root : Path) : List String := ["--path", toString root]

/-- The warning that the dump tool ended badly. -/
def exitWarning (executable : String) (r : ProcessResult) : String :=
  executable ++ " exited with status " ++ toString r.exitCode ++ ": " ++ Text.trimString r.stderr

/-- Reads the tests of the modules in a table from the dump of the project at `root`. -/
def readTests (tools : Toolbox) (root : Path) (table : NameMap Path) (testType : String) :
    Action (NameMap ModuleTests) := do
  let executable := (tools .dump).executable
  match ← tools.start .dump (arguments root) (some root) with
  | .error _ => Action.fail (.dumpNotStarted executable)
  | .ok process =>
    match ← tools.wait .dump process with
    | .ended r =>
      unless r.succeeded do Action.note .warning (exitWarning executable r)
      let records ← Action.lift (InterfaceDump.read r.stdout)
      let tests := InterfaceDump.collect table testType records
      Action.note .info ("Interface dump reported " ++ toString tests.size ++
        " module(s) with top-level tests")
      return tests
    | _ => Action.fail .unreadableDump

end ElmSuite.Dump
