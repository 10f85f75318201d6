import ElmSuite.Header.Exposing
import ElmSuite.InterfaceDump

/-!
# Reconciliation

The tests that the compiler confirms are held against what their modules
expose. Every test of a module is either confirmed or unexposed, and a single
unexposed test keeps the program from being generated.
-/

namespace ElmSuite

/-- The tests of each module, apart by whether the module exposes them. Modules without confirmed
tests, and modules without unexposed ones, are not listed. -/
structure Reconciliation where
  modules : NameMap ModuleTests
  unexposed : NameMap TextSet
  deriving DecidableEq

/-- The tests that are exposed. -/
def confirmedTests (tests : TextSet) (exposing : Exposing) : TextSet :=
  tests.filter fun n => exposing.exposes n

/-- The tests that are not exposed. -/
def unexposedTests (tests : TextSet) (exposing : Exposing) : TextSet :=
  tests.filter fun n => !exposing.exposes n

namespace Reconciliation

/-- Whether every test is exposed. -/
def isOk (r : Reconciliation) : Bool := r.unexposed.isEmpty

/-- The confirmed tests of each module. -/
def testsByModule (r : Reconciliation) : NameMap TextSet := r.modules.map fun _ m => m.tests

/-- A set that is not empty. -/
def nonempty? (names : TextSet) : Option TextSet := if names.isEmpty then none else some names

/-- What a module file exposes; nothing, for a file that was not scanned. -/
def exposingOf (exposed : PathMap Exposing) (file : Path) : Exposing :=
  exposed.getD file (.only ∅)

/-- Holds the tests of modules against what their files expose. All files have to be scanned. -/
def ofModules (compiled : NameMap ModuleTests) (exposed : PathMap Exposing) :
    Except Fault Reconciliation :=
  match compiled.toList.find? fun (_, m) => !exposed.contains m.file with
  | some (_, m) => .error (.notScanned m.file)
  | none =>
    .ok
      { modules := compiled.filterMap fun _ m =>
          (nonempty? (confirmedTests m.tests (exposingOf exposed m.file))).map fun names =>
            { m with tests := names }
        unexposed := compiled.filterMap fun _ m =>
          nonempty? (unexposedTests m.tests (exposingOf exposed m.file)) }

/-- Refuses a reconciliation with unexposed tests. -/
def require (r : Reconciliation) : Except Fault Reconciliation :=
  if r.isOk then .ok r else .error (.problem (.unexposedTests r.unexposed))

end Reconciliation

end ElmSuite
