import ElmSuite.Names
import ElmSuite.Run.Tool

/-!
# Compiling

The compiler is used twice in a run: to build the test files, for the interfaces
it leaves behind, and to compile the generated program.
-/

namespace ElmSuite.Compiler

/-- What a build is told before its files: to produce no output. -/
def buildArguments : List String := ["make", "--output=/dev/null"]

/-- What the outcome of a compiler process means. -/
def verdict : ToolOutcome → Except Fault Unit
  | .ended r =>
    if r.succeeded then .ok ()
    else .error (.problem (.compilationFailed r.exitCode r.stdout r.stderr))
  | .lost _ | .notStarted _ => .error (.problem .unreadableCompilerOutput)
  | .garbled flaw => .error (.garbledText flaw)

/-- Starts the compiler. -/
def start (tools : Toolbox) (arguments : List String) (directory : Path) : Action Nat := do
  match ← tools.start .compiler arguments (some directory) with
  | .ok process => return process
  | .error _ => Action.fail (.compilerNotStarted (tools .compiler).executable)

/-- Starts a build of test files. -/
def startBuild (tools : Toolbox) (arguments : List String) (files : PathSet) (root : Path) :
    Action Nat :=
  start tools (arguments ++ files.toList.map toString) root

/-- Compiles a program to `output`. -/
def compileProgram (tools : Toolbox) (source output directory : Path) : Action Path := do
  let process ← start tools ["make", toString source, "--output=" ++ toString output] directory
  Action.lift (verdict (← tools.wait .compiler process))
  return output

end ElmSuite.Compiler
