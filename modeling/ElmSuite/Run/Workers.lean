import ElmSuite.Run.Tool

/-!
# Workers

The compiled program is run by a number of workers at once. All of them are
started before the first is awaited, and the failure of one does not touch the
others. Each is told its number and how many there are; how the tests are shared
out is up to them.
-/

namespace ElmSuite

/-- How a worker ended. -/
structure WorkerResult where
  index : Nat
  exitCode : Int
  /-- What went wrong, as far as it is known. -/
  error : Option String
  deriving DecidableEq, Repr

namespace WorkerResult

/-- Whether a worker ended well. -/
def succeeded (w : WorkerResult) : Bool := w.exitCode = 0

end WorkerResult

namespace Workers

/-- What a worker is told: the program, its number and the number of workers. -/
def arguments (program : Path) (index count : Nat) : List String :=
  [toString program, toString index, toString count]

/-- The result of a worker that could not be started or awaited. -/
def failure (index : Nat) (reason : String) : WorkerResult := ⟨index, -1, some reason⟩

/-- The result of a worker that ended. -/
def ending (index : Nat) (r : ProcessResult) : WorkerResult :=
  let error := Text.trimString r.stderr
  ⟨index, r.exitCode, if error = "" then none else some error⟩

/-- Starts one worker: the result is its process, or its failure. -/
def startOne (tools : Toolbox) (program : Path) (directory : Option Path) (count index : Nat) :
    Action (Except WorkerResult (Nat × Nat)) := do
  match ← tools.start .runtime (arguments program index count) directory with
  | .ok process => return .ok (index, process)
  | .error reason =>
    Action.note .error ("Unable to start test worker " ++ toString index ++ ": " ++ reason)
    return .error (failure index reason)

/-- Waits for one worker that was started. -/
def awaitOne (tools : Toolbox) (index process : Nat) : Action WorkerResult := do
  match ← tools.wait .runtime process with
  | .ended r =>
    unless r.succeeded do
      Action.note .warning
        ("Test worker " ++ toString index ++ " exited with status " ++ toString r.exitCode)
    return ending index r
  | .lost reason | .notStarted reason =>
    Action.note .error ("Lost test worker " ++ toString index ++ ": " ++ reason)
    return failure index reason
  | .garbled flaw => throw (.garbledText flaw)

/-- Settles one worker, which was started or has failed already. -/
def settle (tools : Toolbox) : Except WorkerResult (Nat × Nat) → Action WorkerResult
  | .error failed => return failed
  | .ok (index, process) => awaitOne tools index process

/-- Starts `count` workers on a compiled program and waits for all of them. -/
def dispatch (tools : Toolbox) (count : Nat) (program : Path) (directory : Option Path) :
    Action (List WorkerResult) := do
  let started ← (List.range count).mapM (startOne tools program directory count)
  let running := (started.filter (·.toBool)).length
  Action.note .info ("Started " ++ toString running ++ " test worker(s)")
  started.mapM (settle tools)

end Workers

end ElmSuite
