import ElmSuite.Fault
import ElmSuite.Files.Lookup
import ElmSuite.Log

/-!
# External tools

A run starts three tools: the compiler, the interface dump tool and the runtime
that executes compiled tests. What a start leads to is up to the tool, and may
differ from start to start. A session keeps the history of what a run does to
the tools, the files and the log, in order.
-/

namespace ElmSuite

/-- What a process left behind when it ended. -/
structure ProcessResult where
  exitCode : Int := -1
  stdout : String := ""
  stderr : String := ""
  deriving DecidableEq, Repr

/-- Whether a process ended well. -/
def ProcessResult.succeeded (r : ProcessResult) : Bool := r.exitCode = 0

/-- What one start of a tool leads to. -/
inductive ToolOutcome where
  /-- The tool cannot be started. -/
  | notStarted (reason : String)
  /-- The process cannot be awaited. -/
  | lost (reason : String)
  /-- What the process printed is not text. -/
  | garbled (flaw : Utf8.Flaw)
  /-- The process ended. -/
  | ended (result : ProcessResult)
  deriving DecidableEq, Repr

/-- The parts that tools play. -/
inductive ToolRole where
  | compiler
  | dump
  | runtime
  deriving DecidableEq, Repr

/-- Whether the output of a tool is read by the run, and not left to the terminal. -/
def ToolRole.isCaptured : ToolRole → Bool
  | .compiler | .dump => true
  | .runtime => false

/-- A tool: its name, and what each of its starts leads to, counted from zero. -/
structure Tool where
  executable : String
  outcome : Nat → ToolOutcome

/-- The tools of a run. -/
abbrev Toolbox := ToolRole → Tool

/-- What a run does. A process is named by the number of its start. -/
inductive RunEvent where
  /-- A tool is started, be it in vain. -/
  | start (role : ToolRole) (arguments : List String) (directory : Option Path)
  /-- A process is awaited. -/
  | wait (role : ToolRole) (process : Nat)
  /-- A process is killed. -/
  | kill (role : ToolRole) (process : Nat)
  /-- A file was written. -/
  | wrote (path : Path) (text : String)
  /-- The log got a record. -/
  | note (record : LogRecord)
  deriving DecidableEq, Repr

/-- The stages of a run. -/
inductive Stage where
  | start
  | buildingAndScanning
  | reconciling
  | generating
  | dispatching
  | done
  | aborted
  deriving DecidableEq, Repr

/-- What a run has done so far, and the stage that it is in. -/
structure Session where
  files : FileSystem
  history : List RunEvent := []
  stage : Stage := .start
  /-- Why the latest run ended early. -/
  abortReason : Option Fault := none

/-- A part of a run: it changes the session, and may end the run early. -/
abbrev Action := ExceptT Fault (StateM Session)

namespace Stage

/-- The name of a stage. -/
def name : Stage → String
  | start => "start"
  | buildingAndScanning => "building_and_scanning"
  | reconciling => "reconciling"
  | generating => "generating"
  | dispatching => "dispatching"
  | done => "done"
  | aborted => "aborted"

end Stage

namespace RunEvent

/-- Whether an event is a start of the tool in a role. -/
def isStartOf (role : ToolRole) : RunEvent → Bool
  | start r _ _ => r = role
  | _ => false

/-- Whether an event is a kill of a process of the tool in a role. -/
def isKillOf (role : ToolRole) : RunEvent → Bool
  | kill r _ => r = role
  | _ => false

/-- The record that an event adds to the log. -/
def record? : RunEvent → Option LogRecord
  | note r => some r
  | _ => none

end RunEvent

namespace Session

/-- The log that a run has made. -/
def log (s : Session) : List LogRecord := s.history.filterMap RunEvent.record?

/-- How often the tool in a role was started. -/
def starts (s : Session) (role : ToolRole) : Nat := s.history.countP (RunEvent.isStartOf role)

/-- How often a process of the tool in a role was killed. -/
def kills (s : Session) (role : ToolRole) : Nat := s.history.countP (RunEvent.isKillOf role)

/-- A session in which more has happened. -/
def record (s : Session) (events : List RunEvent) : Session :=
  { s with history := s.history ++ events }

/-- A session with more records in its log. -/
def note (s : Session) (records : List LogRecord) : Session := s.record (records.map .note)

@[simp] theorem history_record (s : Session) (es : List RunEvent) :
    (s.record es).history = s.history ++ es := rfl
@[simp] theorem files_record (s : Session) (es : List RunEvent) : (s.record es).files = s.files := rfl
@[simp] theorem files_note (s : Session) (r : List LogRecord) : (s.note r).files = s.files := rfl

@[simp] theorem log_note (s : Session) (r : List LogRecord) : (s.note r).log = s.log ++ r := by
  have h : ∀ r : List LogRecord, (r.map RunEvent.note).filterMap RunEvent.record? = r := by
    intro r
    induction r with
    | nil => rfl
    | cons x rest ih => simp [RunEvent.record?, ih]
  simp [log, note, h]

/-- Records change no count of starts. -/
@[simp] theorem starts_note (s : Session) (r : List LogRecord) (role : ToolRole) :
    (s.note r).starts role = s.starts role := by
  have h : (r.map RunEvent.note).countP (RunEvent.isStartOf role) = 0 := by
    simp [List.countP_eq_zero, RunEvent.isStartOf]
  simp [starts, note, h]

end Session

namespace Action

/-- Does to the session what cannot fail. -/
def change (f : Session → Session) : Action Unit := modify f

/-- Adds a record to the log. -/
def note (level : LogLevel) (message : String) : Action Unit := change (·.note [⟨level, message⟩])

/-- Ends the run early with a problem. -/
def fail {α : Type} (p : Problem) : Action α := throw (.problem p)

/-- Goes on with a value, or ends the run early. -/
def lift {α : Type} (r : Except Fault α) : Action α := liftExcept r

end Action

namespace Toolbox

/-- Starts a tool. The result is the number of the process, or why there is none. -/
def start (tools : Toolbox) (role : ToolRole) (arguments : List String) (directory : Option Path) :
    Action (Except String Nat) := do
  let n := (← get).starts role
  Action.change (·.record [.start role arguments directory])
  match (tools role).outcome n with
  | .notStarted reason => return .error reason
  | _ => return .ok n

/-- Waits for a process. -/
def wait (tools : Toolbox) (role : ToolRole) (process : Nat) : Action ToolOutcome := do
  Action.change (·.record [.wait role process])
  return (tools role).outcome process

end Toolbox

end ElmSuite
