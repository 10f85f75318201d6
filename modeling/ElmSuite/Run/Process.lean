import ElmSuite.Files.Change
import ElmSuite.Files.Search
import ElmSuite.Run.Tool
import ElmSuite.Text.Line
import ElmSuite.Text.Utf8

/-!
# Processes

A process is started with arguments, in a directory, and with variables besides
those of the environment. It cannot be started where the directory cannot be
entered or the program cannot be executed; the directory is tried first. What it
prints is read as text, in which what is not a character is replaced and all
line ends are the same. A process that is killed prints nothing.

What a program does when it is executed is left to the machine.
-/

namespace ElmSuite

/-- How a process ended. -/
inductive ProcessEnding where
  | exited (code : Nat)
  | signalled (signal : Nat)
  deriving DecidableEq, Repr

/-- What a process did until it ended. -/
structure Execution where
  ending : ProcessEnding
  stdout : List UInt8 := []
  stderr : List UInt8 := []
  deriving DecidableEq, Repr

/-- What executes programs. -/
structure Machine where
  /-- Executes what is at a path, given as text, with its name and arguments and with variables, or
  says why it cannot be executed. -/
  execute : FileSystem → String → List String → List (String × String) →
    Except FileErrorReason Execution

/-- A process to be started. -/
structure ProcessCommand where
  executable : String
  arguments : List String := []
  /-- Variables besides those of the environment. -/
  bindings : List (String × String) := []
  directory : Option Path := none

namespace ProcessCommand

/-- Refuses what no process can be started with. -/
def check (c : ProcessCommand) : Except Fault Unit :=
  if c.bindings.any fun (name, _) => name.toList.contains '=' then .error .invalidVariable
  else
    let texts := c.executable :: c.arguments ++
      c.bindings.flatMap fun (name, value) => [name, value]
    if texts.any (·.toList.contains '\x00') then .error .embeddedNul else .ok ()

/-- Variables with one set, behind the others. -/
def setVariable (values : List (String × String)) (binding : String × String) :
    List (String × String) :=
  values.filter (·.1 ≠ binding.1) ++ [binding]

/-- The variables of the process. -/
def environment (c : ProcessCommand) (inherited : List (String × String)) : List (String × String) :=
  c.bindings.foldl setVariable inherited

/-- The files, with the directory in which the process works. -/
def files (c : ProcessCommand) (fs : FileSystem) : Except Fault FileSystem :=
  match c.directory with
  | some dir => fs.enter dir
  | none => .ok fs

/-- The directories in which programs are looked for where no variable says it. -/
def defaultSearchPath : String := "/bin:/usr/bin"

/-- The paths at which the program is looked for. -/
def places (c : ProcessCommand) (values : List (String × String)) : List String :=
  if c.executable.toList.contains '/' then [c.executable]
  else (splitString ':' ((values.lookup "PATH").getD defaultSearchPath)).map
    (FileSystem.writtenBelow · c.executable)

end ProcessCommand

namespace Machine

/-- Executes the first of some programs that can be. If there is none, the first obstacle counts other
than that a path leads nowhere. -/
def executeFirst (execute : String → Except FileErrorReason Execution) :
    List String → FileErrorReason → Except FileErrorReason Execution
  | [], obstacle => .error obstacle
  | text :: rest, obstacle =>
    match execute text with
    | .ok e => .ok e
    | .error e =>
      executeFirst execute rest (if obstacle = .noEntry ∨ obstacle = .notDirectory then e else obstacle)

/-- Starts a process, and lets it run. -/
def start (m : Machine) (fs : FileSystem) (inherited : List (String × String))
    (c : ProcessCommand) : Except Fault Execution := do
  c.check
  let files ← c.files fs
  let values := c.environment inherited
  let words := c.executable :: c.arguments
  (executeFirst (m.execute files · words values) (c.places values) .noEntry).mapError
    fun e => .file ⟨e, c.executable⟩

end Machine

namespace ProcessResult

/-- The text of what a process printed. -/
def textOf (bytes : List UInt8) : String :=
  String.ofList (Text.unifyLineEnds (Utf8.decodeReplacing bytes))

/-- The exit code of a process: a signal counts below zero. -/
def codeOf : ProcessEnding → Int
  | .exited n => n
  | .signalled n => -n

/-- What a process left behind. -/
def ofExecution (e : Execution) : ProcessResult :=
  ⟨codeOf e.ending, textOf e.stdout, textOf e.stderr⟩

/-- What a process left behind that was killed right after its start. -/
def killed : ProcessResult := ofExecution { ending := .signalled 9 }

end ProcessResult

end ElmSuite
