import ElmSuite.CommandLine.Arguments
import ElmSuite.CommandLine.LogFile
import ElmSuite.Project.Project
import ElmSuite.Project.TestFiles
import ElmSuite.Run.Locate
import ElmSuite.Run.Pipeline
import ElmSuite.Settings.Environment

/-!
# The command

The command reads its arguments and settings, finds the project around the
working directory, gathers the test files and runs them. It ends with a status:
0 when all went well, 2 when workers failed, 1 after any other problem, which it
reports. Only faults that have no report get out of it.
-/

namespace ElmSuite

/-- Where and how the command is called. -/
structure Invocation where
  /-- The words after the name of the command. -/
  words : List String
  /-- The environment variables. -/
  bindings : Variables
  /-- What adds to them from a file. -/
  variableSource : VariableSource
  /-- The name by which the command was called. -/
  executable : String
  /-- The files, with the working directory. -/
  files : FileSystem
  /-- The home directories of users. -/
  homeOf : String → Option String
  /-- The number of processors, zero where it is not known. -/
  processors : Nat
  /-- Whether the output goes to a terminal. -/
  terminal : Bool
  /-- What the tools do. -/
  outcome : ToolRole → Nat → ToolOutcome
  /-- How the tasks beside a build get done. -/
  schedule : Schedule := .buildFirst

/-- What a command comes to. -/
structure CommandOutcome where
  /-- The exit status, or the fault that got out. -/
  status : Except Fault Nat
  stdout : String := ""
  stderr : String := ""
  /-- The executables of the tools, once they are known. -/
  executables : Option (ToolRole → String) := none
  /-- What the run did. -/
  history : List RunEvent := []
  /-- The files afterwards. -/
  files : FileSystem

namespace Command

/-- The name of the command. -/
def name : String := "elm-test-runner"

/-- The name and the version of the command. -/
def nameAndVersion : String := name ++ " 0.1.0"

/-- What is printed before a report for people. -/
def headline : String :=
  "\n" ++ nameAndVersion ++ "\n" ++ String.ofList (nameAndVersion.toList.map fun _ => '-') ++ "\n\n"

/-- The exit status after a problem. -/
def problemStatus : Problem → Nat
  | .workerFailures .. => 2
  | _ => 1

/-- The arguments and settings of a run, once they are checked. -/
structure Plan where
  fuzz : Option Int
  seed : Option Int
  workers : Int
  compiler : String

/-- The path and home directories that variables give. -/
def surroundings (i : Invocation) (bindings : Variables) : Surroundings :=
  ⟨(bindings "PATH").getD "/bin:/usr/bin", (bindings "HOME").getD "/", i.homeOf⟩

/-- Reads an optional integer argument. -/
def readInteger (flag : String) (value : Option String) (positive : Bool) :
    Except Problem (Option Int) :=
  value.mapM fun v => IntegerText.read flag v positive

/-- The number of workers that is left to the machine: one for each processor. -/
def defaultWorkers (i : Invocation) : Int := if i.processors = 0 then 1 else i.processors

/-- Checks the arguments, in this order: the number of fuzz runs, the seed, the number of workers and
the compiler. What they leave open the settings say. -/
def plan (i : Invocation) (fs : FileSystem) (s : Surroundings) (settings : Settings)
    (a : Arguments) : Except Fault Plan := do
  let fuzz ← (readInteger "--fuzz" a.fuzz true).mapError Fault.problem
  let seed ← (readInteger "--seed" a.seed false).mapError Fault.problem
  let workers ← (readInteger "--workers" a.workers true).mapError Fault.problem
  let compiler ← Compiler.locate fs s ((a.compiler.filter (· ≠ "")).getD settings.compiler)
  return ⟨fuzz, seed, (workers.or settings.workers).getD (defaultWorkers i), compiler⟩

/-- Adds a record to the log, and to the log file if there is one. -/
def note (file : Option LogFile) (r : LogRecord) : Action Unit :=
  Action.change fun s =>
    { s.note [r] with files := file.elim s.files fun f => f.add s.files r }

/-- Enters the project around the working directory, loads it and gathers the test files that the
paths stand for, of which there has to be one. -/
def openProject (file : Option LogFile) (paths : List String) : Action (Project × PathSet) := do
  let here ← Action.lift ((← get).files.currentDirectory.mapError Fault.problem)
  let root ← Action.lift (Project.findRoot (← get).files here)
  let entered ← Action.lift (Project.enterRoot (← get).files root)
  Action.change fun s => { s with files := entered }
  note file ⟨.debug, "Changed working directory to " ++ toString root⟩
  let project ← Action.lift (Project.load (← get).files root)
  note file project.loadedNote
  let files ← Action.lift (TestFiles.gather (← get).files paths root here)
  note file (TestFiles.foundNote files)
  if files.isEmpty then Action.fail (.noTestFiles paths)
  return (project, files)

/-- The interface dump tool: the one that is set, or the one beside the command. -/
def dumpTool (i : Invocation) (s : Surroundings) (settings : Settings) : Action String := do
  match settings.interfaceDump with
  | some text => return text
  | none =>
    let path ← Action.lift (Dump.locate (← get).files s i.executable Dump.programName)
    return toString path

/-- The tools of a run. -/
def toolbox (i : Invocation) (executables : ToolRole → String) : Toolbox :=
  fun role => ⟨executables role, i.outcome role⟩

/-- The executables of the tools. -/
def executables (compiler dump runtime : String) : ToolRole → String
  | .compiler => compiler
  | .dump => dump
  | .runtime => runtime

/-- The run that a command makes in a project. -/
def pipeline (i : Invocation) (project : Project) (workers : Int) (names : ToolRole → String) :
    Pipeline :=
  { root := project.root, sourceDirs := project.sourceDirs, tools := toolbox i names
    manifest := some (project.generatedManifest ⟨project.root⟩), workers := workers.toNat
    schedule := i.schedule }

/-- The options that a command gives to its run. -/
def runOptions (i : Invocation) (a : Arguments) (p : Plan) : RunOptions :=
  { fuzz := p.fuzz, seed := p.seed, processes := p.workers, report := a.report
    useColor := !a.noColor && i.terminal, paths := a.paths.map .ofString }

/-- A result of a run in which no worker failed. -/
def requireWorkers (r : RunResult) : Except Fault Unit :=
  if r.failedWorkers = [] then .ok ()
  else .error (.problem
    (.workerFailures (r.failedWorkers.map Int.ofNat) (Int.ofNat r.workers.length)))

/-- How far a command got. -/
structure Course where
  result : Except Fault Unit
  /-- Whether the headline was printed. -/
  announced : Bool := false
  executables : Option (ToolRole → String) := none
  session : Session

/-- What the command does once the log is open. -/
def course (i : Invocation) (bindings : Variables) (settings : Settings) (a : Arguments)
    (file : Option LogFile) (start : Session) : Course :=
  let s := surroundings i bindings
  match plan i start.files s settings a with
  | .error e => ⟨.error e, false, none, start⟩
  | .ok p =>
    match (openProject file a.paths).run start with
    | (.error e, session) => ⟨.error e, false, none, session⟩
    | (.ok (project, files), session) =>
      let announced := !a.report.isMachineReadable
      match (dumpTool i s settings).run session with
      | (.error e, session) => ⟨.error e, announced, none, session⟩
      | (.ok dump, session) =>
        let names := executables p.compiler dump settings.runtime
        let run := (pipeline i project p.workers names).run files (runOptions i a p)
          (a.paths ≠ []) session
        ⟨run.1.bind requireWorkers, announced, some names, run.2⟩

/-- The record that is made when a problem ends a command. -/
def endNote : Problem → LogRecord
  | p@(.workerFailures ..) => ⟨.warning, p.message⟩
  | _ => ⟨.debug, "Run aborted"⟩

/-- The report on a problem, where the log does not say it already. -/
def report : Problem → String
  | .workerFailures .. => ""
  | p => "Error: " ++ p.message ++ "\n"

/-- The outcome of a command that came to an end before the log was open. -/
def endedEarly (i : Invocation) : Fault → CommandOutcome
  | .problem p => { status := .ok (problemStatus p), stderr := report p, files := i.files }
  | e => { status := .error e, files := i.files }

/-- The outcome of a course. `console` is the least level of the records that are shown, `before` the
files when the log was opened. -/
def outcome (c : Course) (console : LogLevel) (file : Option LogFile) (before : FileSystem) :
    CommandOutcome :=
  let ending : List LogRecord := match c.result with
    | .error (.problem p) => [endNote p]
    | _ => []
  let session := c.session.note ending
  { status := match c.result with
      | .ok _ => .ok 0
      | .error (.problem p) => .ok (problemStatus p)
      | .error e => .error e
    stdout := if c.announced then headline else ""
    stderr := logText (recordsFrom console session.log) ++ match c.result with
      | .error (.problem p) => report p
      | _ => ""
    executables := c.executables
    history := session.history
    files := match file with
      | some f => f.keep before session.history
      | none => session.files }

/-- The levels of the records that are kept and of those that are shown. -/
def levels (a : Arguments) : LogLevel × LogLevel :=
  if a.verbose then (.debug, .debug) else (.info, .warning)

/-- A log file that is opened if one is set. -/
def openLog (fs : FileSystem) (level : LogLevel) :
    Option Path → Except Fault (FileSystem × Option LogFile)
  | none => .ok (fs, none)
  | some path => (LogFile.opened fs path level).map fun (fs, file) => (fs, some file)

/-- The command on arguments that make sense. -/
def run (i : Invocation) (a : Arguments) : CommandOutcome :=
  match i.variableSource.read i.files i.bindings with
  | .error e => endedEarly i e
  | .ok bindings =>
    match Settings.ofVariables bindings with
    | .error p => endedEarly i (.problem p)
    | .ok settings =>
      let (kept, shown) := levels a
      match openLog i.files kept settings.logFile with
      | .error e => endedEarly i e
      | .ok (fs, file) =>
        outcome (course i bindings settings a file { files := fs }) shown file fs

end Command

/-- The command. -/
def Invocation.run (i : Invocation) : CommandOutcome :=
  match Arguments.read i.words with
  | .error .help => { status := .ok 0, files := i.files }
  | .error .version => { status := .ok 0, stdout := Command.nameAndVersion ++ "\n", files := i.files }
  | .error .misuse => { status := .ok 2, files := i.files }
  | .ok a => Command.run i a

end ElmSuite
