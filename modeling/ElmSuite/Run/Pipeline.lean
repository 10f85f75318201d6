import ElmSuite.Project.Manifest
import ElmSuite.Program.Generator
import ElmSuite.Reconciliation
import ElmSuite.Run.Compiler
import ElmSuite.Run.Dump
import ElmSuite.Run.Join
import ElmSuite.Run.Workers

/-!
# The course of a run

A run goes through its stages in order: it builds and scans the test files,
holds the tests of the build against what the files expose, generates a program,
and has it compiled and executed. Nothing is written before the program is
generated. A run that ends early is aborted for a reason that is kept.
-/

namespace ElmSuite

/-- What a run works with. -/
structure Pipeline where
  /-- The root of the project. -/
  root : Path
  /-- The source directories of the project. -/
  sourceDirs : List Path
  tools : Toolbox
  /-- What a build is told before its files. -/
  buildArguments : List String := Compiler.buildArguments
  /-- The type of a test suite. -/
  testType : String := InterfaceDump.testType
  generator : Generator := {}
  /-- The manifest to write for the generated program; without one the program is compiled as a part
  of the project. -/
  manifest : Option (List (CodePoints × JsonValue)) := none
  /-- The number of workers. -/
  workers : Nat
  /-- How the tasks beside the build get done. -/
  schedule : Schedule := .buildFirst

/-- What was found out about the tests of a project. -/
structure Discovery where
  reconciliation : Reconciliation
  program : Program
  deriving DecidableEq

/-- What came of a whole run. -/
structure RunResult where
  discovery : Discovery
  /-- Where the program was written. -/
  programFile : Path
  workers : List WorkerResult
  deriving DecidableEq

namespace RunResult

/-- The numbers of the workers that failed. -/
def failedWorkers (r : RunResult) : List Nat :=
  (r.workers.filter (!·.succeeded)).map (·.index)

end RunResult

namespace Pipeline

/-- The record of what a scan gave. -/
def scannedNote (file : Path) (exposing : Exposing) : LogRecord :=
  let shown := match exposing with
    | .everything => "exposing (..)"
    | .only names => Text.quotedList names.toList
  ⟨.debug, "Scanned " ++ toString file ++ ": " ++ shown⟩

/-- The record of the way from one stage to another. -/
def stageNote (before after : Stage) : LogRecord :=
  ⟨.info, "Pipeline stage: " ++ before.name ++ " -> " ++ after.name⟩

/-- Goes on to a stage. -/
def enterStage (stage : Stage) : Action Unit :=
  Action.change fun s => { s.note [stageNote s.stage stage] with stage := stage }

variable (p : Pipeline)

/-- The places of the generated files. -/
def layout : Layout := ⟨p.root⟩

/-- The records that a task makes when it completes. -/
def taskLog (o : BuildOutcomes) (files : PathSet) : BuildTask → List LogRecord
  | .build => match o.build with
    | .ok _ => [⟨.info, "Compiled test files"⟩]
    | .error _ => []
  | .table => moduleTableLog files p.sourceDirs
  | .scan file => match o.scan file with
    | .ok exposing => [scannedNote file exposing]
    | .error _ => []

/-- How often a build is killed when the run wakes up to a failed task. -/
def killCount : BuildTask → Nat
  | .scan _ => 2
  | _ => 1

/-- What the files expose, for outcomes without a fault. -/
def exposedFiles (o : BuildOutcomes) (files : PathSet) : PathMap Exposing :=
  Std.ExtTreeMap.ofList (files.toList.filterMap fun file => match o.scan file with
    | .ok exposing => some (file, exposing)
    | .error _ => none)

/-- Builds and scans the test files. The result is the module table and what each file exposes. A
build that is still awaited when another task fails is killed. -/
def buildAndScan (files : PathSet) : Action (NameMap Path × PathMap Exposing) := do
  let process ← Compiler.startBuild p.tools p.buildArguments files p.root
  let outcome ← p.tools.wait .compiler process
  let fs := (← get).files
  let o : BuildOutcomes := ⟨Compiler.verdict outcome, Source.exposing fs⟩
  let completed := p.schedule.completed o files.toList
  Action.change (·.note (completed.flatMap (p.taskLog o files)))
  match o.culprit? completed with
  | some culprit =>
    Action.change (·.record (List.replicate (killCount culprit) (.kill .compiler process)))
    match o.fault? culprit with
    | some fault => throw fault
    | none => return (moduleTable files p.sourceDirs, exposedFiles o files)
  | none => return (moduleTable files p.sourceDirs, exposedFiles o files)

/-- Finds out the tests of a project and generates the program that runs them. -/
def discoverTests (files : PathSet) (options : RunOptions) (anyArguments : Bool) :
    Action Discovery := do
  enterStage .buildingAndScanning
  let (table, exposed) ← p.buildAndScan files
  let compiled ← Dump.readTests p.tools p.root table p.testType
  enterStage .reconciling
  let found ← Action.lift (Reconciliation.ofModules compiled exposed)
  let reconciliation ← Action.lift found.require
  if reconciliation.modules.isEmpty then Action.fail (.noExposedTests anyArguments)
  enterStage .generating
  let program ← Action.lift (p.generator.generate reconciliation.testsByModule options)
  Action.note .info ("Generated " ++ program.moduleName ++ " with " ++
    toString reconciliation.modules.size ++ " test module(s)")
  return ⟨reconciliation, program⟩

/-- Writes a file, in a directory that is made if need be. -/
def writeFile (path : Path) (text : String) : Action Unit := do
  match (← get).files.writeTextWithParents path text with
  | .ok files => Action.change fun s => { s with files := files }.record [.wrote path text]
  | .error (.file _) => Action.fail (.generatedNotWritten path)
  | .error e => throw e

/-- Writes the generated files, compiles the program and has the workers execute it. The result is
where the program was written, and how the workers ended. -/
def execute (program : Program) : Action (Path × List WorkerResult) := do
  enterStage .dispatching
  let layout := p.layout
  let programFile := layout.programFile program.moduleName
  let directory ← match p.manifest with
    | none => pure p.root
    | some fields => do
      writeFile layout.manifest (Manifest.text fields)
      pure layout.directory
  writeFile programFile program.source
  let compiled ← Compiler.compileProgram p.tools programFile layout.compiledProgram directory
  let workers ← Workers.dispatch p.tools p.workers compiled (some p.root)
  return (programFile, workers)

/-- The record that a run was aborted. -/
def abortNote (stage : Stage) (reason : Fault) : LogRecord :=
  ⟨.debug, "Pipeline aborted during " ++ stage.name ++ ": " ++ reason.message?.getD ""⟩

/-- Does an action as a whole run: it ends in the stage `done`, or is aborted. -/
def asRun {α : Type} (action : Action α) (s : Session) : Except Fault α × Session :=
  match action.run s with
  | (.ok a, after) => (.ok a, ((enterStage .done).run after).2)
  | (.error e, after) =>
    (.error e,
      { after.note [abortNote after.stage e] with stage := .aborted, abortReason := some e })

/-- Only finds out the tests: nothing is written and no worker is started. -/
def discover (files : PathSet) (options : RunOptions) (anyArguments : Bool) (s : Session) :
    Except Fault Discovery × Session :=
  asRun (p.discoverTests files options anyArguments) s

/-- A whole run on test files. -/
def run (files : PathSet) (options : RunOptions) (anyArguments : Bool) (s : Session) :
    Except Fault RunResult × Session :=
  asRun (do
    let discovery ← p.discoverTests files options anyArguments
    let (programFile, workers) ← p.execute discovery.program
    return ⟨discovery, programFile, workers⟩) s

end Pipeline

end ElmSuite
