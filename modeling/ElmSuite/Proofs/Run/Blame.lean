import ElmSuite.Proofs.Blame
import ElmSuite.Proofs.Run.Abort

/-!
# No part of a run blames the workers

A run that is aborted is aborted for another reason than that workers failed: the failure
of a worker goes into its result, and is no fault of the run.
-/

namespace ElmSuite

/-- Whether an action does not fail because of workers. -/
abbrev Action.SparesWorkers {α : Type} (x : Action α) : Prop := Action.Keeps (fun _ => ()) x

namespace Action.SparesWorkers

theorem change (f : Session → Session) : SparesWorkers (Action.change f) :=
  Keeps.change fun _ => rfl

theorem note (level : LogLevel) (message : String) : SparesWorkers (Action.note level message) :=
  change _

theorem start (tools : Toolbox) (role : ToolRole) (arguments : List String)
    (directory : Option Path) : SparesWorkers (tools.start role arguments directory) := by
  refine Keeps.get.bind fun s => (change _).bind fun _ => ?_
  split
  · exact .pure _
  · exact .pure _

theorem wait (tools : Toolbox) (role : ToolRole) (process : Nat) :
    SparesWorkers (tools.wait role process) := (change _).bind fun _ => .pure _

end Action.SparesWorkers

open ElmSuite.Action (Keeps SparesWorkers)

/-! ## Building, scanning and dumping -/

theorem Compiler.blamesNoWorker_verdict (outcome : ToolOutcome) :
    BlamesNoWorker (verdict outcome) := by
  cases outcome with
  | ended r =>
    rw [verdict]
    split
    · exact .ok _
    · exact .error rfl
  | _ => exact .error rfl

theorem Compiler.sparesWorkers_start (tools : Toolbox) (arguments : List String)
    (directory : Path) : SparesWorkers (start tools arguments directory) := by
  refine (SparesWorkers.start _ _ _ _).bind fun started => ?_
  cases started with
  | ok process => exact .pure _
  | error reason => exact .fail rfl

theorem Compiler.sparesWorkers_compileProgram (tools : Toolbox) (source output directory : Path) :
    SparesWorkers (compileProgram tools source output directory) :=
  (sparesWorkers_start _ _ _).bind fun _ => (SparesWorkers.wait _ _ _).bind fun outcome =>
    (Keeps.lift (blamesNoWorker_verdict outcome)).bind fun _ => .pure _

theorem Source.blamesNoWorker_exposing (fs : FileSystem) (file : Path) :
    BlamesNoWorker (exposing fs file) := by
  rw [exposing]
  split
  · exact .error rfl
  · next e he => exact (fs.blamesNoWorker_read file).of_eq_error he
  · refine .mapError (fun fault => ?_) _
    cases fault with
    | undecodable => rfl
    | header fault => cases fault <;> rfl

theorem InterfaceDump.blamesNoWorker_read (stdout : String) : BlamesNoWorker (read stdout) := by
  rw [read]
  split
  · exact .error rfl
  · split
    · exact .error rfl
    · exact .error rfl
    · split
      · exact .ok _
      · exact .error rfl
    · exact .error rfl

theorem Dump.sparesWorkers_collectTests (table : NameMap Path) (testType stdout : String) :
    SparesWorkers (collectTests table testType stdout) :=
  (Keeps.lift (InterfaceDump.blamesNoWorker_read stdout)).bind fun _ =>
    (SparesWorkers.note _ _).bind fun _ => .pure _

theorem Dump.sparesWorkers_readTests (tools : Toolbox) (root : Path) (table : NameMap Path)
    (testType : String) : SparesWorkers (readTests tools root table testType) := by
  refine (SparesWorkers.start _ _ _ _).bind fun started => ?_
  cases started with
  | error reason => exact .fail rfl
  | ok process =>
    refine (SparesWorkers.wait _ _ _).bind fun outcome => ?_
    cases outcome with
    | ended r =>
      have hread := sparesWorkers_collectTests table testType r.stdout
      dsimp only
      split
      · exact hread
      · exact (SparesWorkers.note _ _).bind fun _ => hread
    | _ => exact .fail rfl

theorem Reconciliation.blamesNoWorker_ofModules (compiled : NameMap ModuleTests)
    (exposed : PathMap Exposing) : BlamesNoWorker (ofModules compiled exposed) := by
  rw [ofModules]
  split
  · exact .error rfl
  · exact .ok _

theorem Reconciliation.blamesNoWorker_require (r : Reconciliation) : BlamesNoWorker r.require := by
  rw [require]
  split
  · exact .ok _
  · exact .error rfl

theorem Generator.blamesNoWorker_generate (g : Generator) (tests : NameMap TextSet)
    (o : RunOptions) : BlamesNoWorker (g.generate tests o) := by
  rw [generate]
  split
  · exact .error rfl
  · dsimp only
    split
    · exact .error rfl
    · split
      · exact .error rfl
      · exact .map (.mapError (fun _ => rfl) _) _

/-! ## Workers -/

namespace Workers

theorem sparesWorkers_startOne (tools : Toolbox) (program : Path) (directory : Option Path)
    (count index : Nat) : SparesWorkers (startOne tools program directory count index) := by
  refine (SparesWorkers.start _ _ _ _).bind fun started => ?_
  cases started with
  | ok process => exact .pure _
  | error reason => exact (SparesWorkers.note _ _).bind fun _ => .pure _

theorem sparesWorkers_settle (tools : Toolbox) (started : Except WorkerResult (Nat × Nat)) :
    SparesWorkers (settle tools started) := by
  cases started with
  | error failed => exact .pure _
  | ok started =>
    refine (SparesWorkers.wait _ _ _).bind fun outcome => ?_
    cases outcome with
    | ended r =>
      dsimp only
      split
      · exact .pure _
      · exact (SparesWorkers.note _ _).bind fun _ => .pure _
    | lost reason => exact (SparesWorkers.note _ _).bind fun _ => .pure _
    | notStarted reason => exact (SparesWorkers.note _ _).bind fun _ => .pure _
    | garbled flaw => exact .throw rfl

/-- Workers that fail do not keep the run from its end. -/
theorem sparesWorkers_dispatch (tools : Toolbox) (count : Nat) (program : Path)
    (directory : Option Path) : SparesWorkers (dispatch tools count program directory) :=
  (Keeps.mapM (sparesWorkers_startOne tools program directory count) _).bind fun _ =>
    (SparesWorkers.note _ _).bind fun _ => .mapM (sparesWorkers_settle tools) _

end Workers

/-! ## Whole runs -/

theorem BuildOutcomes.blamesWorkers_of_fault? {o : BuildOutcomes} (hbuild : BlamesNoWorker o.build)
    (hscan : ∀ file, BlamesNoWorker (o.scan file)) {t : BuildTask} {e : Fault}
    (h : o.fault? t = some e) : e.blamesWorkers = false := by
  cases t with
  | table => cases h
  | build =>
    rw [fault?] at h
    split at h
    · cases h
    · next e' he =>
      cases h
      exact hbuild e he
  | scan file =>
    rw [fault?] at h
    split at h
    · cases h
    · next e' he =>
      cases h
      exact hscan file e he

namespace Pipeline

variable (p : Pipeline)

theorem sparesWorkers_enterStage (stage : Stage) : SparesWorkers (enterStage stage) := SparesWorkers.change _

theorem sparesWorkers_buildAndScan (files : PathSet) : SparesWorkers (p.buildAndScan files) := by
  refine (Compiler.sparesWorkers_start _ _ _).bind fun process => (SparesWorkers.wait _ _ _).bind
    fun outcome => Keeps.get.bind fun s => (SparesWorkers.change _).bind fun _ => ?_
  split
  · refine (SparesWorkers.change _).bind fun _ => ?_
    split
    · next hfault =>
      exact .throw (BuildOutcomes.blamesWorkers_of_fault? (Compiler.blamesNoWorker_verdict outcome)
        (Source.blamesNoWorker_exposing s.files) hfault)
    · exact .pure _
  · exact .pure _

theorem sparesWorkers_generateFor (options : RunOptions) (r : Reconciliation) :
    SparesWorkers (p.generateFor options r) :=
  (sparesWorkers_enterStage _).bind fun _ =>
    (Keeps.lift (p.generator.blamesNoWorker_generate _ _)).bind fun _ =>
      (SparesWorkers.note _ _).bind fun _ => .pure _

theorem sparesWorkers_conclude (options : RunOptions) (anyArguments : Bool) (r : Reconciliation) :
    SparesWorkers (p.conclude options anyArguments r) := by
  refine (Keeps.lift r.blamesNoWorker_require).bind fun reconciliation => ?_
  have hgenerate := p.sparesWorkers_generateFor options reconciliation
  split
  · exact (Keeps.fail rfl).bind fun _ => hgenerate
  · exact hgenerate

theorem sparesWorkers_discoverTests (files : PathSet) (options : RunOptions)
    (anyArguments : Bool) : SparesWorkers (p.discoverTests files options anyArguments) :=
  (sparesWorkers_enterStage _).bind fun _ => (p.sparesWorkers_buildAndScan files).bind
    fun built => (Dump.sparesWorkers_readTests _ _ _ _).bind fun compiled =>
      (sparesWorkers_enterStage _).bind fun _ =>
        (Keeps.lift (Reconciliation.blamesNoWorker_ofModules compiled built.2)).bind
          fun found => p.sparesWorkers_conclude options anyArguments found

theorem sparesWorkers_writeFile (path : Path) (text : String) :
    SparesWorkers (writeFile path text) := by
  refine Keeps.get.bind fun s => ?_
  split
  · exact SparesWorkers.change _
  · exact .fail rfl
  · next e hfile he => exact .throw (s.files.blamesNoWorker_writeTextWithParents path text e he)

theorem sparesWorkers_prepare (program : Program) : SparesWorkers (p.prepare program) := by
  have hmanifest : SparesWorkers p.writeManifest := by
    rw [writeManifest]
    split
    · exact .pure _
    · exact sparesWorkers_writeFile _ _
  exact (sparesWorkers_enterStage _).bind fun _ => hmanifest.bind fun _ =>
    (sparesWorkers_writeFile _ _).bind fun _ => Compiler.sparesWorkers_compileProgram _ _ _ _

/-- A run is not aborted because of its workers. -/
theorem blamesNoWorker_run (files : PathSet) (options : RunOptions) (anyArguments : Bool)
    (s : Session) : BlamesNoWorker (p.run files options anyArguments s).1 := by
  rw [run_eq, asRun_fst]
  have hspares : SparesWorkers (p.discoverTests files options anyArguments >>= fun d =>
      p.prepare d.program >>= p.work d) :=
    (p.sparesWorkers_discoverTests files options anyArguments).bind fun d =>
      (p.sparesWorkers_prepare d.program).bind fun compiled =>
        (Workers.sparesWorkers_dispatch _ _ _ _).bind fun workers => .pure _
  exact (hspares s).1

end Pipeline

end ElmSuite
