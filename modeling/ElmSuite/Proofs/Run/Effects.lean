import ElmSuite.Proofs.Files.Written
import ElmSuite.Proofs.Run.BuildAndScan
import ElmSuite.Proofs.Run.Trace

/-!
# The effects of the stages

A discovery writes nothing, starts no worker and starts the compiler for its build only,
however it ends. Behind it the generated files are written and the program is compiled,
and only then are workers started.
-/

namespace ElmSuite

open ElmSuite.Action (Passes)

namespace Dump

theorem passes_collectTests {spared : List RunEffect} (table : NameMap Path)
    (testType stdout : String) : Passes spared [] (collectTests table testType stdout) :=
  (Passes.lift _).before fun records =>
    (Passes.note (by simp [LogRecord.isStageNote, List.isPrefixOf])).before fun _ => .pure _

theorem passes_readTests (tools : Toolbox) (root : Path) (table : NameMap Path) (testType : String) :
    Passes [.write, .start .compiler, .start .runtime] [] (readTests tools root table testType) := by
  refine (Passes.start tools (arguments root) (some root) (by simp)).before fun started => ?_
  cases started with
  | error reason => exact .fail _
  | ok process =>
    refine (Passes.wait tools .dump process).before fun outcome => ?_
    cases outcome with
    | ended r =>
      have hread : Passes [.write, .start .compiler, .start .runtime] []
        (collectTests table testType r.stdout) := passes_collectTests table testType r.stdout
      dsimp only
      cases r.succeeded with
      | true => exact hread
      | false => exact (Passes.note rfl).before fun _ => hread
    | _ => exact .fail _

end Dump

namespace Pipeline

variable {p : Pipeline} {files : PathSet} {options : RunOptions} {anyArguments : Bool}

/-! ## Discoveries -/

/-- The last steps of a discovery, in which its program is generated. -/
def generateFor (p : Pipeline) (options : RunOptions) (r : Reconciliation) : Action Discovery := do
  enterStage .generating
  let program ← Action.lift (p.generator.generate r.testsByModule options)
  Action.note .info ("Generated " ++ program.moduleName ++ " with " ++
    toString r.modules.size ++ " test module(s)")
  return ⟨r, program⟩

theorem passes_generateFor {spared : List RunEffect} (r : Reconciliation) :
    Passes spared [.generating] (p.generateFor options r) :=
  (Passes.enterStage .generating).bind fun _ => (Passes.lift _).before fun program =>
    (Passes.note (by simp [LogRecord.isStageNote, List.isPrefixOf])).before fun _ => .pure _

theorem passes_conclude {spared : List RunEffect} (r : Reconciliation) :
    Passes spared [.generating] (p.conclude options anyArguments r) := by
  refine (Passes.lift r.require).before fun reconciliation => ?_
  cases reconciliation.modules.isEmpty with
  | true => exact (Passes.fail _).before fun _ => passes_generateFor reconciliation
  | false => exact passes_generateFor reconciliation

/-- The steps of a discovery behind its build. -/
def examine (p : Pipeline) (options : RunOptions) (anyArguments : Bool)
    (built : NameMap Path × PathMap Exposing) : Action Discovery := do
  let compiled ← Dump.readTests p.tools p.root built.1 p.testType
  enterStage .reconciling
  let found ← Action.lift (Reconciliation.ofModules compiled built.2)
  p.conclude options anyArguments found

theorem discoverTests_eq : p.discoverTests files options anyArguments =
    enterStage .buildingAndScanning >>= fun _ =>
      p.buildAndScan files >>= p.examine options anyArguments := rfl

theorem passes_examine (built : NameMap Path × PathMap Exposing) :
    Passes [.write, .start .compiler, .start .runtime] [.reconciling, .generating]
      (p.examine options anyArguments built) :=
  (Dump.passes_readTests _ _ _ _).before fun _ => (Passes.enterStage .reconciling).bind fun _ =>
    (Passes.lift _).before fun r => passes_conclude r

theorem isStageNote_of_level {r : LogRecord} (h : r.level ≠ .info) : r.isStageNote = false := by
  simp [LogRecord.isStageNote, h]

theorem level_of_mem_moduleTableLog {dirs : List Path} {r : LogRecord}
    (h : r ∈ moduleTableLog files dirs) : r.level ≠ .info := by
  rcases List.mem_append.mp h with hnote | hwarning
  · obtain ⟨file, dir, parts, rfl⟩ := exists_illegalNameNote_of_mem_notes hnote
    exact nofun
  · obtain ⟨claimed, -, rfl⟩ := List.mem_map.mp hwarning
    exact nofun

/-- No task beside a build tells of a stage. -/
theorem isStageNote_of_mem_taskLog {o : BuildOutcomes} {t : BuildTask} {r : LogRecord}
    (h : r ∈ p.taskLog o files t) : r.isStageNote = false := by
  cases t with
  | build =>
    rw [taskLog] at h
    split at h
    · rw [List.mem_singleton.mp h]
      rfl
    · cases h
  | table => exact isStageNote_of_level (level_of_mem_moduleTableLog h)
  | scan file =>
    rw [taskLog] at h
    split at h
    · rw [List.mem_singleton.mp h]
      exact isStageNote_of_level nofun
    · cases h

/-- Events of a build behind its start. -/
theorem sparing_buildStart_cons {events : List RunEvent}
    (hspares : ∀ e ∈ events, e.effect? = none) (hnotes : RunEvent.stageNotes events = []) :
    (∀ e ∈ p.buildStart files :: events, e.Spares [.write, .start .dump, .start .runtime]) ∧
      RunEvent.stageNotes (p.buildStart files :: events) = [] ∧
      (p.buildStart files :: events).filter (RunEvent.isStartOf .compiler) =
        [p.buildStart files] := by
  refine ⟨List.forall_mem_cons.mpr ⟨?_, fun e he => ?_⟩, hnotes, ?_⟩
  · simp [RunEvent.Spares, RunEvent.effect?, buildStart]
  · exact RunEvent.spares_of_effect?_eq_none (hspares e he) _
  · have hnone : events.filter (RunEvent.isStartOf .compiler) = [] :=
      List.filter_eq_nil_iff.mpr fun e he => by
        rw [RunEvent.isStartOf_iff, hspares e he]
        simp
    rw [List.filter_cons_of_pos rfl, hnone]

/-- Whatever becomes of a build, it writes nothing and starts the compiler once, and no other tool. -/
theorem run_buildAndScan_record (s : Session) : ∃ events,
    ((p.buildAndScan files).run s).2 = s.record events ∧
      (∀ e ∈ events, e.Spares [.write, .start .dump, .start .runtime]) ∧ RunEvent.stageNotes events = [] ∧
      events.filter (RunEvent.isStartOf .compiler) = [p.buildStart files] := by
  by_cases hstarted : ∀ reason,
      (p.tools .compiler).outcome (s.starts .compiler) ≠ .notStarted reason
  · let records := (p.completedTasks files s).flatMap (p.taskLog (p.buildOutcomes s) files)
    have hnotes : RunEvent.stageNotes (records.map .note) = [] := by
      refine RunEvent.stageNotes_map_note fun r hr => ?_
      obtain ⟨t, -, ht⟩ := List.mem_flatMap.mp hr
      exact isStageNote_of_mem_taskLog ht
    rw [run_buildAndScan_of_started hstarted]
    cases (p.buildOutcomes s).culprit? (p.completedTasks files s) with
    | none =>
      refine ⟨_, rfl, @sparing_buildStart_cons p files
        (.wait .compiler (s.starts .compiler) :: records.map .note) ?_ hnotes⟩
      simp [RunEvent.effect?]
    | some t =>
      let kills : List RunEvent :=
        List.replicate (killCount t) (.kill .compiler (s.starts .compiler))
      have hevents : p.joinEvents files s ++ kills = p.buildStart files ::
          (.wait .compiler (s.starts .compiler) :: records.map .note ++ kills) := rfl
      refine ⟨p.joinEvents files s ++ kills, rfl, ?_⟩
      rw [hevents]
      refine sparing_buildStart_cons ?_ ?_
      · simp [kills, RunEvent.effect?, or_imp, forall_and]
      · rw [List.cons_append, ← List.singleton_append, RunEvent.stageNotes_append,
          RunEvent.stageNotes_append, hnotes]
        simp [kills, RunEvent.stageNotes, RunEvent.record?, List.filterMap_replicate]
  · simp only [not_forall, not_not] at hstarted
    obtain ⟨reason, hreason⟩ := hstarted
    refine ⟨[p.buildStart files], ?_, @sparing_buildStart_cons p files [] (by simp) rfl⟩
    rw [buildAndScan, Compiler.startBuild,
      Action.run_bind_of_error (Compiler.run_start_of_notStarted hreason)]
    rfl

theorem passes_buildAndScan : Passes [.write, .start .dump, .start .runtime] [] (p.buildAndScan files) := by
  intro s
  obtain ⟨events, hrun, hspares, hnotes, -⟩ := @run_buildAndScan_record p files s
  rw [hrun]
  exact ⟨events, [], .of_record (fun e he => (hspares e he).mono (by simp)) hnotes, hspares,
    List.prefix_rfl, fun _ _ => rfl⟩

/-- However a discovery ends, it writes nothing and starts no worker. -/
theorem passes_discoverTests : Passes [.write, .start .runtime]
    [.buildingAndScanning, .reconciling, .generating]
    (p.discoverTests files options anyArguments) :=
  (Passes.enterStage .buildingAndScanning).bind fun _ =>
    (passes_buildAndScan.mono (by simp)).before fun built => (passes_examine built).mono (by simp)

/-- However a discovery ends, it starts the compiler once, for its build. -/
theorem compilerStarts_discoverTests (s : Session) :
    ((p.discoverTests files options anyArguments).run s).2.history.filter
        (RunEvent.isStartOf .compiler) =
      s.history.filter (RunEvent.isStartOf .compiler) ++ [p.buildStart files] := by
  have hstage : Passes [.start .compiler] [.buildingAndScanning]
    (enterStage .buildingAndScanning) := .enterStage _
  obtain ⟨entered, hentered, -⟩ := run_enterStage .buildingAndScanning s
  obtain ⟨events, hbuild, -, -, hstarts⟩ := @run_buildAndScan_record p files entered
  have hsame := hstage.filter_history (List.mem_singleton_self _) s
  rw [hentered] at hsame
  rw [discoverTests_eq, Action.run_bind_of_ok hentered,
    Passes.filter_history_bind passes_examine (by simp), hbuild, Session.history_record,
    List.filter_append, hsame, hstarts]

theorem starts_compiler_of_discoverTests {s found : Session} {r : Except Fault Discovery}
    (h : (p.discoverTests files options anyArguments).run s = (r, found)) :
    found.starts .compiler = s.starts .compiler + 1 := by
  have hstarts := @compilerStarts_discoverTests p files options anyArguments s
  rw [h] at hstarts
  rw [Session.starts, Session.starts, List.countP_eq_length_filter, hstarts, List.length_append,
    List.countP_eq_length_filter]
  rfl

/-! ## Writing and compiling -/

theorem run_writeFile_of_ok {path : Path} {text : String} {s : Session} {fs : FileSystem}
    (h : s.files.writeTextWithParents path text = .ok fs) :
    (writeFile path text).run s = (.ok (), { s with files := fs }.record [.wrote path text]) := by
  rw [writeFile, Action.run_bind_of_ok (Action.run_get s), h]
  rfl

theorem run_writeFile_of_error {path : Path} {text : String} {s : Session} {e : Fault}
    (h : s.files.writeTextWithParents path text = .error e) :
    ∃ reason, (writeFile path text).run s = (.error reason, s) := by
  rw [writeFile, Action.run_bind_of_ok (Action.run_get s), h]
  cases e <;> exact ⟨_, rfl⟩

theorem run_writeFile_eq_ok {path : Path} {text : String} {s after : Session}
    (h : (writeFile path text).run s = (.ok (), after)) :
    s.files.writeTextWithParents path text = .ok after.files ∧
      after.history = s.history ++ [.wrote path text] := by
  match hwrite : s.files.writeTextWithParents path text with
  | .ok fs =>
    rw [run_writeFile_of_ok hwrite] at h
    cases h
    exact ⟨rfl, rfl⟩
  | .error e =>
    obtain ⟨reason, hfailed⟩ := run_writeFile_of_error hwrite
    rw [hfailed] at h
    cases h

theorem passes_writeFile {spared : List RunEffect} (h : .write ∉ spared) (path : Path)
    (text : String) : Passes spared [] (writeFile path text) := by
  intro s
  match hwrite : s.files.writeTextWithParents path text with
  | .ok fs =>
    rw [run_writeFile_of_ok hwrite]
    refine ⟨[.wrote path text], [], ⟨rfl, ?_, rfl, rfl, rfl⟩, ?_, List.prefix_rfl, fun _ _ => rfl⟩
    · simp [FileSystem.after, hwrite, Except.toOption]
    · simp only [List.forall_mem_singleton]
      rintro x hx heq
      cases heq
      exact h hx
  | .error e =>
    obtain ⟨reason, hfailed⟩ := run_writeFile_of_error hwrite
    rw [hfailed]
    exact ⟨[], [], .refl s, by simp, List.prefix_rfl, fun _ _ => rfl⟩

end Pipeline

namespace Compiler

theorem verdict_eq_ok {outcome : ToolOutcome} (h : verdict outcome = .ok ()) :
    ∃ r, outcome = .ended r ∧ r.exitCode = 0 := by
  cases outcome with
  | ended r =>
    rw [verdict] at h
    split at h
    · next hsucceeded => exact ⟨r, rfl, by simpa [ProcessResult.succeeded] using hsucceeded⟩
    · cases h
  | _ => cases h

/-- What compiling a program does, and how. -/
def compileEvents (source output directory : Path) (process : Nat) : List RunEvent :=
  [.start .compiler ["make", toString source, "--output=" ++ toString output] (some directory),
    .wait .compiler process]

theorem run_compileProgram_eq_ok {tools : Toolbox} {source output directory compiled : Path}
    {s after : Session}
    (h : (compileProgram tools source output directory).run s = (.ok compiled, after)) :
    (∃ r, (tools .compiler).outcome (s.starts .compiler) = .ended r ∧ r.exitCode = 0) ∧
      compiled = output ∧
      after = s.record (compileEvents source output directory (s.starts .compiler)) := by
  rw [compileProgram] at h
  match hstart : (tools .compiler).outcome (s.starts .compiler) with
  | .notStarted reason =>
    rw [Action.run_bind_of_error (run_start_of_notStarted hstart)] at h
    cases h
  | .lost reason =>
    rw [Action.run_bind_of_ok (run_start_of_started (by simp [hstart])),
      Action.run_bind_of_ok (Toolbox.run_wait ..), hstart] at h
    cases h
  | .garbled flaw =>
    rw [Action.run_bind_of_ok (run_start_of_started (by simp [hstart])),
      Action.run_bind_of_ok (Toolbox.run_wait ..), hstart] at h
    cases h
  | .ended r =>
    rw [Action.run_bind_of_ok (run_start_of_started (by simp [hstart])),
      Action.run_bind_of_ok (Toolbox.run_wait ..), hstart] at h
    obtain ⟨u, mid, hlift, hreturn⟩ := Action.run_bind_eq_ok h
    rw [Action.run_lift, Prod.mk.injEq] at hlift
    obtain ⟨hverdict, rfl⟩ := hlift
    obtain ⟨r', hr', hexit⟩ := verdict_eq_ok hverdict
    cases hr'
    cases hreturn
    exact ⟨⟨r, rfl, hexit⟩, rfl, by rw [Session.record_record]; rfl⟩

theorem passes_compileProgram (tools : Toolbox) (source output directory : Path) :
    Passes [.write, .start .dump, .start .runtime] []
      (compileProgram tools source output directory) := by
  have hstart : ∀ arguments, Passes [.write, .start .dump, .start .runtime] []
      (start tools arguments directory) := fun arguments =>
    (Passes.start tools arguments (some directory) (by simp)).before fun started => by
      cases started with
      | ok process => exact .pure _
      | error reason => exact .fail _
  exact (hstart _).before fun process => (Passes.wait tools .compiler process).before fun outcome =>
    (Passes.lift _).before fun _ => .pure _

end Compiler

namespace Workers

theorem passes_startOne (tools : Toolbox) (program : Path) (directory : Option Path)
    (count index : Nat) : Passes [.write, .start .compiler, .start .dump] []
      (startOne tools program directory count index) := by
  refine (Passes.start tools _ directory (by simp)).before fun started => ?_
  cases started with
  | ok process => exact .pure _
  | error reason => exact (Passes.note rfl).before fun _ => .pure _

theorem passes_settle (tools : Toolbox) (started : Except WorkerResult (Nat × Nat)) :
    Passes [.write, .start .compiler, .start .dump] [] (settle tools started) := by
  cases started with
  | error failed => exact .pure _
  | ok worker =>
    refine (Passes.wait tools .runtime worker.2).before fun outcome => ?_
    cases outcome with
    | ended r =>
      dsimp only
      cases r.succeeded with
      | true => exact .pure _
      | false => exact (Passes.note rfl).before fun _ => .pure _
    | garbled flaw => exact .throw _
    | lost reason =>
      exact (Passes.note rfl).before fun _ => .pure _
    | notStarted reason =>
      exact (Passes.note rfl).before fun _ => .pure _

theorem passes_dispatch (tools : Toolbox) (count : Nat) (program : Path) (directory : Option Path) :
    Passes [.write, .start .compiler, .start .dump] [] (dispatch tools count program directory) :=
  (Passes.mapM (passes_startOne tools program directory count) _).before fun started =>
    (Passes.note (by simp [LogRecord.isStageNote, List.isPrefixOf])).before fun _ =>
      Passes.mapM (passes_settle tools) started

end Workers

namespace Pipeline

variable {p : Pipeline} {program : Program}

/-- Where a generated program is written. -/
def programFile (p : Pipeline) (program : Program) : Path := p.layout.programFile program.moduleName

/-- Where a generated program is compiled. -/
def compileDirectory (p : Pipeline) : Path :=
  match p.manifest with
  | none => p.root
  | some _ => p.layout.directory

/-- Writes the manifest, if there is one. -/
def writeManifest (p : Pipeline) : Action Unit :=
  match p.manifest with
  | none => return ()
  | some fields => writeFile p.layout.manifest (Manifest.text fields)

/-- The steps of a run between its discovery and its workers. -/
def prepare (p : Pipeline) (program : Program) : Action Path := do
  enterStage .dispatching
  p.writeManifest
  writeFile (p.programFile program) program.source
  Compiler.compileProgram p.tools (p.programFile program) p.layout.compiledProgram p.compileDirectory

theorem execute_eq : p.execute program = p.prepare program >>= fun compiled =>
    Workers.dispatch p.tools p.workers compiled (some p.root) >>= fun workers =>
      pure (p.programFile program, workers) := by
  simp only [execute, prepare, writeManifest, compileDirectory, programFile]
  cases p.manifest with
  | none => simp only [bind_assoc, pure_bind]
  | some fields => simp only [bind_assoc, pure_bind]

theorem passes_writeManifest {spared : List RunEffect} (h : .write ∉ spared) :
    Passes spared [] p.writeManifest := by
  rw [writeManifest]
  cases p.manifest with
  | none => exact .pure ()
  | some fields => exact passes_writeFile h _ _

theorem passes_written : Passes [.start .runtime] [] (do
    p.writeManifest
    writeFile (p.programFile program) program.source
    Compiler.compileProgram p.tools (p.programFile program) p.layout.compiledProgram
      p.compileDirectory) :=
  (passes_writeManifest (by simp)).before fun _ => (passes_writeFile (by simp) _ _).before fun _ =>
    (Compiler.passes_compileProgram _ _ _ _).mono (by simp)

/-- However the preparation of workers ends, none of them is started. -/
theorem passes_prepare : Passes [.start .runtime] [.dispatching] (p.prepare program) :=
  (Passes.enterStage .dispatching).bind fun _ => passes_written

/-- However the preparation of workers ends, the log tells of its stage. -/
theorem mem_history_prepare (s : Session) :
    .note (stageNote s.stage .dispatching) ∈ ((p.prepare program).run s).2.history := by
  refine Passes.mem_history_bind (fun _ => passes_written) ?_
  exact List.mem_append_right _ (List.mem_singleton_self _)

/-- The write of the manifest, if there is one. -/
def manifestEvents (p : Pipeline) : List RunEvent :=
  match p.manifest with
  | none => []
  | some fields => [.wrote p.layout.manifest (Manifest.text fields)]

/-- What happens before workers are started on a program. -/
def prepareEvents (p : Pipeline) (program : Program) (process : Nat) : List RunEvent :=
  p.manifestEvents ++ .wrote (p.programFile program) program.source ::
    Compiler.compileEvents (p.programFile program) p.layout.compiledProgram p.compileDirectory process

/-- Whether the manifest, if there is one, and the program can be written, one after the other. -/
def Writes (p : Pipeline) (program : Program) (before after : FileSystem) : Prop :=
  ∃ between, (match p.manifest with
    | none => between = before
    | some fields =>
      before.writeTextWithParents p.layout.manifest (Manifest.text fields) = .ok between) ∧
    between.writeTextWithParents (p.programFile program) program.source = .ok after

theorem run_enterStage_eq_ok {stage : Stage} {s after : Session}
    (h : (enterStage stage).run s = (.ok (), after)) :
    after.files = s.files ∧ after.history = s.history ++ [.note (stageNote s.stage stage)] := by
  cases h
  exact ⟨rfl, rfl⟩

theorem run_writeManifest_eq_ok {s after : Session} (h : p.writeManifest.run s = (.ok (), after)) :
    (match p.manifest with
      | none => after.files = s.files
      | some fields =>
        s.files.writeTextWithParents p.layout.manifest (Manifest.text fields) = .ok after.files) ∧
      after.history = s.history ++ p.manifestEvents := by
  rw [writeManifest] at h
  rw [manifestEvents]
  cases hmanifest : p.manifest with
  | none =>
    rw [hmanifest] at h
    cases h
    exact ⟨rfl, (List.append_nil _).symm⟩
  | some fields =>
    rw [hmanifest] at h
    exact run_writeFile_eq_ok h

/-- Workers are prepared only by writing the generated files and compiling the program well. -/
theorem run_prepare_eq_ok {s after : Session} {compiled : Path}
    (h : (p.prepare program).run s = (.ok compiled, after)) :
    p.Writes program s.files after.files ∧
      (∃ r, (p.tools .compiler).outcome (s.starts .compiler) = .ended r ∧ r.exitCode = 0) ∧
      compiled = p.layout.compiledProgram ∧
      after.history = s.history ++ .note (stageNote s.stage .dispatching) ::
        p.prepareEvents program (s.starts .compiler) := by
  obtain ⟨⟨⟩, entered, hentered, hrest⟩ := Action.run_bind_eq_ok h
  obtain ⟨⟨⟩, manifested, hmanifested, hrest⟩ := Action.run_bind_eq_ok hrest
  obtain ⟨⟨⟩, written, hwritten, hcompile⟩ := Action.run_bind_eq_ok hrest
  have hstarts : written.starts .compiler = s.starts .compiler := by
    rw [Passes.starts_eq (passes_writeFile (by simp) _ _) (List.mem_singleton_self _) hwritten,
      Passes.starts_eq (passes_writeManifest (by simp)) (List.mem_singleton_self _) hmanifested,
      Passes.starts_eq (.enterStage _) (List.mem_singleton_self _) hentered]
  obtain ⟨hfiles, hstage⟩ := run_enterStage_eq_ok hentered
  obtain ⟨hfirst, hmanifest⟩ := run_writeManifest_eq_ok hmanifested
  obtain ⟨hsecond, hprogram⟩ := run_writeFile_eq_ok hwritten
  obtain ⟨hended, rfl, rfl⟩ := Compiler.run_compileProgram_eq_ok hcompile
  rw [hfiles] at hfirst
  rw [hstarts] at hended ⊢
  refine ⟨⟨manifested.files, hfirst, hsecond⟩, hended, rfl, ?_⟩
  rw [Session.history_record, hprogram, hmanifest, hstage, prepareEvents]
  simp

end Pipeline

end ElmSuite
