import ElmSuite.Proofs.Files.Written
import ElmSuite.Proofs.Run.Effects

/-!
# Aborted runs and started workers

A run that is aborted before its program is written leaves no trace in the files and
among the tools but that of its build. A worker is started only on a program that was
written, that is still what was generated, and that was compiled well.
-/

namespace ElmSuite

open ElmSuite.Action (Passes)

namespace Pipeline

/-- The stages of a discovery, one after the other. -/
def discoveryStages : List Stage := [.buildingAndScanning, .reconciling, .generating]

/-- Whether a run on files, in a fresh session, did nothing outside of it but to start the build and
the dump tool. -/
structure LeavesNothing (p : Pipeline) (files : PathSet) (fs : FileSystem) (after : Session) :
    Prop where
  unchanged : after.files = fs
  noWrite : ∀ path text, .wrote path text ∉ after.history
  noWorker : ∀ arguments directory, .start .runtime arguments directory ∉ after.history
  /-- The only start of the compiler is the one for the build. -/
  onlyBuild : after.history.filter (RunEvent.isStartOf .compiler) = [p.buildStart files]

/-- Whether a run, in a fresh session, was aborted for a reason on its way through stages. -/
structure IsAborted (e : Fault) (stages : List Stage) (after : Session) : Prop where
  stage : after.stage = .aborted
  reason : after.abortReason = some e
  /-- The stages that the log tells of are the first ones, and the last of them is the one in which
  the run was aborted. -/
  passed : ∃ passed, passed <+: stages ∧
    after.log.filter LogRecord.isStageNote = Stage.notes (.start :: passed) ∧
    after.log.getLast? = some (abortNote (passed.getLastD .start) e)

/-- What has to have happened when a worker is started on a program, by the events before. -/
structure IsReady (p : Pipeline) (program : Program) (fs : FileSystem) (before : List RunEvent) :
    Prop where
  /-- The manifest, if there is one, and the program could be written. -/
  writes : p.Writes program fs (fs.after before)
  /-- They were written, and the compiler was started on the program and awaited. -/
  happened : p.prepareEvents program 1 <:+: before
  /-- It ended well. -/
  compiled : ∃ r, (p.tools .compiler).outcome 1 = .ended r ∧ r.exitCode = 0
  /-- The file of the program holds its text. -/
  held : (fs.after before).read (p.programFile program) = .ok program.source.toUTF8.toList

variable {p : Pipeline} {files : PathSet} {options : RunOptions} {anyArguments : Bool}
  {fs : FileSystem}

/-! ## Sessions at the end of a run -/

theorem isAborted_aborted {α : Type} {spared : List RunEffect} {stages : List Stage} {x : Action α}
    {e : Fault} {after : Session} (hx : Passes spared stages x)
    (hrun : x.run { files := fs } = (.error e, after)) : IsAborted e stages (aborted e after) := by
  obtain ⟨events, passed, hadds, -, hpassed, -⟩ := hx { files := fs }
  rw [hrun] at hadds
  have hlog : (aborted e after).log = after.log ++ [abortNote after.stage e] :=
    Session.log_note after [abortNote after.stage e]
  refine ⟨rfl, rfl, passed, hpassed, ?_, ?_⟩
  · have hnote : (abortNote after.stage e).isStageNote = false := isStageNote_of_level nofun
    rw [hlog, List.filter_append, List.filter_cons_of_neg (by simp [hnote]), List.filter_nil,
      List.append_nil, Session.log, hadds.history]
    exact hadds.notes
  · rw [hlog, List.getLast?_concat, hadds.stage]

/-- A session that a discovery led to, with one more record. -/
theorem leavesNothing_of_history {last : Session} {r : LogRecord}
    (hfiles : last.files =
      ((p.discoverTests files options anyArguments).run { files := fs }).2.files)
    (hhistory : last.history =
      ((p.discoverTests files options anyArguments).run { files := fs }).2.history ++ [.note r]) :
    LeavesNothing p files fs last := by
  obtain ⟨events, passed, hadds, hspares, -, -⟩ :=
    @passes_discoverTests p files options anyArguments { files := fs }
  have hevents := hadds.history
  rw [List.nil_append] at hevents
  rw [hevents] at hhistory
  have hmem : ∀ e ∈ last.history, e.Spares [.write, .start .runtime] := by
    rw [hhistory]
    exact List.forall_mem_append.mpr ⟨hspares,
      List.forall_mem_singleton.mpr (RunEvent.spares_of_effect?_eq_none rfl _)⟩
  constructor
  · rw [hfiles, hadds.files]
    exact FileSystem.after_of_spares fs fun e he => (hspares e he).mono (by simp)
  · exact fun path text hwrote => hmem _ hwrote .write (by simp) rfl
  · exact fun arguments directory hstart => hmem _ hstart (.start .runtime) (by simp) rfl
  · have hstarts := @compilerStarts_discoverTests p files options anyArguments { files := fs }
    rw [hevents] at hstarts
    rw [hhistory, List.filter_append, hstarts]
    rfl

/-- At its end a run adds a record, and nothing else to its history and its files. -/
theorem asRun_snd {α : Type} (x : Action α) (s : Session) :
    (asRun x s).2.files = (x.run s).2.files ∧
      ∃ r, (asRun x s).2.history = (x.run s).2.history ++ [.note r] := by
  match hrun : x.run s with
  | (.ok a, after) =>
    rw [asRun_of_ok hrun]
    exact ⟨rfl, _, rfl⟩
  | (.error e, after) =>
    rw [asRun_of_error hrun]
    exact ⟨rfl, _, rfl⟩

theorem leavesNothing_discover :
    LeavesNothing p files fs (p.discover files options anyArguments { files := fs }).2 := by
  obtain ⟨hfiles, r, hhistory⟩ :=
    asRun_snd (p.discoverTests files options anyArguments) { files := fs }
  exact leavesNothing_of_history hfiles hhistory

/-! ## Whole runs -/

/-- The workers of a run. -/
def work (p : Pipeline) (d : Discovery) (compiled : Path) : Action RunResult := do
  let workers ← Workers.dispatch p.tools p.workers compiled (some p.root)
  return ⟨d, p.programFile d.program, workers⟩

theorem run_eq (s : Session) : p.run files options anyArguments s =
    asRun (p.discoverTests files options anyArguments >>= fun d =>
      p.prepare d.program >>= p.work d) s := by
  simp only [run, execute_eq, bind_assoc, pure_bind]
  rfl

theorem passes_work (d : Discovery) (compiled : Path) :
    Passes [.write, .start .compiler, .start .dump] [] (p.work d compiled) :=
  (Workers.passes_dispatch _ _ _ _).before fun _ => .pure _

/-- A whole run goes through all stages, and through the first ones if it is aborted. -/
theorem passes_run : Passes [] (discoveryStages ++ [.dispatching])
    (p.discoverTests files options anyArguments >>= fun d => p.prepare d.program >>= p.work d) :=
  (passes_discoverTests.mono (by simp)).bind fun d =>
    (passes_prepare.mono (by simp)).bind fun compiled => (passes_work d compiled).mono (by simp)

/-- What has happened before an event that is not among the first ones. -/
theorem exists_eq_append_of_not_mem {whole rest before behind : List RunEvent} {e : RunEvent}
    (h : whole ++ rest = before ++ e :: behind) (hnot : e ∉ whole) :
    ∃ between, before = whole ++ between ∧ rest = between ++ e :: behind := by
  rcases List.append_eq_append_iff.mp h with ⟨between, hbefore, hrest⟩ | ⟨between, hwhole, hbehind⟩
  · exact ⟨between, hbefore, hrest⟩
  · cases between with
    | nil => exact ⟨[], by simpa using hwhole.symm, by simpa using hbehind.symm⟩
    | cons first more =>
      rw [List.cons_append, List.cons.injEq] at hbehind
      refine absurd ?_ hnot
      rw [hwhole, hbehind.1]
      simp

/-- A program that was prepared behind a discovery, and stays as it is while workers run. -/
theorem isReady_of_prepared {d : Discovery} {found ready : Session} {compiled : Path}
    {between : List RunEvent}
    (hfound : (p.discoverTests files options anyArguments).run { files := fs } = (.ok d, found))
    (hready : (p.prepare d.program).run found = (.ok compiled, ready))
    (hbetween : ∀ e ∈ between, e.Spares [.write]) :
    IsReady p d.program fs (ready.history ++ between) := by
  obtain ⟨events, passed, hadds, hspares, -, -⟩ :=
    @passes_discoverTests p files options anyArguments { files := fs }
  obtain ⟨prepared, passed', hprepared, -, -, -⟩ := @passes_prepare p d.program found
  rw [hfound] at hadds
  rw [hready] at hprepared
  have hone : found.starts .compiler = 1 := starts_compiler_of_discoverTests hfound
  have hfiles : found.files = fs := by
    rw [hadds.files]
    exact FileSystem.after_of_spares fs fun e he => (hspares e he).mono (by simp)
  have hafter : fs.after (ready.history ++ between) = ready.files := by
    rw [FileSystem.after_append, FileSystem.after_of_spares _ hbetween, hprepared.history,
      hprepared.files, FileSystem.after_append, hadds.history, hadds.files, List.nil_append]
  obtain ⟨hwrites, hcompiled, -, hhistory⟩ := run_prepare_eq_ok hready
  rw [hfiles] at hwrites
  rw [hone] at hcompiled hhistory
  refine ⟨hafter ▸ hwrites, ?_, hcompiled, ?_⟩
  · exact ⟨found.history ++ [.note (stageNote found.stage .dispatching)], between, by simp [hhistory]⟩
  · obtain ⟨first, -, hwrite⟩ := hwrites
    rw [hafter]
    exact FileSystem.read_writeTextWithParents hwrite

/-- A worker is started only behind a discovery that found tests, and after the preparation of their
program. -/
theorem isReady_of_start {before behind : List RunEvent} {arguments : List String}
    {directory : Option Path}
    (h : (p.run files options anyArguments { files := fs }).2.history =
      before ++ .start .runtime arguments directory :: behind) :
    ∃ d, (p.discover files options anyArguments { files := fs }).1 = .ok d ∧
      IsReady p d.program fs before := by
  let worker : RunEvent := .start .runtime arguments directory
  obtain ⟨-, r, hhistory⟩ := asRun_snd (p.discoverTests files options anyArguments >>= fun d =>
    p.prepare d.program >>= p.work d) { files := fs }
  rw [← run_eq, h] at hhistory
  have hworker : worker ∈ ((p.discoverTests files options anyArguments >>= fun d =>
      p.prepare d.program >>= p.work d).run { files := fs }).2.history := by
    have hmem : worker ∈ before ++ worker :: behind := by simp
    rw [hhistory, List.mem_append, List.mem_singleton] at hmem
    exact hmem.resolve_right nofun
  obtain ⟨d, found, hfound, hnot, hworker⟩ :=
    passes_discoverTests.exists_run_eq_ok rfl (by simp) (by simp) hworker
  obtain ⟨compiled, ready, hready, hnot, -⟩ :=
    passes_prepare.exists_run_eq_ok rfl (by simp) hnot hworker
  obtain ⟨more, others, hmore, hspares, -, -⟩ := passes_work d compiled ready
  rw [Action.run_bind_of_ok hfound, Action.run_bind_of_ok hready, hmore.history,
    List.append_assoc] at hhistory
  obtain ⟨between, rfl, hrest⟩ := exists_eq_append_of_not_mem hhistory.symm hnot
  have hbetween : ∀ e ∈ between, e.Spares [.write] := by
    intro e he
    have hmem : e ∈ more ++ [.note r] := by
      rw [hrest]
      exact List.mem_append_left _ he
    rcases List.mem_append.mp hmem with hevent | hnote
    · exact (hspares e hevent).mono (by simp)
    · rw [List.mem_singleton.mp hnote]
      exact RunEvent.spares_of_effect?_eq_none rfl _
  refine ⟨d, ?_, isReady_of_prepared hfound hready hbetween⟩
  rw [discover, asRun_fst, hfound]

theorem discover_error {e : Fault} {after : Session}
    (h : p.discover files options anyArguments { files := fs } = (.error e, after)) :
    IsAborted e discoveryStages after ∧
      p.run files options anyArguments { files := fs } = (.error e, after) := by
  match hrun : (p.discoverTests files options anyArguments).run { files := fs } with
  | (.ok d, found) =>
    rw [discover, asRun_of_ok hrun] at h
    cases h
  | (.error reason, found) =>
    rw [discover, asRun_of_error hrun] at h
    cases h
    refine ⟨isAborted_aborted passes_discoverTests hrun, ?_⟩
    rw [run_eq, asRun_of_error (Action.run_bind_of_error hrun)]

/-- A run that found tests tells in its log of its last stage, even if it is aborted there. -/
theorem stageNote_mem_log_aborted {d : Discovery} {e : Fault} {found last : Session}
    (hfound : (p.discoverTests files options anyArguments).run { files := fs } = (.ok d, found))
    (hrun : (p.prepare d.program >>= p.work d).run found = (.error e, last)) :
    stageNote .generating .dispatching ∈ (aborted e last).log := by
  obtain ⟨events, passed, hadds, -, -, hall⟩ :=
    @passes_discoverTests p files options anyArguments { files := fs }
  rw [hfound] at hadds hall
  have hstage : found.stage = .generating := by
    rw [hadds.stage, hall d rfl]
    rfl
  have htold : .note (stageNote .generating .dispatching) ∈
      ((p.prepare d.program >>= p.work d).run found).2.history := by
    rw [← hstage]
    exact Passes.mem_history_bind (passes_work d) (mem_history_prepare found)
  rw [hrun] at htold
  exact List.mem_filterMap.mpr ⟨_, List.mem_append_left _ htold, rfl⟩

/-- A run that does not come to its last stage is a discovery that was aborted. -/
theorem run_error {e : Fault} {after : Session}
    (h : p.run files options anyArguments { files := fs } = (.error e, after)) :
    IsAborted e (discoveryStages ++ [.dispatching]) after ∧
      (stageNote .generating .dispatching ∉ after.log → LeavesNothing p files fs after) := by
  match hrun : (p.discoverTests files options anyArguments >>= fun d =>
      p.prepare d.program >>= p.work d).run { files := fs } with
  | (.ok result, last) =>
    rw [run_eq, asRun_of_ok hrun] at h
    cases h
  | (.error reason, last) =>
    rw [run_eq, asRun_of_error hrun] at h
    cases h
    refine ⟨isAborted_aborted passes_run hrun, fun hnever => ?_⟩
    rcases Action.run_bind_eq_error hrun with hdiscover | ⟨d, found, hfound, hrest⟩
    · have hleaves := @leavesNothing_discover p files options anyArguments fs
      rwa [discover, asRun_of_error hdiscover] at hleaves
    · exact absurd (stageNote_mem_log_aborted hfound hrest) hnever

/-- No worker is started where a write, the start of the compiler or the compilation fails. -/
theorem starts_runtime_of_failure {d : Discovery}
    (hd : (p.discover files options anyArguments { files := fs }).1 = .ok d)
    (hfailure : (¬∃ after, p.Writes d.program fs after) ∨
      ∀ r, (p.tools .compiler).outcome 1 = .ended r → r.exitCode ≠ 0) :
    (p.run files options anyArguments { files := fs }).2.starts .runtime = 0 := by
  rw [Session.starts, List.countP_eq_zero]
  intro e he hstart
  cases e with
  | start role arguments directory =>
    obtain rfl : role = .runtime := by simpa [RunEvent.isStartOf] using hstart
    obtain ⟨before, behind, hhistory⟩ := List.append_of_mem he
    obtain ⟨d', hd', hready⟩ := isReady_of_start hhistory
    rw [hd, Except.ok.injEq] at hd'
    subst hd'
    obtain ⟨r, hr, hexit⟩ := hready.compiled
    exact hfailure.elim (fun hnone => hnone ⟨_, hready.writes⟩) fun hbad => hbad r hr hexit
  | _ => cases hstart

/-- **An aborted run leaves no partial output, and no worker runs a program that is not the one that
was generated, written and compiled.** -/
theorem run_of_fresh (p : Pipeline) (files : PathSet) (options : RunOptions) (anyArguments : Bool)
    (fs : FileSystem) :
    LeavesNothing p files fs (p.discover files options anyArguments { files := fs }).2 ∧
    (∀ e after, p.discover files options anyArguments { files := fs } = (.error e, after) →
      IsAborted e discoveryStages after ∧
      p.run files options anyArguments { files := fs } = (.error e, after)) ∧
    (∀ e after, p.run files options anyArguments { files := fs } = (.error e, after) →
      IsAborted e (discoveryStages ++ [.dispatching]) after ∧
      (stageNote .generating .dispatching ∉ after.log → LeavesNothing p files fs after)) ∧
    (∀ before behind arguments directory,
      (p.run files options anyArguments { files := fs }).2.history =
        before ++ .start .runtime arguments directory :: behind →
      ∃ d, (p.discover files options anyArguments { files := fs }).1 = .ok d ∧
        IsReady p d.program fs before) ∧
    ∀ d, (p.discover files options anyArguments { files := fs }).1 = .ok d →
      (¬∃ after, p.Writes d.program fs after) ∨
        (∀ r, (p.tools .compiler).outcome 1 = .ended r → r.exitCode ≠ 0) →
      (p.run files options anyArguments { files := fs }).2.starts .runtime = 0 :=
  ⟨leavesNothing_discover, fun _ _ h => discover_error h, fun _ _ h => run_error h,
    fun _ _ _ _ h => isReady_of_start h, fun _ hd hfailure => starts_runtime_of_failure hd hfailure⟩

end Pipeline

end ElmSuite
