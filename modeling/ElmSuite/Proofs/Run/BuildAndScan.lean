import ElmSuite.Proofs.Run.Discovery
import ElmSuite.Proofs.Run.WakeUp

/-!
# Building and scanning in any order

In whichever order the tasks beside a build complete, the join gives the module table
and what each file exposes if all of them succeed. Otherwise it fails with the fault of
a failed task, once the build was killed, and nothing of a run follows.
-/

namespace ElmSuite

namespace Compiler

variable {tools : Toolbox} {arguments : List String} {directory : Path} {s : Session}

theorem run_start_of_started
    (h : ∀ reason, (tools .compiler).outcome (s.starts .compiler) ≠ .notStarted reason) :
    (start tools arguments directory).run s =
      (.ok (s.starts .compiler), s.record [.start .compiler arguments (some directory)]) := by
  rw [start, Action.run_bind_of_ok (Toolbox.run_start_of_started h)]
  rfl

theorem run_start_of_notStarted {reason : String}
    (h : (tools .compiler).outcome (s.starts .compiler) = .notStarted reason) :
    (start tools arguments directory).run s =
      (.error (.problem (.compilerNotStarted (tools .compiler).executable)),
        s.record [.start .compiler arguments (some directory)]) := by
  rw [start, Action.run_bind_of_ok (Toolbox.run_start_of_notStarted h)]
  rfl

end Compiler

/-- Whether a join to which certain tasks have completed may fail with a fault: a failed task has it,
and if scans have failed the one of the first file among them. -/
structure JoinFailsWith (o : BuildOutcomes) (completed : List BuildTask) (e : Fault) : Prop where
  failed : ∃ t ∈ completed, o.fault? t = some e
  firstScan : (∃ file, .scan file ∈ completed ∧ o.failed (.scan file) = true) →
    ∃ file, .scan file ∈ completed ∧ o.fault? (.scan file) = some e ∧
      ∀ other, .scan other ∈ completed → o.failed (.scan other) = true →
        (compare file other).isLE = true

theorem BuildOutcomes.joinFailsWith_of_culprit {o : BuildOutcomes} {completed : List BuildTask}
    {t : BuildTask} {e : Fault} (h : o.culprit? completed = some t) (he : o.fault? t = some e) :
    JoinFailsWith o completed e := by
  obtain ⟨hmem, -, hfirst⟩ := culprit?_eq_some h
  refine ⟨⟨t, hmem, he⟩, ?_⟩
  rintro ⟨other, hother, hfailed⟩
  obtain ⟨file, rfl, -⟩ := hfirst other hother hfailed
  refine ⟨file, hmem, he, fun another hanother hanotherFailed => ?_⟩
  obtain ⟨_, ⟨rfl⟩, hle⟩ := hfirst another hanother hanotherFailed
  exact hle

/-- A join that fails has a failed task. -/
theorem JoinFailsWith.exists_failed {o : BuildOutcomes} {order : Schedule} {files : List Path}
    {e : Fault} (h : JoinFailsWith o (order.completed o files) e) :
    ∃ t ∈ buildTasks files, o.fault? t = some e := by
  obtain ⟨t, ht, he⟩ := h.failed
  exact ⟨t, order.mem_order_iff.mp (Schedule.mem_order_of_completed ht), he⟩

namespace Pipeline

/-- What the tasks beside a build come to that is made in a session. -/
def buildOutcomes (p : Pipeline) (s : Session) : BuildOutcomes :=
  ⟨Compiler.verdict ((p.tools .compiler).outcome (s.starts .compiler)), Source.exposing s.files⟩

/-- The tasks that have completed when the run wakes up. -/
def completedTasks (p : Pipeline) (files : PathSet) (s : Session) : List BuildTask :=
  p.schedule.completed (p.buildOutcomes s) files.toList

/-- The start of a build. -/
def buildStart (p : Pipeline) (files : PathSet) : RunEvent :=
  .start .compiler (p.buildArguments ++ files.toList.map toString) (some p.root)

/-- What happens from the start of a build until the run wakes up. -/
def joinEvents (p : Pipeline) (files : PathSet) (s : Session) : List RunEvent :=
  [p.buildStart files, .wait .compiler (s.starts .compiler)] ++
  ((p.completedTasks files s).flatMap (p.taskLog (p.buildOutcomes s) files)).map .note

variable {p : Pipeline} {files : PathSet} {s : Session}

theorem countP_joinEvents : (p.joinEvents files s).countP (RunEvent.isStartOf .dump) = 0 := by
  simp [joinEvents, buildStart, List.countP_eq_zero, RunEvent.isStartOf]

/-- A build that was started, from the wake-up on. -/
theorem run_buildAndScan_of_started
    (hstarted : ∀ reason, (p.tools .compiler).outcome (s.starts .compiler) ≠ .notStarted reason) :
    (p.buildAndScan files).run s =
      match (p.buildOutcomes s).culprit? (p.completedTasks files s) with
      | none => (.ok (moduleTable files p.sourceDirs, exposedFiles (p.buildOutcomes s) files),
          s.record (p.joinEvents files s))
      | some t => (match (p.buildOutcomes s).fault? t with
          | none => .ok (moduleTable files p.sourceDirs, exposedFiles (p.buildOutcomes s) files)
          | some e => .error e,
          s.record (p.joinEvents files s ++
            List.replicate (killCount t) (.kill .compiler (s.starts .compiler)))) := by
  rw [buildAndScan, Compiler.startBuild,
    Action.run_bind_of_ok (Compiler.run_start_of_started hstarted),
    Action.run_bind_of_ok (Toolbox.run_wait ..), Action.run_bind_of_ok (Action.run_get _)]
  dsimp only
  rw [Action.run_bind_of_ok (Action.run_change ..)]
  simp only [Session.record_record, Session.note, Session.files_record, joinEvents, buildStart,
    completedTasks, buildOutcomes, List.cons_append, List.nil_append]
  split
  · next t hculprit =>
    rw [hculprit]
    dsimp only
    rw [Action.run_bind_of_ok (Action.run_change ..)]
    cases hfault : BuildOutcomes.fault? _ t <;> simp
  · next hculprit =>
    rw [hculprit]
    rfl

/-- A build that was started succeeds with all of its tasks. Else it fails with the fault of a failed
task, after it was killed, and the dump tool was not started. -/
theorem run_buildAndScan_cases
    (hstarted : ∀ reason, (p.tools .compiler).outcome (s.starts .compiler) ≠ .notStarted reason) :
    ((∀ t ∈ buildTasks files.toList, (p.buildOutcomes s).fault? t = none) ∧
      (p.buildAndScan files).run s =
        (.ok (moduleTable files p.sourceDirs, exposedFiles (p.buildOutcomes s) files),
          s.record (p.joinEvents files s))) ∨
    ∃ e new, (p.buildAndScan files).run s = (.error e, s.record new) ∧
      JoinFailsWith (p.buildOutcomes s) (p.completedTasks files s) e ∧
      .kill .compiler (s.starts .compiler) ∈ new ∧
      new.countP (RunEvent.isStartOf .dump) = 0 := by
  rw [run_buildAndScan_of_started hstarted]
  cases hculprit : (p.buildOutcomes s).culprit? (p.completedTasks files s) with
  | none =>
    exact .inl ⟨p.schedule.completed_succeed_iff.mp (BuildOutcomes.culprit?_eq_none_iff.mp hculprit),
      rfl⟩
  | some t =>
    obtain ⟨e, he⟩ := BuildOutcomes.failed_iff.mp (BuildOutcomes.culprit?_eq_some hculprit).2.1
    refine .inr ⟨e, _, by simp only [he]; rfl, BuildOutcomes.joinFailsWith_of_culprit hculprit he,
      ?_, ?_⟩
    · refine List.mem_append_right _ (List.mem_replicate.mpr ⟨?_, rfl⟩)
      cases t <;> simp [killCount]
    · rw [List.countP_append, countP_joinEvents, List.countP_replicate]
      rfl

/-- A build comes to the same in sessions with the same files and the same starts of tools. -/
theorem buildAndScan_fst_congr {t : Session} (hfiles : t.files = s.files)
    (hstarts : ∀ role, t.starts role = s.starts role)
    (hstarted : ∀ reason, (p.tools .compiler).outcome (s.starts .compiler) ≠ .notStarted reason) :
    ((p.buildAndScan files).run t).1 = ((p.buildAndScan files).run s).1 := by
  have houtcomes : p.buildOutcomes t = p.buildOutcomes s := by
    rw [buildOutcomes, buildOutcomes, hfiles, hstarts]
  rw [run_buildAndScan_of_started hstarted, run_buildAndScan_of_started (by rwa [hstarts]),
    completedTasks, completedTasks, houtcomes]
  split
  · rfl
  · rfl

/-- A discovery and a whole run end with a join that fails, and the dump tool is not started. -/
theorem run_of_buildAndScan_error {e : Fault}
    (hstarted : ∀ reason, (p.tools .compiler).outcome (s.starts .compiler) ≠ .notStarted reason)
    (h : ((p.buildAndScan files).run s).1 = .error e) (options : RunOptions) (anyArguments : Bool) :
    ∃ after, after.starts .dump = s.starts .dump ∧
      p.discover files options anyArguments s = (.error e, after) ∧
      p.run files options anyArguments s = (.error e, after) := by
  obtain ⟨t, hstage, hfiles, hstarts⟩ := run_enterStage .buildingAndScanning s
  rw [← buildAndScan_fst_congr hfiles hstarts hstarted] at h
  have hstarted' : ∀ reason, (p.tools .compiler).outcome (t.starts .compiler) ≠ .notStarted reason := by
    rwa [hstarts]
  rcases @run_buildAndScan_cases p files t hstarted' with
    ⟨-, hok⟩ | ⟨e', new, herror, -, -, hdump⟩
  · rw [hok] at h
    cases h
  · rw [herror] at h
    cases h
    have hdiscover : (p.discoverTests files options anyArguments).run s = (.error e, t.record new) := by
      rw [discoverTests, Action.run_bind_of_ok hstage, Action.run_bind_of_error herror]
    refine ⟨aborted e (t.record new), ?_, asRun_of_error hdiscover,
      asRun_of_error (Action.run_bind_of_error hdiscover)⟩
    rw [← hstarts .dump, aborted, ← Nat.add_zero (t.starts .dump), ← hdump, ← Session.starts_record]
    exact Session.starts_note ..

/-- What the join of a build and the scans of files has to be, in one order of its tasks. -/
structure Joins (p : Pipeline) (files : PathSet) (s : Session) (exposed : PathMap Exposing) :
    Prop where
  /-- It returns if and only if every task succeeds. -/
  returns : (∃ value after, (p.buildAndScan files).run s = (.ok value, after)) ↔
    ∀ t ∈ buildTasks files.toList, (p.buildOutcomes s).fault? t = none
  value : ∀ value after, (p.buildAndScan files).run s = (.ok value, after) →
    value = (moduleTable files p.sourceDirs, exposed)
  fault : ∀ e after, (p.buildAndScan files).run s = (.error e, after) →
    JoinFailsWith (p.buildOutcomes s) (p.completedTasks files s) e
  killed : ∀ e after, (p.buildAndScan files).run s = (.error e, after) →
    ∃ new, after.history = s.history ++ new ∧ .kill .compiler (s.starts .compiler) ∈ new
  /-- The fault ends every run, and none of them starts the dump tool. -/
  noDump : ∀ e after, (p.buildAndScan files).run s = (.error e, after) →
    after.starts .dump = s.starts .dump ∧ ∀ options anyArguments, ∃ last,
      last.starts .dump = s.starts .dump ∧
      p.discover files options anyArguments s = (.error e, last) ∧
      p.run files options anyArguments s = (.error e, last)

theorem joins_exposedFiles
    (hstarted : ∀ reason, (p.tools .compiler).outcome (s.starts .compiler) ≠ .notStarted reason) :
    Joins p files s (exposedFiles (p.buildOutcomes s) files) := by
  rcases @run_buildAndScan_cases p files s hstarted with
    ⟨hall, hok⟩ | ⟨e, new, herror, hfault, hkilled, hdump⟩
  · constructor
    · exact ⟨fun _ => hall, fun _ => ⟨_, _, hok⟩⟩
    · intro value after h
      rw [hok] at h
      cases h
      rfl
    all_goals
      intro e after h
      rw [hok] at h
      cases h
  · constructor
    · constructor
      · rintro ⟨value, after, hok⟩
        rw [herror] at hok
        cases hok
      · intro hall
        obtain ⟨t, ht, he⟩ := hfault.exists_failed
        rw [hall t ht] at he
        cases he
    · intro value after h
      rw [herror] at h
      cases h
    all_goals
      intro e after h
      rw [herror] at h
      cases h
    · exact hfault
    · exact ⟨new, rfl, hkilled⟩
    · refine ⟨by rw [Session.starts_record, hdump, Nat.add_zero], ?_⟩
      exact run_of_buildAndScan_error hstarted (by rw [herror])

/-- **The join is right in every order of its tasks**: orders make it wake up to every set of
completed tasks to which it may, and in each of them it returns what all others return, or fails with
the fault of a failed task of this set and a killed build. -/
theorem joins_of_every_order (p : Pipeline) (files : List Path) (s : Session)
    (hstarted : ∀ reason, (p.tools .compiler).outcome (s.starts .compiler) ≠ .notStarted reason) :
    (∀ completed, WakesUp (p.buildOutcomes s) (PathSet.ofList files).toList completed ↔
      ∃ order : Schedule, { p with schedule := order }.completedTasks (PathSet.ofList files) s =
        completed) ∧
    ∃ exposed : PathMap Exposing,
      (∀ file e, exposed[file]? = some e ↔
        file ∈ files ∧ Source.exposing s.files file = .ok e) ∧
      ∀ order : Schedule, Joins { p with schedule := order } (PathSet.ofList files) s exposed := by
  have hnodup : (PathSet.ofList files).toList.Nodup :=
    Std.ExtTreeSet.distinct_toList.imp fun hne heq => hne (by rw [heq]; exact Std.ReflCmp.compare_self)
  refine ⟨fun completed => Schedule.wakesUp_iff_exists_schedule hnodup,
    exposedFiles (p.buildOutcomes s) (PathSet.ofList files), fun file e => ?_,
    fun order => joins_exposedFiles hstarted⟩
  rw [getElem?_exposedFiles, PathSet.mem_ofList]
  rfl

/-- A file that there is not, beside one that is scanned. -/
def lostFile : Path := ⟨.root, ["p", "B.elm"]⟩

/-- In every order the lost file is to blame. -/
theorem joins_lost :
    (∀ reason, (soloPipeline.tools .compiler).outcome (soloSession.starts .compiler) ≠
      .notStarted reason) ∧
    ∀ order : Schedule, (({ soloPipeline with schedule := order }.buildAndScan
      (PathSet.ofList [soloFile, lostFile])).run soloSession).1 =
        .error (.problem (.unreadableSource (some lostFile))) := by
  have hstarted : ∀ reason, (soloPipeline.tools .compiler).outcome (soloSession.starts .compiler) ≠
      .notStarted reason := fun reason h => by cases h
  refine ⟨hstarted, fun order => ?_⟩
  obtain ⟨-, exposed, -, hjoins⟩ :=
    joins_of_every_order soloPipeline [soloFile, lostFile] soloSession hstarted
  have hlost : (soloPipeline.buildOutcomes soloSession).fault? (.scan lostFile) =
      some (.problem (.unreadableSource (some lostFile))) := by decide +kernel
  rcases hrun : ({ soloPipeline with schedule := order }.buildAndScan
      (PathSet.ofList [soloFile, lostFile])).run soloSession with ⟨e | value, after⟩
  case ok =>
    have hall := (hjoins order).returns.mp ⟨value, after, hrun⟩ (.scan lostFile)
      (mem_buildTasks.mpr (.inr (.inr ⟨lostFile, by simp [PathSet.mem_ofList], rfl⟩)))
    cases hall.symm.trans hlost
  case error =>
    obtain ⟨t, ht, he⟩ := ((hjoins order).fault e after hrun).exists_failed
    have hsolo : (soloPipeline.buildOutcomes soloSession).fault? (.scan soloFile) = none := by
      decide +kernel
    rcases mem_buildTasks.mp ht with rfl | rfl | ⟨file, hfile, rfl⟩
    · cases he
    · cases he
    · rw [Std.ExtTreeSet.mem_toList, PathSet.mem_ofList, List.mem_cons, List.mem_singleton] at hfile
      rcases hfile with rfl | rfl
      · cases hsolo.symm.trans he
      · cases hlost.symm.trans he
        exact congrArg Prod.fst hrun

end Pipeline

end ElmSuite
