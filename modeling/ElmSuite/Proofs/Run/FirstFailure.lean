import ElmSuite.Proofs.Run.BuildAndScan

/-!
# Which failed scan is reported

When the build ends well and scans fail, the join reports the scan of the first file among
the failed ones that have completed when it wakes up. Which these are is up to the order of
the tasks, so that each failed scan is reported in some order. The first file of all whose
scan fails is reported in every order in which its scan has completed by then, as it has
when the scans complete in the order of the files.
-/

namespace ElmSuite

/-- The file that a task scans, if it is a scan. -/
def BuildTask.scanned? : BuildTask → Option Path
  | .scan file => some file
  | _ => none

namespace BuildOutcomes

/-- Whether a file is the first one whose scan is among some tasks and failed. -/
structure IsFirstFailed (o : BuildOutcomes) (tasks : List BuildTask) (file : Path) : Prop where
  mem : .scan file ∈ tasks
  failed : o.failed (.scan file) = true
  isLE : ∀ other, .scan other ∈ tasks → o.failed (.scan other) = true →
    (compare file other).isLE = true

variable {o : BuildOutcomes} {tasks : List BuildTask}

theorem IsFirstFailed.unique {a b : Path} (ha : o.IsFirstFailed tasks a)
    (hb : o.IsFirstFailed tasks b) : a = b :=
  Std.LawfulEqCmp.eq_of_compare
    (Std.OrientedCmp.isLE_antisymm (ha.isLE b hb.mem hb.failed) (hb.isLE a ha.mem ha.failed))

theorem isFirstFailed_singleton {file : Path} (h : o.failed (.scan file) = true) :
    o.IsFirstFailed [.scan file] file where
  mem := List.mem_singleton_self _
  failed := h
  isLE other hother _ := by
    obtain rfl : other = file := BuildTask.scan.inj (List.mem_singleton.mp hother)
    have hself : compare other other = .eq := Std.ReflCmp.compare_self
    rw [hself]
    rfl

theorem failed_scan_iff {file : Path} :
    o.failed (.scan file) = true ↔ ∃ e, o.scan file = .error e := by
  rw [failed_iff, fault?]
  cases o.scan file with
  | ok exposing => simp
  | error e => simp

/-- Where a scan failed, the task to blame is the scan of the first file whose scan failed. -/
theorem exists_culprit?_eq (h : ∃ file, .scan file ∈ tasks ∧ o.failed (.scan file) = true) :
    ∃ first, o.culprit? tasks = some (.scan first) ∧ o.IsFirstFailed tasks first := by
  obtain ⟨file, hfile, hfailed⟩ := h
  cases hculprit : o.culprit? tasks with
  | none =>
    rw [failed_iff, culprit?_eq_none_iff.mp hculprit _ hfile] at hfailed
    simp at hfailed
  | some t =>
    obtain ⟨hmem, htFailed, hfirst⟩ := culprit?_eq_some hculprit
    obtain ⟨first, rfl, -⟩ := hfirst file hfile hfailed
    refine ⟨first, rfl, hmem, htFailed, fun other hother hotherFailed => ?_⟩
    obtain ⟨_, ⟨rfl⟩, hle⟩ := hfirst other hother hotherFailed
    exact hle

theorem culprit?_eq_scan {file : Path} (h : o.IsFirstFailed tasks file) :
    o.culprit? tasks = some (.scan file) := by
  obtain ⟨first, hculprit, hfirst⟩ := exists_culprit?_eq ⟨file, h.mem, h.failed⟩
  rw [hculprit, hfirst.unique h]

/-- Beside a build that ends well only scans fail. -/
theorem exists_scan_of_failed (hbuild : o.build = .ok ()) {t : BuildTask} (h : o.failed t = true) :
    ∃ file, t = .scan file := by
  cases t with
  | scan file => exact ⟨file, rfl⟩
  | build => rw [failed, fault?, hbuild] at h; cases h
  | table => cases h

end BuildOutcomes

namespace Schedule

variable {o : BuildOutcomes} {files : List Path}

/-- Whether the scans of files complete in the order of the files. -/
def ScansInOrder (order : Schedule) (files : List Path) : Prop :=
  (order.order files).filterMap BuildTask.scanned? = files

theorem scansInOrder_buildFirst (files : List Path) : buildFirst.ScansInOrder files := by
  change (BuildTask.build :: .table :: files.map .scan).filterMap BuildTask.scanned? = files
  rw [List.filterMap_cons_none rfl, List.filterMap_cons_none rfl, List.filterMap_map]
  exact List.filterMap_some

/-- When scans complete in the order of the files, the first of those that fail is among the tasks
that the run wakes up to. -/
theorem mem_completed_of_scansInOrder {order : Schedule} (hbuild : o.build = .ok ())
    (hsorted : files.Pairwise fun a b => compare a b = .lt) (horder : order.ScansInOrder files)
    {first : Path} (hfirst : o.IsFirstFailed (buildTasks files) first) :
    .scan first ∈ order.completed o files := by
  have hmem : .scan first ∈ order.order files := order.mem_order_iff.mpr hfirst.mem
  obtain ⟨before, t, rest, hsplit, hbefore, ht⟩ := exists_first_failed ⟨_, hmem, hfirst.failed⟩
  obtain ⟨file, rfl⟩ := BuildOutcomes.exists_scan_of_failed hbuild ht
  rw [completed_of_failed hsplit hbefore ht]
  rw [hsplit, List.mem_append, List.mem_cons] at hmem
  rcases hmem with hmem | hmem | hmem
  · cases (hbefore _ hmem).symm.trans hfirst.failed
  · simp [hmem]
  · -- A file whose scan comes later in this order comes later among the files.
    have hfile : .scan file ∈ buildTasks files := order.mem_order_iff.mp (by simp [hsplit])
    have hle := hfirst.isLE file hfile ht
    rw [← horder, hsplit, List.filterMap_append,
      List.filterMap_cons_some (show BuildTask.scanned? (.scan file) = some file from rfl),
      List.pairwise_append, List.pairwise_cons] at hsorted
    have hlt := hsorted.2.1.1 first (List.mem_filterMap.mpr ⟨_, hmem, rfl⟩)
    rw [Std.OrientedCmp.gt_of_lt hlt] at hle
    cases hle

/-- Beside a build that ends well, a run wakes up to a failed scan, if there is one. -/
theorem exists_failed_scan (order : Schedule) (hbuild : o.build = .ok ()) {file : Path}
    (hfile : file ∈ files) (hfailed : o.failed (.scan file) = true) :
    ∃ first, .scan first ∈ order.completed o files ∧ o.failed (.scan first) = true := by
  have hmem : .scan file ∈ buildTasks files := mem_buildTasks.mpr (.inr (.inr ⟨file, hfile, rfl⟩))
  obtain ⟨t, ht, htFailed⟩ := order.exists_failed_of_failed ⟨_, hmem, hfailed⟩
  obtain ⟨first, rfl⟩ := BuildOutcomes.exists_scan_of_failed hbuild htFailed
  exact ⟨first, ht, htFailed⟩

/-- The scan of a file that fails is in some order the first task to complete. -/
theorem exists_completed_eq_singleton (hnodup : files.Nodup) {file : Path} (hfile : file ∈ files)
    (hfailed : o.failed (.scan file) = true) :
    ∃ order : Schedule, order.completed o files = [.scan file] := by
  refine exists_schedule hnodup
    ⟨by simp, fun t ht => ?_, .inl ⟨_, List.mem_singleton_self _, hfailed⟩⟩
  exact mem_buildTasks.mpr (.inr (.inr ⟨file, hfile, List.mem_singleton.mp ht⟩))

end Schedule

namespace Pipeline

variable {p : Pipeline} {files : PathSet} {s : Session}

/-- The join fails with the fault of the first file whose scan is among the completed tasks and
failed. -/
theorem buildAndScan_eq_error {file : Path} {e : Fault}
    (hstarted : ∀ reason, (p.tools .compiler).outcome (s.starts .compiler) ≠ .notStarted reason)
    (hfirst : (p.buildOutcomes s).IsFirstFailed (p.completedTasks files s) file)
    (he : Source.exposing s.files file = .error e) :
    ((p.buildAndScan files).run s).1 = .error e := by
  have hfault : (p.buildOutcomes s).fault? (.scan file) = some e := by
    simp only [BuildOutcomes.fault?, buildOutcomes, he]
  rw [run_buildAndScan_of_started hstarted, BuildOutcomes.culprit?_eq_scan hfirst]
  simp only [hfault]

/-- **Which failed scan is reported.** Beside a build that ends well, the join fails in every order
with the fault of the first file among the failed scans that have completed when it wakes up. It is
that of the first file of all whose scan fails if this scan has completed by then, and whenever the
scans complete in the order of the files. That of every other failed scan is reported in some
order. -/
theorem buildAndScan_reports (p : Pipeline) (files : PathSet) (s : Session) {built : ProcessResult}
    (hbuild : (p.tools .compiler).outcome (s.starts .compiler) = .ended built)
    (hexit : built.exitCode = 0)
    (hfails : ∃ file ∈ files, ∃ e, Source.exposing s.files file = .error e) :
    (∀ order : Schedule, ∃ file e,
      (p.buildOutcomes s).IsFirstFailed ({ p with schedule := order }.completedTasks files s) file ∧
      Source.exposing s.files file = .error e ∧
      (({ p with schedule := order }.buildAndScan files).run s).1 = .error e) ∧
    (∃ first e, (p.buildOutcomes s).IsFirstFailed (buildTasks files.toList) first ∧
      Source.exposing s.files first = .error e ∧
      ∀ order : Schedule,
        .scan first ∈ { p with schedule := order }.completedTasks files s ∨
          order.ScansInOrder files.toList →
        (({ p with schedule := order }.buildAndScan files).run s).1 = .error e) ∧
    ∀ file ∈ files, ∀ e, Source.exposing s.files file = .error e → ∃ order : Schedule,
      (({ p with schedule := order }.buildAndScan files).run s).1 = .error e := by
  have hstarted : ∀ reason, (p.tools .compiler).outcome (s.starts .compiler) ≠ .notStarted reason :=
    fun reason h => by rw [hbuild] at h; cases h
  have hok : (p.buildOutcomes s).build = .ok () := by
    rw [buildOutcomes, hbuild, Compiler.verdict_of_success hexit]
  have hfailed {file : Path} {e : Fault} (he : Source.exposing s.files file = .error e) :
      (p.buildOutcomes s).failed (.scan file) = true := BuildOutcomes.failed_scan_iff.mpr ⟨e, he⟩
  have hnodup : files.toList.Nodup :=
    Std.ExtTreeSet.distinct_toList.imp fun hne heq =>
      hne (by rw [heq]; exact Std.ReflCmp.compare_self)
  obtain ⟨lost, hlost, e, he⟩ := hfails
  replace hlost := Std.ExtTreeSet.mem_toList.mpr hlost
  refine ⟨fun order => ?_, ?_, fun file hfile e he => ?_⟩
  · obtain ⟨first, -, hfirst⟩ :=
      BuildOutcomes.exists_culprit?_eq (order.exists_failed_scan hok hlost (hfailed he))
    obtain ⟨e, he⟩ := BuildOutcomes.failed_scan_iff.mp hfirst.failed
    exact ⟨first, e, hfirst, he, buildAndScan_eq_error hstarted hfirst he⟩
  · have hscan : .scan lost ∈ buildTasks files.toList :=
      mem_buildTasks.mpr (.inr (.inr ⟨lost, hlost, rfl⟩))
    obtain ⟨first, -, hfirst⟩ := BuildOutcomes.exists_culprit?_eq ⟨lost, hscan, hfailed he⟩
    obtain ⟨e, he⟩ := BuildOutcomes.failed_scan_iff.mp hfirst.failed
    refine ⟨first, e, hfirst, he, fun order horder => ?_⟩
    refine buildAndScan_eq_error hstarted ⟨?_, hfirst.failed, fun other hother => ?_⟩ he
    · exact horder.elim id fun horder =>
        Schedule.mem_completed_of_scansInOrder hok Std.ExtTreeSet.ordered_toList horder hfirst
    · exact hfirst.isLE other (order.mem_order_iff.mp (Schedule.mem_order_of_completed hother))
  · obtain ⟨order, horder⟩ := Schedule.exists_completed_eq_singleton hnodup
      (Std.ExtTreeSet.mem_toList.mpr hfile) (hfailed he)
    have hfirst : (p.buildOutcomes s).IsFirstFailed
        ({ p with schedule := order }.completedTasks files s) file :=
      (congrArg (BuildOutcomes.IsFirstFailed _ · file) horder).mpr
        (BuildOutcomes.isFirstFailed_singleton (hfailed he))
    exact ⟨order, buildAndScan_eq_error hstarted hfirst he⟩

/-- Another file that there is not, behind the first one. -/
def otherLostFile : Path := ⟨.root, ["p", "C.elm"]⟩

def lostFiles : PathSet := PathSet.ofList [lostFile, otherLostFile]

theorem buildAndScan_reports_lost :
    (soloPipeline.tools .compiler).outcome (soloSession.starts .compiler) =
      .ended ⟨0, "", ""⟩ ∧
    (∃ file ∈ lostFiles, ∃ e, Source.exposing soloSession.files file = .error e) ∧
    ∃ first e, (soloPipeline.buildOutcomes soloSession).IsFirstFailed
        (buildTasks lostFiles.toList) first ∧
      Source.exposing soloSession.files first = .error e ∧
      ∀ order : Schedule,
        .scan first ∈ { soloPipeline with schedule := order }.completedTasks lostFiles soloSession ∨
          order.ScansInOrder lostFiles.toList →
        (({ soloPipeline with schedule := order }.buildAndScan lostFiles).run soloSession).1 =
          .error e := by
  have hfails : ∃ file ∈ lostFiles, ∃ e, Source.exposing soloSession.files file = .error e :=
    ⟨lostFile, by simp [lostFiles, PathSet.mem_ofList],
      .problem (.unreadableSource (some lostFile)), by decide +kernel⟩
  exact ⟨rfl, hfails, (buildAndScan_reports soloPipeline lostFiles soloSession rfl rfl hfails).2.1⟩

/-- The order in which the scan of the last file completes first. -/
def lastScanFirst : Schedule where
  order files := (files.map BuildTask.scan).reverse ++ [.build, .table]
  complete files :=
    List.perm_append_comm.trans
      ((files.map BuildTask.scan).reverse_perm.append_left [.build, .table])

/-- In this order the other lost file is reported, though the first one is lost as well. -/
theorem buildAndScan_otherLost :
    (soloPipeline.buildOutcomes soloSession).build = .ok () ∧
    (soloPipeline.buildOutcomes soloSession).IsFirstFailed (buildTasks lostFiles.toList) lostFile ∧
    Source.exposing soloSession.files lostFile =
      .error (.problem (.unreadableSource (some lostFile))) ∧
    (({ soloPipeline with schedule := lastScanFirst }.buildAndScan lostFiles).run soloSession).1 =
      .error (.problem (.unreadableSource (some otherLostFile))) := by
  refine ⟨by decide +kernel, ⟨by decide +kernel, by decide +kernel, fun other hother _ => ?_⟩,
    by decide +kernel, by decide +kernel⟩
  have hfiles : lostFiles.toList = [lostFile, otherLostFile] := by decide +kernel
  rw [hfiles] at hother
  obtain ⟨_, hmem, ⟨rfl⟩⟩ := ((mem_buildTasks.mp hother).resolve_left nofun).resolve_left nofun
  rw [List.mem_cons, List.mem_singleton] at hmem
  rcases hmem with rfl | rfl <;> decide +kernel

end Pipeline

end ElmSuite
