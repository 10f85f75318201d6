import ElmSuite.Proofs.Run.Join

/-!
# Waking up to completed tasks

A run that waits for its tasks wakes up with any set of completed ones that has a failed
one among them, or else with all of them. Schedules give each of these sets, in each
order. The task to blame is a failed one, and the scan of the first file among failed
scans if there are any.
-/

namespace ElmSuite

/-- The tasks beside a build of some files. -/
def buildTasks (files : List Path) : List BuildTask := .build :: .table :: files.map .scan

theorem mem_buildTasks {files : List Path} {t : BuildTask} :
    t ∈ buildTasks files ↔ t = .build ∨ t = .table ∨ ∃ file ∈ files, t = .scan file := by
  simp [buildTasks, eq_comm]

theorem nodup_buildTasks {files : List Path} (h : files.Nodup) : (buildTasks files).Nodup := by
  have hscans : (files.map BuildTask.scan).Nodup :=
    List.pairwise_map.mpr (h.imp fun hne heq => hne (BuildTask.scan.inj heq))
  simp [buildTasks, hscans]

/-- Whether a run can wake up with these tasks completed: some of its tasks of which one failed, or
all of them. -/
structure WakesUp (o : BuildOutcomes) (files : List Path) (completed : List BuildTask) : Prop where
  nodup : completed.Nodup
  subset : ∀ t ∈ completed, t ∈ buildTasks files
  cause : (∃ t ∈ completed, o.failed t = true) ∨ ∀ t ∈ buildTasks files, t ∈ completed

namespace BuildOutcomes

variable {o : BuildOutcomes} {tasks : List BuildTask}

theorem failed_iff {t : BuildTask} : o.failed t = true ↔ ∃ e, o.fault? t = some e := by
  rw [failed, Option.isSome_iff_exists]

theorem failed_eq_false_iff {t : BuildTask} : o.failed t = false ↔ o.fault? t = none := by
  rw [failed, Option.isSome_eq_false_iff, Option.isNone_iff_eq_none]

theorem fault?_build_eq_none_iff : o.fault? .build = none ↔ o.build = .ok () := by
  rw [fault?]
  cases o.build with
  | ok u => simp
  | error e => simp

theorem fault?_scan_eq_none_iff {file : Path} :
    o.fault? (.scan file) = none ↔ ∃ exposing, o.scan file = .ok exposing := by
  rw [fault?]
  cases o.scan file with
  | ok exposing => simp
  | error e => simp

theorem mem_failedScans {file : Path} :
    file ∈ o.failedScans tasks ↔ .scan file ∈ tasks ∧ o.failed (.scan file) = true := by
  rw [failedScans, PathSet.mem_ofList, List.mem_filterMap]
  constructor
  · rintro ⟨t, ht, hfile⟩
    cases t with
    | scan f =>
      dsimp only at hfile
      split at hfile
      · next hfailed =>
        rw [Option.some.injEq] at hfile
        subst hfile
        exact ⟨ht, hfailed⟩
      · cases hfile
    | build => cases hfile
    | table => cases hfile
  · rintro ⟨hfile, hfailed⟩
    exact ⟨.scan file, hfile, if_pos hfailed⟩

/-- The task to blame has failed. Where a scan has failed it is the failed scan of the first file. -/
theorem culprit?_eq_some {t : BuildTask} (h : o.culprit? tasks = some t) :
    t ∈ tasks ∧ o.failed t = true ∧
      ∀ other, .scan other ∈ tasks → o.failed (.scan other) = true →
        ∃ file, t = .scan file ∧ (compare file other).isLE = true := by
  unfold culprit? at h
  split at h
  · next file rest hlist =>
    rw [Option.some.injEq] at h
    subst h
    have hfile : file ∈ o.failedScans tasks := by
      rw [← Std.ExtTreeSet.mem_toList, hlist]
      exact List.mem_cons_self
    obtain ⟨hmem, hfailed⟩ := mem_failedScans.mp hfile
    refine ⟨hmem, hfailed, fun other hother hotherFailed => ⟨file, rfl, ?_⟩⟩
    have hin : other ∈ file :: rest := by
      rw [← hlist, Std.ExtTreeSet.mem_toList]
      exact mem_failedScans.mpr ⟨hother, hotherFailed⟩
    have hordered := Std.ExtTreeSet.ordered_toList (t := o.failedScans tasks)
    rw [hlist, List.pairwise_cons] at hordered
    rcases List.mem_cons.mp hin with rfl | hrest
    · have hself : compare other other = .eq := Std.ReflCmp.compare_self
      rw [hself]
      rfl
    · rw [hordered.1 other hrest]
      rfl
  · next hlist =>
    refine ⟨List.mem_of_find?_eq_some h, List.find?_some h, fun other hother hfailed => ?_⟩
    have hin : other ∈ (o.failedScans tasks).toList :=
      Std.ExtTreeSet.mem_toList.mpr (mem_failedScans.mpr ⟨hother, hfailed⟩)
    rw [hlist] at hin
    cases hin

/-- No task is to blame only if none has failed. -/
theorem culprit?_eq_none_iff : o.culprit? tasks = none ↔ ∀ t ∈ tasks, o.fault? t = none := by
  refine ⟨fun h t ht => ?_, culprit?_eq_none⟩
  unfold culprit? at h
  split at h
  · cases h
  · rw [← failed_eq_false_iff]
    exact Bool.eq_false_iff.mpr (List.find?_eq_none.mp h t ht)

end BuildOutcomes

namespace Schedule

variable {o : BuildOutcomes} {files : List Path}

theorem mem_order_iff (s : Schedule) {t : BuildTask} : t ∈ s.order files ↔ t ∈ buildTasks files := by
  rw [mem_order, mem_buildTasks]

/-- All tasks complete when none fails. -/
theorem completed_of_success {s : Schedule} (h : ∀ t ∈ s.order files, o.failed t = false) :
    s.completed o files = s.order files := by
  have hall : (s.order files).takeWhile (!o.failed ·) = s.order files := by
    rw [← List.append_nil (s.order files), List.takeWhile_append_of_pos]
    · rfl
    · exact fun t ht => by rw [h t ht]; rfl
  simp only [completed, hall, if_true]

/-- The run wakes up to the tasks before the first that fails, this task, and as many more as it
takes to wake up. -/
theorem completed_of_failed {s : Schedule} {before rest : List BuildTask} {first : BuildTask}
    (horder : s.order files = before ++ first :: rest)
    (hbefore : ∀ t ∈ before, o.failed t = false) (hfirst : o.failed first = true) :
    s.completed o files = before ++ first :: rest.take s.lag := by
  have hsplit : (s.order files).takeWhile (!o.failed ·) = before := by
    rw [horder, List.takeWhile_append_of_pos fun t ht => by rw [hbefore t ht]; rfl,
      List.takeWhile_cons_of_neg (by simp [hfirst]), List.append_nil]
  have hlength : before.length ≠ (before ++ first :: rest).length := by simp
  have htake : before.length + 1 + s.lag = before.length + (s.lag + 1) := by omega
  simp only [completed, hsplit]
  rw [horder, if_neg hlength, htake, List.take_length_add_append, List.take_succ_cons]

/-- Where some task of a list has failed, there is a first one. -/
theorem exists_first_failed {tasks : List BuildTask} (h : ∃ t ∈ tasks, o.failed t = true) :
    ∃ before first rest, tasks = before ++ first :: rest ∧
      (∀ t ∈ before, o.failed t = false) ∧ o.failed first = true := by
  obtain ⟨first, hfirst⟩ := Option.isSome_iff_exists.mp (List.find?_isSome.mpr h)
  obtain ⟨hfailed, before, rest, hsplit, hbefore⟩ := List.find?_eq_some_iff_append.mp hfirst
  exact ⟨before, first, rest, hsplit, fun t ht => by simpa using hbefore t ht, hfailed⟩

/-- A run wakes up to a failed task, if there is one. -/
theorem exists_failed_of_failed (s : Schedule) (h : ∃ t ∈ buildTasks files, o.failed t = true) :
    ∃ t ∈ s.completed o files, o.failed t = true := by
  have horder : ∃ t ∈ s.order files, o.failed t = true := by
    obtain ⟨t, ht, hfailed⟩ := h
    exact ⟨t, s.mem_order_iff.mpr ht, hfailed⟩
  obtain ⟨before, first, rest, hsplit, hbefore, hfirst⟩ := exists_first_failed horder
  rw [completed_of_failed hsplit hbefore hfirst]
  exact ⟨first, by simp, hfirst⟩

/-- No completed task has failed only if no task fails. -/
theorem completed_succeed_iff (s : Schedule) :
    (∀ t ∈ s.completed o files, o.fault? t = none) ↔ ∀ t ∈ buildTasks files, o.fault? t = none := by
  constructor
  · intro h t ht
    rw [← BuildOutcomes.failed_eq_false_iff]
    cases hfailed : o.failed t with
    | false => rfl
    | true =>
      obtain ⟨first, hfirst, hfirstFailed⟩ := s.exists_failed_of_failed ⟨t, ht, hfailed⟩
      rw [BuildOutcomes.failed_eq_false_iff.mpr (h first hfirst)] at hfirstFailed
      cases hfirstFailed
  · intro h t ht
    exact h t (s.mem_order_iff.mp (mem_order_of_completed ht))

theorem nodup_order (s : Schedule) (h : files.Nodup) : (s.order files).Nodup :=
  (s.complete files).nodup_iff.mpr (nodup_buildTasks h)

theorem wakesUp_completed (s : Schedule) (h : files.Nodup) : WakesUp o files (s.completed o files) where
  nodup := by
    have hnodup := s.nodup_order h
    unfold completed
    dsimp only
    split
    · exact hnodup
    · exact hnodup.sublist (List.take_sublist ..)
  subset t ht := s.mem_order_iff.mp (mem_order_of_completed ht)
  cause := by
    by_cases hfailed : ∃ t ∈ buildTasks files, o.failed t = true
    · exact .inl (s.exists_failed_of_failed hfailed)
    · refine .inr fun t ht => ?_
      have hall : ∀ t ∈ s.order files, o.failed t = false := fun t ht =>
        Bool.eq_false_iff.mpr fun htrue => hfailed ⟨t, s.mem_order_iff.mp ht, htrue⟩
      rw [completed_of_success hall, s.mem_order_iff]
      exact ht

/-- A list of tasks of a build that lacks none of them when the others are added. -/
theorem perm_append_others {completed : List BuildTask} (hfiles : files.Nodup)
    (hnodup : completed.Nodup) (hsubset : ∀ t ∈ completed, t ∈ buildTasks files) :
    (completed ++ (buildTasks files).filter (· ∉ completed)).Perm (buildTasks files) := by
  have hall := nodup_buildTasks hfiles
  refine (List.perm_ext_iff_of_nodup ?_ hall).mpr fun t => ?_
  · refine List.nodup_append.mpr ⟨hnodup, hall.filter _, fun t ht u hu heq => ?_⟩
    subst heq
    simp [ht] at hu
  · rw [List.mem_append, List.mem_filter, decide_eq_true_iff]
    constructor
    · rintro (ht | ⟨ht, -⟩)
      · exact hsubset t ht
      · exact ht
    · intro ht
      by_cases hin : t ∈ completed
      · exact .inl hin
      · exact .inr ⟨ht, hin⟩

/-- The schedule in which, for certain files, some tasks complete first, in their order, and so many
of them do beyond the first that fails. -/
def leading (files : List Path) (first : List BuildTask) (lag : Nat)
    (h : (first ++ (buildTasks files).filter (· ∉ first)).Perm (buildTasks files)) : Schedule where
  order others := if others = files then first ++ (buildTasks files).filter (· ∉ first)
    else buildTasks others
  complete others := by
    split
    · next heq =>
      subst heq
      exact h
    · exact .refl _
  lag := lag

theorem order_leading {first : List BuildTask} {lag : Nat}
    {h : (first ++ (buildTasks files).filter (· ∉ first)).Perm (buildTasks files)} :
    (leading files first lag h).order files = first ++ (buildTasks files).filter (· ∉ first) :=
  if_pos rfl

/-- Every set of tasks that a run can wake up to is one that some schedule makes it wake up to. -/
theorem exists_schedule {completed : List BuildTask} (hfiles : files.Nodup)
    (h : WakesUp o files completed) : ∃ s : Schedule, s.completed o files = completed := by
  have hperm := perm_append_others hfiles h.nodup h.subset
  by_cases hfailed : ∃ t ∈ completed, o.failed t = true
  · obtain ⟨before, first, rest, hsplit, hbefore, hfirst⟩ := exists_first_failed hfailed
    refine ⟨leading files completed rest.length hperm, ?_⟩
    have horder : (leading files completed rest.length hperm).order files =
        before ++ first :: (rest ++ (buildTasks files).filter (· ∉ completed)) := by
      rw [order_leading]
      generalize (buildTasks files).filter (· ∉ completed) = others
      rw [hsplit, List.append_assoc, List.cons_append]
    rw [completed_of_failed horder hbefore hfirst]
    exact (congrArg (before ++ first :: ·) List.take_left).trans hsplit.symm
  · have hall : ∀ t ∈ buildTasks files, t ∈ completed := h.cause.resolve_left hfailed
    have hothers : (buildTasks files).filter (· ∉ completed) = [] := by
      rw [List.filter_eq_nil_iff]
      intro t ht
      simp [hall t ht]
    have horder : (leading files completed 0 hperm).order files = completed := by
      rw [order_leading, hothers, List.append_nil]
    refine ⟨leading files completed 0 hperm, ?_⟩
    rw [completed_of_success, horder]
    intro t ht
    rw [horder] at ht
    exact Bool.eq_false_iff.mpr fun htrue => hfailed ⟨t, ht, htrue⟩

/-- Schedules make a run wake up to any set of tasks that it can wake up to, and to no other. -/
theorem wakesUp_iff_exists_schedule {completed : List BuildTask} (hfiles : files.Nodup) :
    WakesUp o files completed ↔ ∃ s : Schedule, s.completed o files = completed := by
  refine ⟨exists_schedule hfiles, ?_⟩
  rintro ⟨s, rfl⟩
  exact s.wakesUp_completed hfiles

end Schedule

end ElmSuite
