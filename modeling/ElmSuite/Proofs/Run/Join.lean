import ElmSuite.Run.Join

/-!
# Tasks that all succeed

In whichever order the tasks beside a build complete, no task is to blame when the
build and the scans of all files succeed.
-/

namespace ElmSuite

namespace Schedule

/-- Only tasks of the build complete. -/
theorem mem_order {s : Schedule} {files : List Path} {t : BuildTask} :
    t ∈ s.order files ↔ t = .build ∨ t = .table ∨ ∃ file ∈ files, t = .scan file := by
  rw [(s.complete files).mem_iff]
  simp [eq_comm]

theorem mem_order_of_completed {s : Schedule} {o : BuildOutcomes} {files : List Path}
    {t : BuildTask} (h : t ∈ s.completed o files) : t ∈ s.order files := by
  unfold completed at h
  dsimp only at h
  split at h
  · exact h
  · exact List.mem_of_mem_take h

end Schedule

namespace BuildOutcomes

/-- Nothing is to blame among tasks without a fault. -/
theorem culprit?_eq_none {o : BuildOutcomes} {tasks : List BuildTask}
    (h : ∀ t ∈ tasks, o.fault? t = none) : o.culprit? tasks = none := by
  have hfailed : ∀ t ∈ tasks, o.failed t = false := by
    intro t ht
    rw [failed, h t ht]
    rfl
  have hscans : o.failedScans tasks = ∅ := by
    apply Std.ExtTreeSet.ext_mem
    intro file
    rw [failedScans, PathSet.mem_ofList, List.mem_filterMap]
    constructor
    · rintro ⟨t, ht, hfile⟩
      cases t with
      | scan f => simp [hfailed _ ht] at hfile
      | build => cases hfile
      | table => cases hfile
    · intro hmem
      exact absurd hmem Std.ExtTreeSet.not_mem_empty
  have hempty : (o.failedScans tasks).toList = [] := by
    rw [hscans]
    simp
  rw [culprit?, hempty, List.find?_eq_none]
  intro t ht
  rw [hfailed t ht]
  exact Bool.false_ne_true

/-- When the build and all scans succeed, the run goes on with no task to blame. -/
theorem culprit?_completed {o : BuildOutcomes} {files : List Path} (s : Schedule)
    (hbuild : o.build = .ok ()) (hscan : ∀ file ∈ files, ∃ e, o.scan file = .ok e) :
    o.culprit? (s.completed o files) = none := by
  apply culprit?_eq_none
  intro t ht
  rcases Schedule.mem_order.mp (Schedule.mem_order_of_completed ht) with rfl | rfl | ⟨f, hf, rfl⟩
  · simp only [fault?, hbuild]
  · rfl
  · obtain ⟨e, he⟩ := hscan f hf
    simp only [fault?, he]

end BuildOutcomes

end ElmSuite
