import ElmSuite.Proofs.CommandLine.Attempt
import ElmSuite.Proofs.Run.Success

/-!
# The exit status

A command that ends with a status tells the truth by it: 0 is for a run in which all went
well, down to the last worker, 2 for one that came to its end with a worker that failed,
and 1 for a problem of any other kind.
-/

namespace ElmSuite

/-! ## Workers that fail -/

/-- Whether a process could not be started, could not be awaited, or ended badly. -/
def ToolOutcome.Fails : ToolOutcome → Prop
  | .notStarted _ | .lost _ => True
  | .garbled _ => False
  | .ended r => r.exitCode ≠ 0

/-- A worker that came to a result ended well unless its process failed. -/
theorem Workers.EndsAs.succeeded_iff_not_fails {index : Nat} {outcome : ToolOutcome}
    {w : WorkerResult} (h : EndsAs index outcome w) : w.succeeded = true ↔ ¬outcome.Fails := by
  rw [h.succeeded_iff]
  cases h with
  | ended r => simp [ToolOutcome.Fails]
  | _ => simp [ToolOutcome.Fails]

theorem RunResult.failedWorkers_eq_nil_iff {r : RunResult} :
    r.failedWorkers = [] ↔ ∀ w ∈ r.workers, w.succeeded = true := by
  simp [failedWorkers, List.filter_eq_nil_iff]

/-- Related lists agree on whether all of their items have properties that agree on related items. -/
theorem forall_mem_iff_of_forall₂ {α β : Type} {related : α → β → Prop} {P : α → Prop}
    {Q : β → Prop} {as : List α} {bs : List β} (h : List.Forall₂ related as bs)
    (hiff : ∀ a b, related a b → (Q b ↔ P a)) : (∀ b ∈ bs, Q b) ↔ ∀ a ∈ as, P a := by
  induction h with
  | nil => simp
  | cons hab _ ih => rw [List.forall_mem_cons, List.forall_mem_cons, hiff _ _ hab, ih]

namespace Pipeline.Completes

variable {p : Pipeline} {files : PathSet} {fs : FileSystem} {r : RunResult}
  {history : List RunEvent}

theorem append (h : Completes p files fs r history) (more : List RunEvent) :
    Completes p files fs r (history ++ more) :=
  { h with started := fun k hk => List.mem_append_left more (h.started k hk) }

/-- No worker failed exactly if the processes of all workers ended well. -/
theorem failedWorkers_eq_nil_iff (h : Completes p files fs r history) : r.failedWorkers = [] ↔
    ∀ k < p.workers, ∃ b, (p.tools .runtime).outcome k = .ended b ∧ b.exitCode = 0 := by
  rw [RunResult.failedWorkers_eq_nil_iff,
    forall_mem_iff_of_forall₂ h.ended fun _ _ hend => hend.succeeded_iff]
  simp only [List.mem_range]

/-- A worker failed exactly if the process of one did. -/
theorem failedWorkers_ne_nil_iff (h : Completes p files fs r history) :
    r.failedWorkers ≠ [] ↔ ∃ k < p.workers, ((p.tools .runtime).outcome k).Fails := by
  rw [Ne, RunResult.failedWorkers_eq_nil_iff,
    forall_mem_iff_of_forall₂ h.ended fun _ _ hend => hend.succeeded_iff_not_fails]
  simp only [List.mem_range, not_forall, not_not, exists_prop]

end Pipeline.Completes

namespace Command

variable {i : Invocation} {a : Arguments}

/-! ## What is raised -/

/-- The faults that a command raises: on the way to its run, in the run, or over its workers. -/
inductive Raises (i : Invocation) (a : Arguments) (e : Fault) : Prop where
  | before (h : attempt i a = .error e)
  | during (t : Attempt) (h : attempt i a = .ok t) (hrun : t.run.1 = .error e)
  | behind (t : Attempt) (r : RunResult) (h : attempt i a = .ok t) (hrun : t.run.1 = .ok r)
    (hworkers : requireWorkers r = .error e)

theorem Raises.status_run {e : Fault} (h : Raises i a e) :
    (run i a).status = statusOf (.error e) := by
  cases h with
  | before h => exact status_of_attempt_eq_error h
  | during t h hrun =>
    rw [(run_of_attempt h).1, hrun]
    rfl
  | behind t r h hrun hworkers =>
    rw [(run_of_attempt h).1, hrun]
    exact congrArg statusOf hworkers

theorem requireWorkers_eq_error {r : RunResult} {e : Fault} (h : requireWorkers r = .error e) :
    r.failedWorkers ≠ [] ∧ e.blamesWorkers = true := by
  rw [requireWorkers] at h
  split at h
  · cases h
  · next hfailed =>
    cases h
    exact ⟨hfailed, rfl⟩

/-- Workers are blamed for nothing but their own failure. -/
theorem Raises.exists_failed {e : Fault} (h : Raises i a e) (hblame : e.blamesWorkers = true) :
    ∃ t r, attempt i a = .ok t ∧ t.run.1 = .ok r ∧ r.failedWorkers ≠ [] := by
  cases h with
  | before h => exact absurd hblame (by simp [blamesNoWorker_attempt i a e h])
  | during t h hrun =>
    exact absurd hblame (by simp [t.pipeline.blamesNoWorker_run _ _ _ _ e hrun])
  | behind t r h hrun hworkers => exact ⟨t, r, h, hrun, (requireWorkers_eq_error hworkers).1⟩

/-- A command raises a fault, or its run came to its end without a worker that failed. -/
theorem raises_or_succeeds (i : Invocation) (a : Arguments) : (∃ e, Raises i a e) ∨
    ∃ t r, attempt i a = .ok t ∧ t.run.1 = .ok r ∧ r.failedWorkers = [] := by
  match h : attempt i a with
  | .error e => exact .inl ⟨e, .before h⟩
  | .ok t =>
    match hrun : t.run.1 with
    | .error e => exact .inl ⟨e, .during t h hrun⟩
    | .ok r =>
      by_cases hfailed : r.failedWorkers = []
      · exact .inr ⟨t, r, rfl, hrun, hfailed⟩
      · exact .inl ⟨_, .behind t r h hrun (if_neg hfailed)⟩

theorem problemStatus_eq (p : Problem) :
    problemStatus p = if (Fault.problem p).blamesWorkers then 2 else 1 := by
  cases p <;> rfl

/-- A command that raises a fault ends with a status exactly if the fault is a problem. -/
theorem Raises.status_run_eq_ok_iff {e : Fault} {n : Nat} (h : Raises i a e) :
    (run i a).status = .ok n ↔ (∃ p, e = .problem p) ∧ n = if e.blamesWorkers then 2 else 1 := by
  rw [h.status_run]
  cases e with
  | problem p =>
    simp only [statusOf, problemStatus_eq, Except.ok.injEq]
    exact ⟨fun hn => ⟨⟨p, rfl⟩, hn.symm⟩, fun hn => hn.2.symm⟩
  | _ => simp [statusOf]

theorem blamesWorkers_eq_false_iff {p : Problem} : (Fault.problem p).blamesWorkers = false ↔
    ∀ failed total, p ≠ .workerFailures failed total := by
  cases p <;> simp [Fault.blamesWorkers]

/-- What a run that came to its end has done, by the history of its command. -/
theorem completes_of_attempt {t : Attempt} {r : RunResult} (ht : attempt i a = .ok t)
    (hr : t.run.1 = .ok r) :
    t.pipeline.Completes t.files t.session.files r (run i a).history := by
  obtain ⟨-, records, hhistory⟩ := run_of_attempt ht
  rw [hhistory]
  exact (Pipeline.completes_of_run_eq_ok (isReadyFor_of_attempt ht).fresh (Prod.ext hr rfl)).append _

theorem status_run_eq_zero_iff : (run i a).status = .ok 0 ↔
    ∃ t r, attempt i a = .ok t ∧ t.run.1 = .ok r ∧ r.failedWorkers = [] := by
  constructor
  · intro h
    rcases raises_or_succeeds i a with ⟨e, he⟩ | ⟨t, r, ht, hr, hfailed⟩
    · have hstatus := (he.status_run_eq_ok_iff.mp h).2
      split at hstatus <;> cases hstatus
    · exact ⟨t, r, ht, hr, hfailed⟩
  · rintro ⟨t, r, ht, hr, hfailed⟩
    rw [(run_of_attempt ht).1, hr]
    exact congrArg statusOf (if_pos hfailed)

theorem status_run_eq_two_iff : (run i a).status = .ok 2 ↔
    ∃ t r, attempt i a = .ok t ∧ t.run.1 = .ok r ∧ r.failedWorkers ≠ [] := by
  constructor
  · intro h
    rcases raises_or_succeeds i a with ⟨e, he⟩ | hsucceeds
    · refine he.exists_failed ?_
      have hstatus := (he.status_run_eq_ok_iff.mp h).2
      split at hstatus
      · assumption
      · cases hstatus
    · rw [status_run_eq_zero_iff.mpr hsucceeds] at h
      cases h
  · rintro ⟨t, r, ht, hr, hfailed⟩
    have hraises : Raises i a _ := .behind t r ht hr (if_neg hfailed)
    exact hraises.status_run_eq_ok_iff.mpr ⟨⟨_, rfl⟩, rfl⟩

theorem status_run_eq_one_iff : (run i a).status = .ok 1 ↔
    ∃ p, Raises i a (.problem p) ∧ ∀ failed total, p ≠ .workerFailures failed total := by
  constructor
  · intro h
    rcases raises_or_succeeds i a with ⟨e, he⟩ | hsucceeds
    · obtain ⟨⟨p, rfl⟩, hstatus⟩ := he.status_run_eq_ok_iff.mp h
      refine ⟨p, he, blamesWorkers_eq_false_iff.mp ?_⟩
      split at hstatus
      · cases hstatus
      · next hblame => exact Bool.eq_false_iff.mpr hblame
    · rw [status_run_eq_zero_iff.mpr hsucceeds] at h
      cases h
  · rintro ⟨p, hp, hother⟩
    refine hp.status_run_eq_ok_iff.mpr ⟨⟨p, rfl⟩, ?_⟩
    rw [if_neg (Bool.eq_false_iff.mp (blamesWorkers_eq_false_iff.mpr hother))]

end Command

namespace Invocation

/-- **The exit status tells the truth.** On arguments that make sense, a command ends with 0 exactly if
it had a run in which the build and the compiler ended well, all files were scanned, tests were found,
all of them exposed and run by the program, and at least one worker was started and all of them ended
well. It ends with 2 exactly if its run came to its end and a worker failed, and with 1 exactly if
another problem was raised. -/
theorem status_run_of_read {i : Invocation} {a : Arguments} (h : Arguments.read i.words = .ok a) :
    (i.run.status = .ok 0 ↔ ∃ t r, Command.attempt i a = .ok t ∧ t.run.1 = .ok r ∧
      (∀ role, (t.pipeline.tools role).outcome = i.outcome role) ∧
      t.pipeline.Completes t.files t.session.files r i.run.history ∧
      0 < t.pipeline.workers ∧
      ∀ k < t.pipeline.workers, ∃ b, i.outcome .runtime k = .ended b ∧ b.exitCode = 0) ∧
    (i.run.status = .ok 2 ↔ ∃ t r, Command.attempt i a = .ok t ∧ t.run.1 = .ok r ∧
      ∃ k < t.pipeline.workers, (i.outcome .runtime k).Fails) ∧
    (i.run.status = .ok 1 ↔ ∃ p, Command.Raises i a (.problem p) ∧
      ∀ failed total, p ≠ .workerFailures failed total) := by
  have hcommand : i.run = Command.run i a := by
    simp only [run, h]
  rw [hcommand]
  refine ⟨?_, ?_, Command.status_run_eq_one_iff⟩
  · rw [Command.status_run_eq_zero_iff]
    refine exists_congr fun t => exists_congr fun r => and_congr_right fun ht =>
      and_congr_right fun hr => ?_
    have hready := Command.isReadyFor_of_attempt ht
    have hcompletes := Command.completes_of_attempt ht hr
    rw [hcompletes.failedWorkers_eq_nil_iff, hready.tools]
    exact ⟨fun hended => ⟨hready.tools, hcompletes, hready.workers, hended⟩, fun h => h.2.2.2⟩
  · rw [Command.status_run_eq_two_iff]
    refine exists_congr fun t => exists_congr fun r => and_congr_right fun ht =>
      and_congr_right fun hr => ?_
    rw [(Command.completes_of_attempt ht hr).failedWorkers_ne_nil_iff,
      (Command.isReadyFor_of_attempt ht).tools]

/-- The files of a project whose only test file has no test. -/
def testlessFiles : Node :=
  let manifest := "\x7b\"source-directories\":[\"tests\"]\x7d"
  ((Node.empty.put ["elm.json"] (.file manifest.toUTF8.toList false)).put ["tests"] .empty).put
    ["tests", "T.elm"] (.file "module T exposing (..)".toUTF8.toList false)

/-- A call in such a project, with tools that always end well. -/
def testlessCall : Invocation where
  words := []
  bindings := fun name => if name = "ELM_TEST_INTERFACE_DUMP" then some "dump" else none
  variableSource := .none
  executable := Command.name
  files := ⟨testlessFiles, some []⟩
  homeOf := fun _ => none
  processors := 1
  terminal := false
  outcome := fun role _ => .ended ⟨0, if role = .dump then "[]" else "", ""⟩

/-- Without a test the command tells of a problem, though no tool does. -/
theorem status_testlessCall : testlessCall.run.status = .ok 1 ∧
    ∃ p, Command.Raises testlessCall {} (.problem p) ∧
      ∀ failed total, p ≠ .workerFailures failed total :=
  have hstatus : testlessCall.run.status = .ok 1 := by decide +kernel
  ⟨hstatus, (@status_run_of_read testlessCall {} rfl).2.2.mp hstatus⟩

end Invocation

end ElmSuite
