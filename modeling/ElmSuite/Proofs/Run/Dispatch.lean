import ElmSuite.Proofs.Run.Workers

/-!
# A dispatch to workers

Starting `count` workers makes `count` starts of the runtime, whatever becomes of each of
them, and each process that runs is awaited once, after the last start. The results come in
the order of the workers, and the result of a worker tells of its own start alone.

Processes whose output is no text are left out here: waiting for such a process is a fault
of the run, and no outcome of a worker.
-/

namespace ElmSuite

/-- Whether a start of a tool leads to a process. -/
def ToolOutcome.isStarted : ToolOutcome → Bool
  | .notStarted _ => false
  | _ => true

namespace Workers

/-- What the result of a worker tells, by what its start led to. -/
structure Tells (index : Nat) (outcome : ToolOutcome) (w : WorkerResult) : Prop where
  index : w.index = index
  /-- What could not be started or awaited has failed, for the reason that there was. -/
  failed : ∀ reason, outcome = .notStarted reason ∨ outcome = .lost reason →
    w.exitCode = -1 ∧ w.error = some reason
  /-- What ended has its exit code, and what it complained of if it did. -/
  ended : ∀ r, outcome = .ended r → w.exitCode = r.exitCode ∧
    w.error = if Text.trimString r.stderr = "" then none else some (Text.trimString r.stderr)

theorem EndsAs.tells {index : Nat} {outcome : ToolOutcome} {w : WorkerResult}
    (h : EndsAs index outcome w) : Tells index outcome w := by
  cases h with
  | notStarted reason | lost reason =>
    refine ⟨rfl, ?_, ?_⟩
    · intro other hother
      simpa [failure] using hother
    · intro r hr
      cases hr
  | ended r =>
    refine ⟨rfl, ?_, ?_⟩
    · intro reason hreason
      simp at hreason
    · intro other hother
      obtain rfl := ToolOutcome.ended.inj hother
      exact ⟨rfl, rfl⟩

variable {tools : Toolbox} {program : Path} {directory : Option Path} {count : Nat}

/-! ## Events -/

/-- Keeping at most one thing of each item is choosing items. -/
theorem flatMap_ite {α β : Type} (items : List α) (p : α → Bool) (f : α → β) :
    (items.flatMap fun a => if p a then [f a] else []) = (items.filter p).map f := by
  induction items with
  | nil => rfl
  | cons a rest ih => cases h : p a <;> simp [h, ih]

theorem filter_startEvents (index : Nat) (outcome : ToolOutcome) :
    (startEvents program directory count index outcome).filter (!·.isNote) =
      [startEvent program directory count index] := by
  cases outcome <;> rfl

theorem filter_settleEvents (index process : Nat) (outcome : ToolOutcome) :
    (settleEvents index process outcome).filter (!·.isNote) =
      if outcome.isStarted then [.wait .runtime process] else [] := by
  cases outcome with
  | ended r =>
    cases h : r.succeeded <;> simp [settleEvents, h, RunEvent.isNote, ToolOutcome.isStarted]
  | _ => rfl

variable (outcome : Nat → ToolOutcome) (workers : List Nat)

/-- Starting workers is one start for each of them. -/
theorem filter_starts : (workers.flatMap fun i =>
    startEvents program directory count i (outcome i)).filter (!·.isNote) =
      workers.map (startEvent program directory count) := by
  simp only [List.filter_flatMap, filter_startEvents, List.map_eq_flatMap]

/-- Settling workers is waiting for those that run. -/
theorem filter_settles (process : Nat → Nat) : (workers.flatMap fun i =>
    settleEvents i (process i) (outcome i)).filter (!·.isNote) =
      (workers.filter fun i => (outcome i).isStarted).map fun i => .wait .runtime (process i) := by
  simp only [List.filter_flatMap, filter_settleEvents, flatMap_ite]

/-! ## Results -/

/-- Workers all have results if what they print is text. -/
theorem exists_settled {outcome : Nat → ToolOutcome}
    (h : ∀ i < count, ∀ flaw, outcome i ≠ .garbled flaw) :
    ∃ results, ((List.range count).mapM fun i => settled i (outcome i)) = .ok results := by
  cases hresults : (List.range count).mapM fun i => settled i (outcome i) with
  | ok results => exact ⟨results, rfl⟩
  | error fault =>
    obtain ⟨before, i, rest, hrange, -, hi⟩ := mapM_eq_error_iff.mp hresults
    have hlt : i < count := List.mem_range.mp (by simp [hrange])
    cases hend : outcome i with
    | garbled flaw => exact absurd hend (h i hlt flaw)
    | notStarted | lost | ended =>
      rw [hend] at hi
      cases hi

/-- Results that tell of the workers one by one come in their order. -/
theorem map_index_of_tells {outcome : Nat → ToolOutcome} {results : List WorkerResult}
    (h : List.Forall₂ (fun i w => Tells i (outcome i) w) (List.range count) results) :
    results.map (·.index) = List.range count := by
  have hindex : List.Forall₂ (fun i w => i = WorkerResult.index w) (List.range count) results :=
    h.imp fun i w htells => htells.index.symm
  rw [← List.forall₂_map_right_iff, List.forall₂_eq_eq_eq] at hindex
  exact hindex.symm

theorem mem_failedWorkers {r : RunResult} {i : Nat} :
    i ∈ r.failedWorkers ↔ ∃ w ∈ r.workers, w.index = i ∧ w.exitCode ≠ 0 := by
  simp only [RunResult.failedWorkers, WorkerResult.succeeded, List.mem_map, List.mem_filter,
    Bool.not_eq_true', decide_eq_false_iff_not]
  constructor
  · intro h
    obtain ⟨w, ⟨hw, hexit⟩, rfl⟩ := h
    exact ⟨w, hw, rfl, hexit⟩
  · intro h
    obtain ⟨w, hw, rfl, hexit⟩ := h
    exact ⟨w, ⟨hw, hexit⟩, rfl⟩

/-- The workers that failed are told in order. -/
theorem failedWorkers_ascending {r : RunResult}
    (h : r.workers.map (·.index) = List.range count) : r.failedWorkers.Pairwise (· < ·) := by
  have hsublist : r.failedWorkers.Sublist (List.range count) := by
    rw [← h]
    exact List.filter_sublist.map _
  exact List.pairwise_lt_range.sublist hsublist

/-- **A dispatch is complete**: it starts every worker, in order and whatever comes of the others,
awaits each process once after the last start, and gives one result for each worker, in their
order, that tells of its own start. The workers that failed are those with another exit code than
zero. -/
theorem run_dispatch_complete {s : Session}
    (hread : ∀ i < count, ∀ flaw, (tools .runtime).outcome (s.starts .runtime + i) ≠ .garbled flaw) :
    ∃ results events,
      (dispatch tools count program directory).run s = (.ok results, s.record events) ∧
      events.filter (!·.isNote) =
        ((List.range count).map fun i =>
          .start .runtime [toString program, toString i, toString count] directory) ++
        (((List.range count).filter fun i =>
          ((tools .runtime).outcome (s.starts .runtime + i)).isStarted).map fun i =>
            .wait .runtime (s.starts .runtime + i)) ∧
      results.map (·.index) = List.range count ∧
      List.Forall₂ (fun i w => Tells i ((tools .runtime).outcome (s.starts .runtime + i)) w)
        (List.range count) results ∧
      ∀ r : RunResult, r.workers = results → r.failedWorkers.Pairwise (· < ·) ∧
        ∀ i, i ∈ r.failedWorkers ↔ ∃ w ∈ results, w.index = i ∧ w.exitCode ≠ 0 := by
  obtain ⟨results, hresults⟩ := exists_settled hread
  obtain ⟨started, hrun⟩ := @run_dispatch_of_settled tools program directory count s _ hresults
  have htells : List.Forall₂ (fun i w =>
      Tells i ((tools .runtime).outcome (s.starts .runtime + i)) w) (List.range count) results :=
    (mapM_eq_ok_iff.mp hresults).imp fun i w h => (settled_eq_ok_iff.mp h).tells
  have hindex := map_index_of_tells htells
  refine ⟨results, _, hrun, ?_, hindex, htells, ?_⟩
  · rw [List.filter_append, filter_starts, List.filter_cons_of_neg (by simp [RunEvent.isNote]),
      filter_settles]
    rfl
  · intro r hr
    rw [← hr] at hindex ⊢
    exact ⟨failedWorkers_ascending hindex, fun i => mem_failedWorkers⟩

/-- A runtime with a start in vain, a process that is lost and two that end. -/
def mixedTools : Toolbox := fun _ => ⟨"node", fun
  | 0 => .notStarted "no such file"
  | 1 => .lost "no child"
  | 2 => .ended { exitCode := 3, stderr := " boom\n" }
  | _ => .ended { exitCode := 0 }⟩

/-- The worker that ends well is started and awaited after three that fail in different ways. -/
theorem run_dispatch_mixedTools :
    (∀ i < 4, ∀ flaw, (mixedTools .runtime).outcome (0 + i) ≠ .garbled flaw) ∧
      ∃ results events, (dispatch mixedTools 4 ⟨.root, ["elm.js"]⟩ none).run
          { files := ⟨.dir [], some []⟩ } =
          (.ok results, Session.record { files := ⟨.dir [], some []⟩ } events) ∧
        events.filter (!·.isNote) =
          [.start .runtime ["/elm.js", "0", "4"] none, .start .runtime ["/elm.js", "1", "4"] none,
            .start .runtime ["/elm.js", "2", "4"] none, .start .runtime ["/elm.js", "3", "4"] none,
            .wait .runtime 1, .wait .runtime 2, .wait .runtime 3] ∧
        results = [⟨0, -1, some "no such file"⟩, ⟨1, -1, some "no child"⟩, ⟨2, 3, some "boom"⟩,
          ⟨3, 0, none⟩] ∧
        ∀ r : RunResult, r.workers = results → r.failedWorkers.Pairwise (· < ·) := by
  have hread : ∀ i < 4, ∀ flaw, (mixedTools .runtime).outcome (0 + i) ≠ .garbled flaw := by
    intro i hi flaw
    match i with
    | 0 | 1 | 2 | 3 => simp [mixedTools]
  obtain ⟨results, events, hrun, hevents, -, -, hfailed⟩ :=
    @run_dispatch_complete mixedTools ⟨.root, ["elm.js"]⟩ none 4 { files := ⟨.dir [], some []⟩ } hread
  have hresults : ((dispatch mixedTools 4 ⟨.root, ["elm.js"]⟩ none).run
      { files := ⟨.dir [], some []⟩ }).1 = .ok [⟨0, -1, some "no such file"⟩,
        ⟨1, -1, some "no child"⟩, ⟨2, 3, some "boom"⟩, ⟨3, 0, none⟩] := by decide +kernel
  rw [hrun, Except.ok.injEq] at hresults
  refine ⟨hread, results, events, hrun, ?_, hresults, fun r hr => (hfailed r hr).1⟩
  rw [hevents]
  decide +kernel

end Workers

end ElmSuite
