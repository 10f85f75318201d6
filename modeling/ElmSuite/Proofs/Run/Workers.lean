import ElmSuite.Proofs.Results
import ElmSuite.Proofs.Run.Effects

/-!
# What comes of the workers

Each worker comes to what its start leads to, whatever the others do: its result tells
that it could not be started or awaited, or how it ended. Only output that is no text
ends the run instead.

All workers are started before the first is awaited. A step that starts or settles one
worker records events that depend on the outcome of its own start only, and a dispatch
records those of all starts, followed by those of all workers that are settled.
-/

namespace ElmSuite

namespace Action

variable {α β : Type} {f : α → Action β} {result : α → Except Fault β}

/-- Steps that are done one for each item of a list give what they give on their own. -/
theorem run_mapM_fst (h : ∀ a s, ((f a).run s).1 = result a) (items : List α) (s : Session) :
    ((items.mapM f).run s).1 = items.mapM result := by
  induction items generalizing s with
  | nil => rfl
  | cons a rest ih =>
    rw [List.mapM_cons]
    match hrun : (f a).run s with
    | (.error e, after) =>
      have ha : result a = .error e := by rw [← h a s, hrun]
      rw [run_bind_of_error hrun, mapM_cons_of_error ha]
    | (.ok b, after) =>
      have ha : result a = .ok b := by rw [← h a s, hrun]
      rw [run_bind_of_ok hrun, mapM_cons_of_ok ha, ← ih after]
      match hrest : (rest.mapM f).run after with
      | (.error e, last) => rw [run_bind_of_error hrest, Except.map]
      | (.ok bs, last) => rw [run_bind_of_ok hrest, run_pure, Except.map]

/-- Steps that record events, one for each item of a list, record the events of all items if all
have results. -/
theorem run_mapM_of_record {events : α → List RunEvent}
    (h : ∀ a s, (f a).run s = (result a, s.record (events a))) {items : List α} {results : List β}
    (hresults : items.mapM result = .ok results) (s : Session) :
    (items.mapM f).run s = (.ok results, s.record (items.flatMap events)) := by
  induction items generalizing results s with
  | nil =>
    cases hresults
    simp [Session.record]
  | cons a rest ih =>
    obtain ⟨b, bs, hb, hbs, rfl⟩ := List.forall₂_cons_left_iff.mp (mapM_eq_ok_iff.mp hresults)
    have hfirst := h a s
    rw [hb] at hfirst
    rw [List.mapM_cons, run_bind_of_ok hfirst, run_bind_of_ok (ih (mapM_eq_ok_iff.mpr hbs) _),
      run_pure, Session.record_record, List.flatMap_cons]

end Action

namespace Workers

variable {tools : Toolbox} {program : Path} {directory : Option Path} {count : Nat}

/-- What a start leads to for a worker: its process, or its failure. -/
def startedAs (index process : Nat) : ToolOutcome → Except WorkerResult (Nat × Nat)
  | .notStarted reason => .error (failure index reason)
  | _ => .ok (index, process)

/-- Whether a worker ended with a result, by what its start led to. -/
inductive EndsAs (index : Nat) : ToolOutcome → WorkerResult → Prop where
  | notStarted (reason : String) : EndsAs index (.notStarted reason) (failure index reason)
  | lost (reason : String) : EndsAs index (.lost reason) (failure index reason)
  | ended (r : ProcessResult) : EndsAs index (.ended r) (ending index r)

/-- A worker ends well exactly if its process does. -/
theorem EndsAs.succeeded_iff {index : Nat} {outcome : ToolOutcome} {w : WorkerResult}
    (h : EndsAs index outcome w) :
    w.succeeded = true ↔ ∃ r, outcome = .ended r ∧ r.exitCode = 0 := by
  cases h with
  | notStarted reason => simp [WorkerResult.succeeded, failure]
  | lost reason => simp [WorkerResult.succeeded, failure]
  | ended r =>
    simp only [WorkerResult.succeeded, ending, ToolOutcome.ended.injEq, exists_eq_left']
    exact decide_eq_true_iff

/-- What is made of the outcome of a start: the result of the worker, if there is one. -/
def settled (index : Nat) : ToolOutcome → Except Fault WorkerResult
  | .notStarted reason | .lost reason => .ok (failure index reason)
  | .garbled flaw => .error (.garbledText flaw)
  | .ended r => .ok (ending index r)

theorem settled_eq_ok_iff {index : Nat} {outcome : ToolOutcome} {w : WorkerResult} :
    settled index outcome = .ok w ↔ EndsAs index outcome w := by
  constructor
  · intro h
    cases outcome with
    | garbled flaw => cases h
    | notStarted reason =>
      cases h
      exact .notStarted reason
    | lost reason =>
      cases h
      exact .lost reason
    | ended r =>
      cases h
      exact .ended r
  · intro h
    cases h <;> rfl

/-! ## One worker -/

/-- The start of a worker. -/
def startEvent (program : Path) (directory : Option Path) (count index : Nat) : RunEvent :=
  .start .runtime (arguments program index count) directory

/-- The events of starting a worker. -/
def startEvents (program : Path) (directory : Option Path) (count index : Nat)
    (outcome : ToolOutcome) : List RunEvent :=
  startEvent program directory count index :: match outcome with
    | .notStarted reason =>
      [.note ⟨.error, "Unable to start test worker " ++ toString index ++ ": " ++ reason⟩]
    | _ => []

/-- The events of settling a worker. -/
def settleEvents (index process : Nat) : ToolOutcome → List RunEvent
  | .notStarted _ => []
  | .lost reason => [.wait .runtime process,
      .note ⟨.error, "Lost test worker " ++ toString index ++ ": " ++ reason⟩]
  | .garbled _ => [.wait .runtime process]
  | .ended r => .wait .runtime process :: if r.succeeded then [] else
      [.note ⟨.warning,
        "Test worker " ++ toString index ++ " exited with status " ++ toString r.exitCode⟩]

theorem run_startOne (index : Nat) (s : Session) :
    (startOne tools program directory count index).run s =
      (.ok (startedAs index (s.starts .runtime) ((tools .runtime).outcome (s.starts .runtime))),
        s.record (startEvents program directory count index
          ((tools .runtime).outcome (s.starts .runtime)))) := by
  rw [startOne]
  cases hstart : (tools .runtime).outcome (s.starts .runtime) with
  | notStarted reason =>
    rw [Action.run_bind_of_ok (Toolbox.run_start_of_notStarted hstart)]
    dsimp only
    rw [Action.run_bind_of_ok (Action.run_note ..), Session.note, Session.record_record]
    rfl
  | lost | garbled | ended =>
    rw [Action.run_bind_of_ok (Toolbox.run_start_of_started (by simp [hstart]))]
    rfl

/-- A start counts once. -/
theorem countP_startEvents (index : Nat) (outcome : ToolOutcome) :
    (startEvents program directory count index outcome).countP (RunEvent.isStartOf .runtime) = 1 := by
  cases outcome <;> rfl

/-- A worker that was started, or was not, is settled as its start led to. -/
theorem run_settle (index process : Nat) (s : Session) :
    (settle tools (startedAs index process ((tools .runtime).outcome process))).run s =
      (settled index ((tools .runtime).outcome process),
        s.record (settleEvents index process ((tools .runtime).outcome process))) := by
  cases hend : (tools .runtime).outcome process with
  | notStarted reason => simp [startedAs, settle, settled, settleEvents, Session.record]
  | lost reason =>
    refine (Action.run_bind_of_ok (Toolbox.run_wait ..)).trans ?_
    rw [hend]
    dsimp only
    rw [Action.run_bind_of_ok (Action.run_note ..), Session.note, Session.record_record]
    rfl
  | garbled flaw =>
    refine (Action.run_bind_of_ok (Toolbox.run_wait ..)).trans ?_
    rw [hend]
    rfl
  | ended r =>
    refine (Action.run_bind_of_ok (Toolbox.run_wait ..)).trans ?_
    rw [hend, settleEvents]
    dsimp only
    cases r.succeeded with
    | true => rfl
    | false =>
      rw [if_neg Bool.false_ne_true, if_neg Bool.false_ne_true,
        Action.run_bind_of_ok (Action.run_note ..), Session.note, Session.record_record]
      rfl

/-! ## All workers -/

/-- The workers from one on are started one after the other. The process of a worker is named by a
start of the runtime, of which there were `before` when the first worker was started. -/
theorem run_mapM_startOne (before first more : Nat) (s : Session)
    (hfirst : s.starts .runtime = before + first) :
    ((List.range' first more).mapM (startOne tools program directory count)).run s =
      (.ok ((List.range' first more).map fun k =>
          startedAs k (before + k) ((tools .runtime).outcome (before + k))),
        s.record ((List.range' first more).flatMap fun k =>
          startEvents program directory count k ((tools .runtime).outcome (before + k)))) := by
  induction more generalizing first s with
  | zero => simp [Session.record]
  | succ more ih =>
    have hrun := @run_startOne tools program directory count first s
    rw [hfirst] at hrun
    have hmore := ih (first + 1) (s.record (startEvents program directory count first
      ((tools .runtime).outcome (before + first)))) (by
        rw [Session.starts_record, countP_startEvents, hfirst, Nat.add_assoc])
    rw [List.range'_succ, List.mapM_cons, Action.run_bind_of_ok hrun,
      Action.run_bind_of_ok hmore, Action.run_pure, Session.record_record]
    rfl

/-- A dispatch starts all workers, notes how many of them run, and settles one after the other. -/
theorem run_dispatch_eq (s : Session) : ∃ started : LogRecord,
    (dispatch tools count program directory).run s =
      ((List.range count).mapM fun k => settle tools (startedAs k (s.starts .runtime + k)
        ((tools .runtime).outcome (s.starts .runtime + k)))).run
      (s.record (((List.range count).flatMap fun k => startEvents program directory count k
        ((tools .runtime).outcome (s.starts .runtime + k))) ++ [.note started])) := by
  have hstarted := @run_mapM_startOne tools program directory count (s.starts .runtime) 0 count s rfl
  rw [← List.range_eq_range'] at hstarted
  rw [dispatch, Action.run_bind_of_ok hstarted]
  dsimp only
  rw [Action.run_bind_of_ok (Action.run_note ..), List.mapM_map, Session.note,
    Session.record_record]
  exact ⟨_, rfl⟩

/-- A dispatch gives the results of all workers, or the fault of the first one without a result. -/
theorem run_dispatch_fst (s : Session) :
    ((dispatch tools count program directory).run s).1 = (List.range count).mapM fun k =>
      settled k ((tools .runtime).outcome (s.starts .runtime + k)) := by
  obtain ⟨started, hrun⟩ := @run_dispatch_eq tools program directory count s
  rw [hrun]
  apply Action.run_mapM_fst
  intro k t
  rw [run_settle]

/-- A dispatch in which all workers have results records the events of all starts, and then those of
settling the workers. -/
theorem run_dispatch_of_settled {s : Session} {results : List WorkerResult}
    (h : ((List.range count).mapM fun k =>
      settled k ((tools .runtime).outcome (s.starts .runtime + k))) = .ok results) :
    ∃ started : LogRecord, (dispatch tools count program directory).run s =
      (.ok results, s.record (((List.range count).flatMap fun k => startEvents program directory
          count k ((tools .runtime).outcome (s.starts .runtime + k))) ++
        .note started :: (List.range count).flatMap fun k => settleEvents k (s.starts .runtime + k)
          ((tools .runtime).outcome (s.starts .runtime + k)))) := by
  obtain ⟨started, hrun⟩ := @run_dispatch_eq tools program directory count s
  refine ⟨started, hrun.trans ?_⟩
  rw [Action.run_mapM_of_record (fun k t => run_settle k _ t) h, Session.record_record,
    List.append_assoc, List.singleton_append]

/-- **The workers end one by one as their starts lead to**, and all of them were started. -/
theorem run_dispatch_eq_ok {s after : Session} {results : List WorkerResult}
    (hfresh : s.starts .runtime = 0)
    (h : (dispatch tools count program directory).run s = (.ok results, after)) :
    List.Forall₂ (fun k w => EndsAs k ((tools .runtime).outcome k) w) (List.range count) results ∧
      ∀ k < count, startEvent program directory count k ∈ after.history := by
  have hresults := @run_dispatch_fst tools program directory count s
  rw [h] at hresults
  obtain ⟨started, hrun⟩ := @run_dispatch_of_settled tools program directory count s _ hresults.symm
  rw [hfresh] at hresults hrun
  simp only [Nat.zero_add] at hresults hrun
  constructor
  · exact (mapM_eq_ok_iff.mp hresults.symm).imp fun k w => settled_eq_ok_iff.mp
  · intro k hk
    obtain rfl := congrArg Prod.snd (hrun.symm.trans h)
    simp only [Session.history_record, List.mem_append, List.mem_flatMap, List.mem_range]
    exact .inr (.inl ⟨k, hk, List.mem_cons_self ..⟩)

end Workers

end ElmSuite
