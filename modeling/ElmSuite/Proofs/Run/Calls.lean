import ElmSuite.Proofs.Run.Abort

/-!
# Calls one after the other

A pipeline can be called again, on whatever files there are by then. Every call ends in the
stage that tells whether it raised a fault. The reason for an abort is replaced by a call that
raises and stays where a call returns: it is that of the latest call that raised, and
belongs to the latest call unless this one returned behind one that raised.
-/

namespace ElmSuite

/-- What a pipeline is called for. -/
inductive CallKind where
  | run
  | discover
  deriving DecidableEq

/-- A call on a pipeline. -/
structure Call where
  kind : CallKind
  testFiles : PathSet
  options : RunOptions := {}
  anyArguments : Bool := false
  /-- How the tasks beside the build get done. -/
  schedule : Schedule := .buildFirst
  /-- The files that the call finds. -/
  found : FileSystem

/-- The fault that is raised, if any. -/
def raised {α : Type} : Except Fault α → Option Fault
  | .ok _ => none
  | .error e => some e

/-- The last fault that is raised by calls. -/
def lastRaised (faults : List (Option Fault)) : Option Fault := (faults.filterMap id).getLast?

/-- Whether a session tells what its latest call raised. -/
structure Session.Tells (s : Session) (fault : Option Fault) : Prop where
  stage : s.stage = if fault.isSome then .aborted else .done
  reason : s.abortReason = fault

namespace Pipeline

/-- A call in a session. The result is what it raises. -/
def call (p : Pipeline) (c : Call) (s : Session) : Option Fault × Session :=
  let q := { p with schedule := c.schedule }
  let s := { s with files := c.found }
  match c.kind with
  | .run => (q.run c.testFiles c.options c.anyArguments s).map raised id
  | .discover => (q.discover c.testFiles c.options c.anyArguments s).map raised id

/-- Calls in a session, one after the other. The result is what each of them raises. -/
def calls (p : Pipeline) : List Call → Session → List (Option Fault) × Session
  | [], s => ([], s)
  | c :: rest, s =>
    let (fault, after) := p.call c s
    let (faults, last) := p.calls rest after
    (fault :: faults, last)

variable {p : Pipeline}

/-! ## One call -/

/-- What is done as a whole run keeps the reason of an earlier abort, unless it raises. -/
theorem asRun_leaves {α : Type} {spared : List RunEffect} {stages : List Stage} {x : Action α}
    (hx : Action.Passes spared stages x) (s : Session) :
    (asRun x s).2.stage = (if (raised (asRun x s).1).isSome then .aborted else .done) ∧
      (asRun x s).2.abortReason = (raised (asRun x s).1).or s.abortReason := by
  match hrun : x.run s with
  | (.ok a, after) =>
    obtain ⟨events, passed, hadds, -⟩ := hx s
    rw [hrun] at hadds
    rw [asRun_of_ok hrun]
    exact ⟨rfl, hadds.reason⟩
  | (.error e, after) =>
    rw [asRun_of_error hrun]
    exact ⟨rfl, rfl⟩

theorem call_leaves (c : Call) (s : Session) :
    (p.call c s).2.stage = (if (p.call c s).1.isSome then .aborted else .done) ∧
      (p.call c s).2.abortReason = (p.call c s).1.or s.abortReason := by
  rw [call]
  cases c.kind with
  | run =>
    dsimp only [Prod.map]
    rw [run_eq]
    exact asRun_leaves passes_run { s with files := c.found }
  | discover => exact asRun_leaves passes_discoverTests { s with files := c.found }

/-! ## Several calls -/

theorem lastRaised_cons (fault : Option Fault) (faults : List (Option Fault)) :
    lastRaised (fault :: faults) = (lastRaised faults).or fault := by
  cases fault with
  | none => exact Option.or_none.symm
  | some e =>
    change ((faults.filterMap id).cons e).getLast? = (faults.filterMap id).getLast?.or (some e)
    rw [List.getLast?_cons]
    cases (faults.filterMap id).getLast? <;> rfl

theorem lastRaised_concat (faults : List (Option Fault)) (fault : Option Fault) :
    lastRaised (faults ++ [fault]) = fault.or (lastRaised faults) := by
  cases fault with
  | none => simp [lastRaised]
  | some e => simp [lastRaised]

theorem lastRaised_eq_none_iff {faults : List (Option Fault)} :
    lastRaised faults = none ↔ ∀ fault ∈ faults, fault = none := by
  rw [lastRaised, List.getLast?_eq_none_iff, List.filterMap_eq_nil_iff]
  rfl

theorem calls_cons (c : Call) (rest : List Call) (s : Session) :
    p.calls (c :: rest) s = ((p.call c s).1 :: (p.calls rest (p.call c s).2).1,
      (p.calls rest (p.call c s).2).2) := rfl

/-- Calls leave the reason of the latest one that raised, or that of the session before them. -/
theorem abortReason_calls (calls : List Call) (s : Session) :
    (p.calls calls s).2.abortReason = (lastRaised (p.calls calls s).1).or s.abortReason := by
  induction calls generalizing s with
  | nil => rfl
  | cons c rest ih => rw [calls_cons, ih, (call_leaves c s).2, lastRaised_cons, Option.or_assoc]

theorem calls_concat (calls : List Call) (c : Call) (s : Session) :
    p.calls (calls ++ [c]) s = ((p.calls calls s).1 ++ [(p.call c (p.calls calls s).2).1],
      (p.call c (p.calls calls s).2).2) := by
  induction calls generalizing s with
  | nil => rfl
  | cons first rest ih => rw [List.cons_append, calls_cons, ih, calls_cons, List.cons_append]

/-- **What calls leave behind.** After every call the stage tells whether it raised, and the reason
for an abort is that of the latest call that raised. Stage and reason are those of the latest call,
or as well agree with each other, if and only if it raised or no call did. -/
theorem calls_leave (p : Pipeline) (files : FileSystem) (before : List Call) (latest : Call) :
    ∃ faults fault after,
      p.calls (before ++ [latest]) { files := files } = (faults ++ [fault], after) ∧
      after.stage = (if fault.isSome then .aborted else .done) ∧
      after.abortReason = lastRaised (faults ++ [fault]) ∧
      (after.Tells fault ↔ fault.isSome ∨ ∀ earlier ∈ faults, earlier = none) ∧
      ((after.abortReason.isSome ↔ after.stage = .aborted) ↔ after.Tells fault) := by
  have hreason := abortReason_calls (p := p) (before ++ [latest]) { files := files }
  rw [calls_concat, Option.or_none] at hreason
  obtain ⟨hstage, -⟩ := call_leaves (p := p) latest (p.calls before { files := files }).2
  refine ⟨_, _, _, calls_concat before latest _, hstage, hreason, ?_⟩
  dsimp only at hreason
  generalize (p.call latest (p.calls before { files := files }).2).2 = after at hreason hstage ⊢
  generalize (p.call latest (p.calls before { files := files }).2).1 = fault at hreason hstage ⊢
  generalize (p.calls before { files := files }).1 = faults at hreason ⊢
  rw [lastRaised_concat] at hreason
  have htells : after.Tells fault ↔ after.abortReason = fault := ⟨(·.reason), fun h => ⟨hstage, h⟩⟩
  rw [htells, ← lastRaised_eq_none_iff, hreason, hstage]
  cases fault with
  | none => cases lastRaised faults <;> simp
  | some e => simp

/-- A call on a file that there is not, and one on the file of the project. -/
def lostThenSolo : List Call :=
  [lostFile, soloFile].map fun file =>
    { kind := .discover, testFiles := PathSet.ofList [file], found := soloSession.files }

/-- The second call returns, and the reason for the abort of the first one is left. -/
theorem calls_lostThenSolo :
    (soloPipeline.calls lostThenSolo soloSession).1 =
      [some (.problem (.unreadableSource (some lostFile))), none] ∧
    (soloPipeline.calls lostThenSolo soloSession).2.stage = .done ∧
    (soloPipeline.calls lostThenSolo soloSession).2.abortReason =
      some (.problem (.unreadableSource (some lostFile))) := by
  -- The calls are evaluated once for all that is told of them.
  have hcalls : (fun r => (r.1, r.2.stage, r.2.abortReason))
      (soloPipeline.calls lostThenSolo soloSession) =
        ([some (.problem (.unreadableSource (some lostFile))), none], .done,
          some (.problem (.unreadableSource (some lostFile)))) := by
    decide +kernel
  simpa only [Prod.mk.injEq] using hcalls

end Pipeline

end ElmSuite
