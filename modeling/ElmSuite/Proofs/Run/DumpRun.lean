import ElmSuite.Proofs.Run.Action
import ElmSuite.Run.Dump

/-!
# A run of the dump tool

The dump tool is started once, and awaited once if it runs. Whatever becomes of it there is
one answer, and beside it only notes are left.
-/

namespace ElmSuite.Dump

/-- The step that reads the tests of the modules in a table from what the dump tool printed. -/
def collectTests (table : NameMap Path) (testType stdout : String) :
    Action (NameMap ModuleTests) := do
  let records ← Action.lift (InterfaceDump.read stdout)
  let tests := InterfaceDump.collect table testType records
  Action.note .info ("Interface dump reported " ++ toString tests.size ++
    " module(s) with top-level tests")
  return tests

/-- What is made of the outcome of a start. -/
def answer (executable : String) (table : NameMap Path) (testType : String) :
    ToolOutcome → Except Fault (NameMap ModuleTests)
  | .notStarted _ => .error (.problem (.dumpNotStarted executable))
  | .lost _ | .garbled _ => .error (.problem .unreadableDump)
  | .ended r => (InterfaceDump.read r.stdout).map (InterfaceDump.collect table testType)

/-- The events of waiting for a process, if there is one. -/
def awaited (process : Nat) : ToolOutcome → List RunEvent
  | .notStarted _ => []
  | _ => [.wait .dump process]

/-- Reading what a process printed notes what was found. -/
theorem run_collectTests (table : NameMap Path) (testType stdout : String) (s : Session) :
    ∃ notes : List LogRecord, (collectTests table testType stdout).run s =
      ((InterfaceDump.read stdout).map (InterfaceDump.collect table testType),
        s.record (notes.map .note)) := by
  rw [collectTests]
  cases InterfaceDump.read stdout with
  | error fault =>
    rw [Action.run_bind_of_error (Action.run_lift (.error fault) s)]
    exact ⟨[], by simp [Session.record, Except.map]⟩
  | ok records =>
    rw [Action.run_bind_of_ok (Action.run_lift (.ok records) s)]
    exact ⟨[_], rfl⟩

/-- The dump tool is started once, awaited once if it runs, and the rest is notes. -/
theorem run_readTests (tools : Toolbox) (root : Path) (table : NameMap Path) (testType : String)
    (s : Session) : ∃ notes : List LogRecord,
    (readTests tools root table testType).run s =
      (answer (tools .dump).executable table testType ((tools .dump).outcome (s.starts .dump)),
        s.record (.start .dump (arguments root) (some root) ::
          (awaited (s.starts .dump) ((tools .dump).outcome (s.starts .dump)) ++
            notes.map .note))) := by
  rw [readTests]
  cases houtcome : (tools .dump).outcome (s.starts .dump) with
  | notStarted reason =>
    rw [Action.run_bind_of_ok (Toolbox.run_start_of_notStarted houtcome)]
    exact ⟨[], rfl⟩
  | lost _ | garbled _ =>
    rw [Action.run_bind_of_ok (Toolbox.run_start_of_started (by simp [houtcome]))]
    dsimp only
    rw [Action.run_bind_of_ok (Toolbox.run_wait ..), houtcome, Session.record_record]
    exact ⟨[], rfl⟩
  | ended r =>
    rw [Action.run_bind_of_ok (Toolbox.run_start_of_ended houtcome)]
    dsimp only
    rw [Action.run_bind_of_ok (Toolbox.run_wait ..), houtcome, Session.record_record]
    dsimp only
    cases r.succeeded with
    | true =>
      obtain ⟨notes, hrun⟩ := run_collectTests table testType r.stdout
        (s.record [.start .dump (arguments root) (some root), .wait .dump (s.starts .dump)])
      refine ⟨notes, hrun.trans ?_⟩
      rw [Session.record_record]
      rfl
    | false =>
      rw [if_neg Bool.false_ne_true, Action.run_bind_of_ok (Action.run_note ..), Session.note,
        Session.record_record]
      obtain ⟨notes, hrun⟩ := run_collectTests table testType r.stdout
        (s.record [.start .dump (arguments root) (some root), .wait .dump (s.starts .dump),
          .note ⟨.warning, exitWarning (tools .dump).executable r⟩])
      refine ⟨⟨.warning, exitWarning (tools .dump).executable r⟩ :: notes, hrun.trans ?_⟩
      rw [Session.record_record]
      rfl

end ElmSuite.Dump
