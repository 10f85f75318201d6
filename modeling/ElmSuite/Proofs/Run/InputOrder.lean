import ElmSuite.Proofs.AmbiguousNames
import ElmSuite.Proofs.ReorderedDump
import ElmSuite.Proofs.Run.Discovery
import ElmSuite.Proofs.Run.Effects

/-!
# Runs on inputs in another order

Two runs whose files, source directories and dumps differ in order only go the same way
but for what they log: they do the same to the tools and the files, in the same order, and
give the same result or the same fault. Step by step, two actions agree if in sessions that
differ in their logs they have the same outcome and leave such sessions again.
-/

namespace ElmSuite

namespace Session

/-- A session without its log. -/
def quiet (s : Session) : Session := { s with history := s.history.filter (!·.isNote) }

@[simp] theorem quiet_note (s : Session) (records : List LogRecord) :
    (s.note records).quiet = s.quiet := by
  have hnotes : (records.map RunEvent.note).filter (!·.isNote) = [] := by
    simp [List.filter_eq_nil_iff, RunEvent.isNote]
  simp [quiet, note, record, hnotes]

theorem quiet_record (s : Session) (events : List RunEvent) :
    (s.record events).quiet = s.quiet.record (events.filter (!·.isNote)) := by
  simp [quiet, record]

/-- What was started is seen without the log. -/
theorem starts_quiet (s : Session) (role : ToolRole) : s.quiet.starts role = s.starts role := by
  rw [starts, starts, quiet, List.countP_filter]
  congr 1
  funext e
  cases e <;> simp [RunEvent.isStartOf, RunEvent.isNote]

end Session

/-! ## Actions that agree -/

namespace Action

/-- Two actions that, in sessions which differ in their logs, have the same outcome and leave sessions
which differ in their logs. -/
def Agree {α : Type} (x y : Action α) : Prop :=
  ∀ s t : Session, s.quiet = t.quiet →
    (x.run s).1 = (y.run t).1 ∧ (x.run s).2.quiet = (y.run t).2.quiet

namespace Agree

variable {α β : Type}

theorem bind {x y : Action α} {f g : α → Action β} (hxy : Agree x y) (hfg : ∀ a, Agree (f a) (g a)) :
    Agree (x >>= f) (y >>= g) := by
  intro s t hst
  obtain ⟨hresult, hafter⟩ := hxy s t hst
  match hx : x.run s, hy : y.run t with
  | (.ok a, after), (r, after') =>
    rw [hx, hy] at hresult hafter
    obtain rfl : .ok a = r := hresult
    rw [run_bind_of_ok hx, run_bind_of_ok hy]
    exact hfg a after after' hafter
  | (.error e, after), (r, after') =>
    rw [hx, hy] at hresult hafter
    obtain rfl : .error e = r := hresult
    rw [run_bind_of_error hx, run_bind_of_error hy]
    exact ⟨rfl, hafter⟩

theorem pure (a : α) : Agree (pure a : Action α) (Pure.pure a) := fun _ _ hst => ⟨rfl, hst⟩

theorem throw (e : Fault) : Agree (throw e : Action α) (MonadExcept.throw e) :=
  fun _ _ hst => ⟨rfl, hst⟩

theorem fail (p : Problem) : Agree (Action.fail p : Action α) (Action.fail p) := throw _

theorem lift (r : Except Fault α) : Agree (Action.lift r) (Action.lift r) := by
  intro s t hst
  rw [run_lift, run_lift]
  exact ⟨rfl, hst⟩

theorem change {f g : Session → Session}
    (h : ∀ s t, s.quiet = t.quiet → (f s).quiet = (g t).quiet) :
    Agree (Action.change f) (Action.change g) := fun s t hst => ⟨rfl, h s t hst⟩

/-- What goes into the log may differ. -/
theorem notes (records others : List LogRecord) :
    Agree (Action.change (·.note records)) (Action.change (·.note others)) :=
  .change fun s t hst => by rw [Session.quiet_note, Session.quiet_note, hst]

theorem note (level : LogLevel) (message other : String) :
    Agree (Action.note level message) (Action.note level other) :=
  .notes [⟨level, message⟩] [⟨level, other⟩]

/-- Whether a warning is made before is not seen. -/
theorem warned {x y : Action α} (h : Agree x y) (c d : Bool) (level : LogLevel)
    (message other : String) :
    Agree (if c = true then x else Action.note level message >>= fun _ => x)
      (if d = true then y else Action.note level other >>= fun _ => y) := by
  intro s t hst
  cases c with
  | true =>
    cases d with
    | true => exact h s t hst
    | false => exact h s _ (by rw [Session.quiet_note, hst])
  | false =>
    cases d with
    | true => exact h _ t (by rw [Session.quiet_note, hst])
    | false => exact h _ _ (by rw [Session.quiet_note, Session.quiet_note, hst])

theorem record (events : List RunEvent) :
    Agree (Action.change (·.record events)) (Action.change (·.record events)) :=
  .change fun s t hst => by rw [Session.quiet_record, Session.quiet_record, hst]

/-- What goes on from the files of a session. -/
theorem withFiles {f g : Session → Action β} (hfg : ∀ s t, s.files = t.files → Agree (f s) (g t)) :
    Agree (get >>= f) (get >>= g) := by
  intro s t hst
  have hfiles : s.quiet.files = t.quiet.files := by rw [hst]
  rw [run_bind_of_ok (run_get s), run_bind_of_ok (run_get t)]
  exact hfg s t hfiles s t hst

theorem mapM {f g : α → Action β} (hfg : ∀ a, Agree (f a) (g a)) (items : List α) :
    Agree (items.mapM f) (items.mapM g) := by
  induction items with
  | nil => exact pure []
  | cons a items ih =>
    rw [List.mapM_cons, List.mapM_cons]
    exact (hfg a).bind fun b => ih.bind fun bs => pure (b :: bs)

/-! ### Tools -/

theorem start {tools others : Toolbox} {role : ToolRole} (arguments : List String)
    (directory : Option Path)
    (h : ∀ n reason, (tools role).outcome n = .notStarted reason ↔
      (others role).outcome n = .notStarted reason) :
    Agree (tools.start role arguments directory) (others.start role arguments directory) := by
  intro s t hst
  have hstarts : s.starts role = t.starts role := by
    rw [← s.starts_quiet, hst, t.starts_quiet]
  have hrecord : (s.record [.start role arguments directory]).quiet =
      (t.record [.start role arguments directory]).quiet := by
    rw [Session.quiet_record, Session.quiet_record, hst]
  by_cases hreason : ∃ reason, (tools role).outcome (s.starts role) = .notStarted reason
  · obtain ⟨reason, hreason⟩ := hreason
    have hother := (h _ reason).mp hreason
    rw [hstarts] at hother
    rw [Toolbox.run_start_of_notStarted hreason, Toolbox.run_start_of_notStarted hother]
    exact ⟨rfl, hrecord⟩
  · have hnone : ∀ reason, (tools role).outcome (s.starts role) ≠ .notStarted reason :=
      fun reason heq => hreason ⟨reason, heq⟩
    have hother : ∀ reason, (others role).outcome (t.starts role) ≠ .notStarted reason :=
      fun reason heq => hnone reason ((h _ reason).mpr (hstarts ▸ heq))
    rw [Toolbox.run_start_of_started hnone, Toolbox.run_start_of_started hother, hstarts]
    exact ⟨rfl, hrecord⟩

/-- What goes on from the outcomes of a process. -/
theorem wait {tools others : Toolbox} {role : ToolRole} {process : Nat}
    {f g : ToolOutcome → Action β}
    (hfg : Agree (f ((tools role).outcome process)) (g ((others role).outcome process))) :
    Agree (tools.wait role process >>= f) (others.wait role process >>= g) := by
  intro s t hst
  rw [run_bind_of_ok (Toolbox.run_wait ..), run_bind_of_ok (Toolbox.run_wait ..)]
  exact hfg _ _ (by rw [Session.quiet_record, Session.quiet_record, hst])

end Agree

end Action

/-! ## Pipelines that differ in order -/

/-- What a start of the dump tool leads to, up to the order of what is dumped. How a process ends apart
from that does not count. -/
inductive SameOutcome : ToolOutcome → ToolOutcome → Prop
  | refl (o : ToolOutcome) : SameOutcome o o
  | reordered {r r' : ProcessResult} (h : InterfaceDump.SameOutput r.stdout r'.stdout) :
      SameOutcome (.ended r) (.ended r')

theorem SameOutcome.notStarted_iff {o o' : ToolOutcome} (h : SameOutcome o o') (reason : String) :
    o = .notStarted reason ↔ o' = .notStarted reason := by
  cases h with
  | refl => rfl
  | reordered h => exact ⟨nofun, nofun⟩

/-- Two pipelines that differ in the order of their source directories, and in the order of what is
dumped. -/
structure Pipeline.SameButOrder (p q : Pipeline) : Prop where
  root : q.root = p.root
  sourceDirs : ∀ dir, dir ∈ q.sourceDirs ↔ dir ∈ p.sourceDirs
  compiler : q.tools .compiler = p.tools .compiler
  runtime : q.tools .runtime = p.tools .runtime
  dumpExecutable : (q.tools .dump).executable = (p.tools .dump).executable
  dump : ∀ n, SameOutcome ((p.tools .dump).outcome n) ((q.tools .dump).outcome n)
  buildArguments : q.buildArguments = p.buildArguments
  testType : q.testType = p.testType
  generator : q.generator = p.generator
  manifest : q.manifest = p.manifest
  workers : q.workers = p.workers
  schedule : q.schedule = p.schedule

open ElmSuite.Action (Agree)

namespace Compiler

variable {tools others : Toolbox}

theorem agree_start (h : others .compiler = tools .compiler) (arguments : List String)
    (directory : Path) : Agree (start tools arguments directory) (start others arguments directory) := by
  refine (Agree.start arguments (some directory) fun n reason => by rw [h]).bind fun started => ?_
  cases started with
  | ok process => exact .pure _
  | error reason =>
    dsimp only
    rw [h]
    exact .fail _

theorem agree_compileProgram (h : others .compiler = tools .compiler)
    (source output directory : Path) :
    Agree (compileProgram tools source output directory)
      (compileProgram others source output directory) := by
  refine (agree_start h _ directory).bind fun process => Agree.wait ?_
  rw [h]
  exact (Agree.lift _).bind fun _ => .pure _

end Compiler

namespace Workers

variable {tools others : Toolbox}

theorem agree_startOne (h : others .runtime = tools .runtime) (program : Path)
    (directory : Option Path) (count index : Nat) :
    Agree (startOne tools program directory count index)
      (startOne others program directory count index) := by
  refine (Agree.start _ directory fun n reason => by rw [h]).bind fun started => ?_
  cases started with
  | ok process => exact .pure _
  | error reason => exact (Agree.note _ _ _).bind fun _ => .pure _

theorem agree_settle (h : others .runtime = tools .runtime)
    (started : Except WorkerResult (Nat × Nat)) : Agree (settle tools started) (settle others started) := by
  cases started with
  | error failed => exact .pure _
  | ok worker =>
    refine Agree.wait ?_
    rw [h]
    cases (tools .runtime).outcome worker.2 with
    | ended r => exact (Agree.pure _).warned _ _ _ _ _
    | garbled flaw => exact .throw _
    | lost reason => exact (Agree.note _ _ _).bind fun _ => .pure _
    | notStarted reason => exact (Agree.note _ _ _).bind fun _ => .pure _

theorem agree_dispatch (h : others .runtime = tools .runtime) (count : Nat) (program : Path)
    (directory : Option Path) :
    Agree (dispatch tools count program directory) (dispatch others count program directory) :=
  (Agree.mapM (agree_startOne h program directory count) _).bind fun started =>
    (Agree.note _ _ _).bind fun _ => Agree.mapM (agree_settle h) started

end Workers

namespace Dump

variable {tools others : Toolbox}

theorem agree_collectTests {stdout other : String}
    (h : InterfaceDump.SameReading (InterfaceDump.read stdout) (InterfaceDump.read other))
    (table : NameMap Path) (testType : String) :
    Agree (collectTests table testType stdout) (collectTests table testType other) := by
  intro s t hst
  unfold collectTests
  generalize InterfaceDump.read stdout = r at h ⊢
  generalize InterfaceDump.read other = r' at h ⊢
  cases h with
  | error e => exact ⟨rfl, hst⟩
  | @ok records others h =>
    rw [Action.run_bind_of_ok (Action.run_lift (.ok records) s),
      Action.run_bind_of_ok (Action.run_lift (.ok others) t)]
    dsimp only
    rw [h.collect_eq]
    exact ((Agree.note _ _ _).bind fun _ => .pure _) s t hst

/-- The tests of a dump are read whatever its order. -/
theorem agree_readTests (hexecutable : (others .dump).executable = (tools .dump).executable)
    (hdump : ∀ n, SameOutcome ((tools .dump).outcome n) ((others .dump).outcome n)) (root : Path)
    (table : NameMap Path) (testType : String) :
    Agree (readTests tools root table testType) (readTests others root table testType) := by
  refine (Agree.start _ _ fun n reason => (hdump n).notStarted_iff reason).bind fun started => ?_
  cases started with
  | error reason =>
    dsimp only
    rw [hexecutable]
    exact .fail _
  | ok process =>
    refine Agree.wait ?_
    have hsame := hdump process
    generalize (tools .dump).outcome process = o at hsame ⊢
    generalize (others .dump).outcome process = o' at hsame ⊢
    cases hsame with
    | @reordered r r' h =>
      have hcollect := agree_collectTests h.read table testType
      exact hcollect.warned r.succeeded r'.succeeded .warning (exitWarning (tools .dump).executable r)
        (exitWarning (others .dump).executable r')
    | refl =>
      cases o with
      | ended r =>
        have hcollect := agree_collectTests (.refl (InterfaceDump.read r.stdout)) table testType
        exact hcollect.warned r.succeeded r.succeeded .warning
          (exitWarning (tools .dump).executable r) (exitWarning (others .dump).executable r)
      | _ => exact .fail _

end Dump

namespace Pipeline

variable {p q : Pipeline}

theorem agree_enterStage (stage : Stage) : Agree (enterStage stage) (enterStage stage) :=
  .change fun s t hst => by
    change { (s.note _).quiet with stage := stage } = { (t.note _).quiet with stage := stage }
    rw [Session.quiet_note, Session.quiet_note, hst]

/-- The order of source directories does not matter for what their files declare. -/
theorem SameButOrder.moduleTable_eq (h : SameButOrder p q) (files : PathSet) :
    moduleTable files q.sourceDirs = moduleTable files p.sourceDirs := by
  have hclaims : moduleClaims files q.sourceDirs = moduleClaims files p.sourceDirs :=
    moduleClaims_congr fun f m => by simp only [Declares, h.sourceDirs]
  rw [ElmSuite.moduleTable_eq, ElmSuite.moduleTable_eq, hclaims]

theorem agree_buildAndScan (h : SameButOrder p q) (files : PathSet) :
    Agree (p.buildAndScan files) (q.buildAndScan files) := by
  unfold buildAndScan Compiler.startBuild
  rw [h.root, h.buildArguments, h.schedule, h.moduleTable_eq]
  refine (Compiler.agree_start h.compiler _ _).bind fun process => Agree.wait ?_
  rw [h.compiler]
  refine Agree.withFiles fun s t hfiles => ?_
  dsimp only
  rw [hfiles]
  refine (Agree.notes _ _).bind fun _ => ?_
  split
  · refine (Agree.record _).bind fun _ => ?_
    split
    · exact .throw _
    · exact .pure _
  · exact .pure _

theorem agree_discoverTests (h : SameButOrder p q) (files : PathSet) (options : RunOptions)
    (anyArguments : Bool) : Agree (p.discoverTests files options anyArguments)
      (q.discoverTests files options anyArguments) := by
  unfold discoverTests
  rw [h.root, h.testType, h.generator]
  refine (agree_enterStage _).bind fun _ => (agree_buildAndScan h files).bind fun found => ?_
  refine (Dump.agree_readTests h.dumpExecutable h.dump _ _ _).bind fun compiled => ?_
  refine (agree_enterStage _).bind fun _ => (Agree.lift _).bind fun held => ?_
  refine (Agree.lift _).bind fun reconciliation => ?_
  split
  · exact (Agree.fail _).bind fun _ => (agree_enterStage _).bind fun _ => (Agree.lift _).bind fun _ =>
      (Agree.note _ _ _).bind fun _ => .pure _
  · exact (agree_enterStage _).bind fun _ => (Agree.lift _).bind fun _ =>
      (Agree.note _ _ _).bind fun _ => .pure _

theorem agree_writeFile (path : Path) (text : String) :
    Agree (writeFile path text) (writeFile path text) := by
  refine Agree.withFiles fun s t hfiles => ?_
  rw [hfiles]
  split
  · exact .change fun s t hst => by
      rw [Session.quiet_record, Session.quiet_record]
      change Session.record { s.quiet with files := _ } _ = Session.record { t.quiet with files := _ } _
      rw [hst]
  · exact .fail _
  · exact .throw _

theorem agree_execute (h : SameButOrder p q) (program : Program) :
    Agree (p.execute program) (q.execute program) := by
  have hlayout : q.layout = p.layout := congrArg Layout.mk h.root
  have hmanifest : Agree p.writeManifest q.writeManifest := by
    rw [writeManifest, writeManifest, h.manifest, hlayout]
    split
    · exact .pure _
    · exact agree_writeFile _ _
  rw [execute_eq, execute_eq]
  unfold prepare programFile compileDirectory
  rw [hlayout, h.root, h.manifest, h.workers]
  refine ((agree_enterStage _).bind fun _ => hmanifest.bind fun _ => (agree_writeFile _ _).bind fun _ =>
    Compiler.agree_compileProgram h.compiler _ _ _).bind fun compiled => ?_
  exact (Workers.agree_dispatch h.runtime _ _ _).bind fun _ => .pure _

theorem quiet_aborted (e : Fault) {s t : Session} (hst : s.quiet = t.quiet) :
    (aborted e s).quiet = (aborted e t).quiet := by
  change { (s.note _).quiet with stage := .aborted, abortReason := some e } =
    { (t.note _).quiet with stage := .aborted, abortReason := some e }
  rw [Session.quiet_note, Session.quiet_note, hst]

/-- Actions that agree do so as whole runs. -/
theorem asRun_of_agree {α : Type} {x y : Action α} (hxy : Agree x y) (s : Session) :
    (asRun x s).1 = (asRun y s).1 ∧ (asRun x s).2.quiet = (asRun y s).2.quiet := by
  obtain ⟨hresult, hafter⟩ := hxy s s rfl
  match hx : x.run s, hy : y.run s with
  | (.ok a, after), (r, after') =>
    rw [hx, hy] at hresult hafter
    obtain rfl : .ok a = r := hresult
    rw [asRun_of_ok hx, asRun_of_ok hy]
    exact ⟨rfl, (agree_enterStage .done after after' hafter).2⟩
  | (.error e, after), (r, after') =>
    rw [hx, hy] at hresult hafter
    obtain rfl : .error e = r := hresult
    rw [asRun_of_error hx, asRun_of_error hy]
    exact ⟨rfl, quiet_aborted e hafter⟩

/-- **A run does not depend on the order of its inputs**: with the same test files, the same source
directories and dumps of the same records, in any order, it has the same outcome, be it a result or a
fault, and apart from its log it does the same to the tools and to the files, in the same order. -/
theorem run_of_sameButOrder (h : SameButOrder p q) {files others : List Path}
    (hfiles : ∀ file, file ∈ others ↔ file ∈ files) (options : RunOptions) (anyArguments : Bool)
    (s : Session) :
    (q.run (PathSet.ofList others) options anyArguments s).1 =
        (p.run (PathSet.ofList files) options anyArguments s).1 ∧
      (q.run (PathSet.ofList others) options anyArguments s).2.quiet =
        (p.run (PathSet.ofList files) options anyArguments s).2.quiet := by
  have hset : PathSet.ofList others = PathSet.ofList files :=
    Std.ExtTreeSet.ext_mem fun file => by rw [PathSet.mem_ofList, PathSet.mem_ofList, hfiles]
  have hrun := asRun_of_agree (s := s)
    ((agree_discoverTests h (PathSet.ofList files) options anyArguments).bind fun d =>
      (agree_execute h d.program).bind fun done => Agree.pure (RunResult.mk d done.1 done.2))
  rw [hset]
  exact ⟨hrun.1.symm, hrun.2.symm⟩

/-- The project of a single file, with these source directories and this dump. -/
def soloWith (sourceDirs : List Path) (dump : String) : Pipeline :=
  { soloPipeline with
    sourceDirs
    tools
      | .dump => ⟨"dump", fun _ => .ended { exitCode := 0, stdout := dump }⟩
      | role => soloPipeline.tools role }

/-- The test `t` of `A`, and then `B`. -/
def dumpOfAB : String :=
  "[\x7b\"moduleName\":\"A\",\"types\":[\x7b\"name\":\"t\",\"signature\":\"Test.Test\"\x7d]\x7d,\x7b\"moduleName\":\"B\"\x7d]"

/-- `B`, and then the test `t` of `A`. -/
def dumpOfBA : String :=
  "[\x7b\"moduleName\":\"B\"\x7d,\x7b\"moduleName\":\"A\",\"types\":[\x7b\"name\":\"t\",\"signature\":\"Test.Test\"\x7d]\x7d]"

theorem sameOutput_dumps : InterfaceDump.SameOutput dumpOfAB dumpOfBA := by
  let text (s : String) : JsonValue := .string (CodePoints.ofString s)
  let test : JsonValue := .object
    [(CodePoints.ofString "name", text "t"), (CodePoints.ofString "signature", text "Test.Test")]
  let a : JsonValue := .object
    [(CodePoints.ofString "moduleName", text "A"), (CodePoints.ofString "types", .array [test])]
  let b : JsonValue := .object [(CodePoints.ofString "moduleName", text "B")]
  have hab : JsonReader.document dumpOfAB.toList = .ok (.array [a, b]) := by cbv
  have hba : JsonReader.document dumpOfBA.toList = .ok (.array [b, a]) := by cbv
  exact ⟨_, _, hab, hba, _, .swap _ _ _, List.forall₂_same.mpr fun x _ => .refl x⟩

theorem run_soloWith :
    ((soloWith [⟨.root, ["p"]⟩, ⟨.root, ["p"]⟩] dumpOfBA).run (PathSet.ofList [soloFile, soloFile])
          {} false soloSession).1 =
        ((soloWith [⟨.root, ["p"]⟩] dumpOfAB).run (PathSet.ofList [soloFile]) {} false soloSession).1 ∧
      ((soloWith [⟨.root, ["p"]⟩, ⟨.root, ["p"]⟩] dumpOfBA).run (PathSet.ofList [soloFile, soloFile])
          {} false soloSession).2.quiet =
        ((soloWith [⟨.root, ["p"]⟩] dumpOfAB).run (PathSet.ofList [soloFile]) {} false
          soloSession).2.quiet := by
  have hsame : SameButOrder (soloWith [⟨.root, ["p"]⟩] dumpOfAB)
      (soloWith [⟨.root, ["p"]⟩, ⟨.root, ["p"]⟩] dumpOfBA) :=
    { root := rfl, sourceDirs := by simp [soloWith], compiler := rfl, runtime := rfl,
      dumpExecutable := rfl, dump := fun _ => .reordered sameOutput_dumps, buildArguments := rfl,
      testType := rfl, generator := rfl, manifest := rfl, workers := rfl, schedule := rfl }
  exact run_of_sameButOrder hsame (by simp) {} false soloSession

end Pipeline

end ElmSuite
