import ElmSuite.Proofs.CommandLine.Blame
import ElmSuite.Proofs.Run.Blame

/-!
# What leads up to a run

A command comes to its run through a number of steps, each of which may end it. Until
then no tool is started and no worker is blamed, and the run is given at least one
worker. The status of the command is settled by the steps, the run and its workers.
-/

namespace ElmSuite

/-- A run that a command has made ready. -/
structure Attempt where
  pipeline : Pipeline
  files : PathSet
  options : RunOptions
  anyArguments : Bool
  session : Session

/-- What comes of the run. -/
def Attempt.run (t : Attempt) : Except Fault RunResult × Session :=
  t.pipeline.run t.files t.options t.anyArguments t.session

/-- What holds of each run that a command has made ready. -/
structure Attempt.IsReadyFor (t : Attempt) (i : Invocation) : Prop where
  tools : ∀ role, (t.pipeline.tools role).outcome = i.outcome role
  fresh : ∀ role, t.session.starts role = 0
  workers : 0 < t.pipeline.workers

/-! ## Steps that give a result or fail -/

theorem exists_of_bind_eq_ok {α β : Type} {r : Except Fault α} {f : α → Except Fault β} {b : β}
    (h : r >>= f = .ok b) : ∃ a, r = .ok a ∧ f a = .ok b := by
  cases r with
  | error e => cases h
  | ok a => exact ⟨a, rfl, h⟩

theorem eq_error_or_of_bind_eq_error {α β : Type} {r : Except Fault α} {f : α → Except Fault β}
    {e : Fault} (h : r >>= f = .error e) : r = .error e ∨ ∃ a, r = .ok a ∧ f a = .error e := by
  cases r with
  | error e' =>
    cases h
    exact .inl rfl
  | ok a => exact .inr ⟨a, rfl, h⟩

theorem eq_ok_of_mapError {ε α : Type} {r : Except ε α} {f : ε → Fault} {a : α}
    (h : r.mapError f = .ok a) : r = .ok a := by
  cases r with
  | error e => cases h
  | ok b =>
    cases h
    rfl

theorem eq_error_of_mapError {ε α : Type} {r : Except ε α} {f : ε → Fault} {e : Fault}
    (h : r.mapError f = .error e) : ∃ e', r = .error e' ∧ f e' = e := by
  cases r with
  | error e' =>
    cases h
    exact ⟨e', rfl, rfl⟩
  | ok a => cases h

/-! ## Steps that start nothing -/

/-- Whether an action neither fails because of workers nor starts a tool. -/
abbrev Action.Precedes {α : Type} (x : Action α) : Prop := Action.Keeps Session.starts x

theorem Action.Precedes.changeFiles (fs : FileSystem) :
    Precedes (Action.change fun s => { s with files := fs }) := .change fun _ => rfl

theorem Action.Precedes.note (file : Option LogFile) (r : LogRecord) :
    Precedes (Command.note file r) := .change fun s => funext fun role => s.starts_note [r] role

namespace Command

open ElmSuite.Action (Keeps Precedes)

/-! ## The number of workers -/

theorem defaultWorkers_pos (i : Invocation) : 0 < defaultWorkers i := by
  rw [defaultWorkers]
  split
  · decide
  · omega

/-- Wherever the number of workers is said, it is above zero. -/
theorem workers_pos_of_plan {i : Invocation} {fs : FileSystem} {s : Surroundings}
    {settings : Settings} {a : Arguments} {p : Plan}
    (hsettings : ∀ n, settings.workers = some n → 0 < n) (h : plan i fs s settings a = .ok p) :
    0 < p.workers := by
  obtain ⟨fuzz, -, h⟩ := exists_of_bind_eq_ok h
  obtain ⟨seed, -, h⟩ := exists_of_bind_eq_ok h
  obtain ⟨workers, hworkers, h⟩ := exists_of_bind_eq_ok h
  obtain ⟨compiler, -, h⟩ := exists_of_bind_eq_ok h
  cases h
  change 0 < (workers.or settings.workers).getD (defaultWorkers i)
  cases workers with
  | some n =>
    rcases readInteger_cases "--workers" a.workers true with ⟨text, hread⟩ | ⟨n?, hread, hpos⟩
    · rw [hread] at hworkers
      cases hworkers
    · rw [hread] at hworkers
      cases hworkers
      exact hpos n rfl rfl
  | none =>
    cases hset : settings.workers with
    | some n => exact hsettings n hset
    | none => exact defaultWorkers_pos i

/-! ## The steps in the project -/

theorem precedes_openProject (file : Option LogFile) (paths : List String) :
    Precedes (openProject file paths) := by
  refine Keeps.get.bind fun s =>
    (Keeps.lift s.files.blamesNoWorker_currentDirectory).bind fun here =>
    Keeps.get.bind fun s =>
    (Keeps.lift (Project.blamesNoWorker_findRoot s.files here)).bind fun root =>
    Keeps.get.bind fun s =>
    (Keeps.lift (Project.blamesNoWorker_enterRoot s.files root)).bind fun entered =>
    (Precedes.changeFiles entered).bind fun _ => (Precedes.note file _).bind fun _ =>
    Keeps.get.bind fun s =>
    (Keeps.lift (Project.blamesNoWorker_load s.files root)).bind fun project =>
    (Precedes.note file _).bind fun _ => Keeps.get.bind fun s =>
    (Keeps.lift (TestFiles.blamesNoWorker_gather s.files paths root here)).bind fun files =>
    (Precedes.note file _).bind fun _ => ?_
  split
  · exact (Keeps.fail rfl).bind fun _ => .pure _
  · exact .pure _

theorem precedes_dumpTool (i : Invocation) (s : Surroundings) (settings : Settings) :
    Precedes (dumpTool i s settings) := by
  rw [dumpTool]
  split
  · exact .pure _
  · exact Keeps.get.bind fun session =>
      (Keeps.lift (Dump.blamesNoWorker_locate _ _ _ _)).bind fun _ => .pure _

/-- Makes the run of a plan ready. -/
def makeReady (i : Invocation) (s : Surroundings) (settings : Settings) (a : Arguments)
    (file : Option LogFile) (p : Plan) : Action Attempt := do
  let (project, files) ← openProject file a.paths
  let dump ← dumpTool i s settings
  let names := executables p.compiler dump settings.runtime
  return ⟨pipeline i project p.workers names, files, runOptions i a p, a.paths ≠ [], ← get⟩

theorem precedes_makeReady (i : Invocation) (s : Surroundings) (settings : Settings) (a : Arguments)
    (file : Option LogFile) (p : Plan) : Precedes (makeReady i s settings a file p) :=
  (precedes_openProject file a.paths).bind fun _ => (precedes_dumpTool i s settings).bind fun _ =>
    Keeps.get.bind fun _ => .pure _

/-! ## All steps -/

/-- All that a command does before its run, on arguments that make sense. -/
def attempt (i : Invocation) (a : Arguments) : Except Fault Attempt := do
  let bindings ← i.variableSource.read i.files i.bindings
  let settings ← (Settings.ofVariables bindings).mapError Fault.problem
  let (fs, file) ← openLog i.files (levels a).1 settings.logFile
  let s := surroundings i bindings
  let p ← plan i fs s settings a
  ((makeReady i s settings a file p).run { files := fs }).1

theorem blamesNoWorker_attempt (i : Invocation) (a : Arguments) : BlamesNoWorker (attempt i a) :=
  (i.variableSource.blamesNoWorker_read _ _).bind fun bindings =>
    (Settings.blamesNoWorker_ofVariables bindings).bind fun settings =>
      (blamesNoWorker_openLog _ _ _).bind fun (fs, file) =>
        (blamesNoWorker_plan i fs _ settings a).bind fun p =>
          (precedes_makeReady i _ settings a file p _).1

/-! ## Runs that are ready -/

/-- What a command has done that has made a run ready. -/
theorem attempt_eq_ok {i : Invocation} {a : Arguments} {t : Attempt} (h : attempt i a = .ok t) :
    ∃ bindings settings fs file p after,
      i.variableSource.read i.files i.bindings = .ok bindings ∧
      Settings.ofVariables bindings = .ok settings ∧
      openLog i.files (levels a).1 settings.logFile = .ok (fs, file) ∧
      plan i fs (surroundings i bindings) settings a = .ok p ∧
      (makeReady i (surroundings i bindings) settings a file p).run { files := fs } =
        (.ok t, after) := by
  obtain ⟨bindings, hbindings, h⟩ := exists_of_bind_eq_ok h
  obtain ⟨settings, hsettings, h⟩ := exists_of_bind_eq_ok h
  obtain ⟨⟨fs, file⟩, hlog, h⟩ := exists_of_bind_eq_ok h
  obtain ⟨p, hplan, h⟩ := exists_of_bind_eq_ok h
  exact ⟨bindings, settings, fs, file, p, _, hbindings, eq_ok_of_mapError hsettings, hlog, hplan,
    Prod.ext h rfl⟩

theorem run_makeReady_eq_ok {i : Invocation} {s : Surroundings} {settings : Settings}
    {a : Arguments} {file : Option LogFile} {p : Plan} {t : Attempt} {start after : Session}
    (h : (makeReady i s settings a file p).run start = (.ok t, after)) :
    t.session = after ∧ ∃ project names, t.pipeline = pipeline i project p.workers names := by
  obtain ⟨⟨project, files⟩, opened, -, h⟩ := Action.run_bind_eq_ok h
  obtain ⟨dump, located, -, h⟩ := Action.run_bind_eq_ok h
  cases h
  exact ⟨rfl, project, _, rfl⟩

/-- A run that is ready works with the tools of the invocation, none of which was started yet, and
with at least one worker. -/
theorem isReadyFor_of_attempt {i : Invocation} {a : Arguments} {t : Attempt}
    (h : attempt i a = .ok t) : t.IsReadyFor i := by
  obtain ⟨bindings, settings, fs, file, p, after, -, hsettings, -, hp, hready⟩ := attempt_eq_ok h
  obtain ⟨hsession, project, names, hpipeline⟩ := run_makeReady_eq_ok hready
  have hpos : 0 < p.workers := by
    rcases Settings.ofVariables_cases bindings with ⟨value, hread⟩ | ⟨settings', hread, hall⟩
    · rw [hread] at hsettings
      cases hsettings
    · rw [hread] at hsettings
      cases hsettings
      exact workers_pos_of_plan hall hp
  constructor
  · intro role
    rw [hpipeline]
    rfl
  · intro role
    have hstarts := (precedes_makeReady i (surroundings i bindings) settings a file p
      { files := fs }).2
    rw [hready] at hstarts
    rw [hsession, hstarts]
    rfl
  · rw [hpipeline]
    exact Int.pos_iff_toNat_pos.mp hpos

/-! ## The status -/

/-- The status that tells of what came of a command. -/
def statusOf : Except Fault Unit → Except Fault Nat
  | .ok _ => .ok 0
  | .error (.problem p) => .ok (problemStatus p)
  | .error e => .error e

section Course

variable {i : Invocation} {bindings : Variables} {settings : Settings} {a : Arguments}
  {file : Option LogFile} {start : Session}

theorem course_of_ready {p : Plan} {t : Attempt} {after : Session}
    (hplan : plan i start.files (surroundings i bindings) settings a = .ok p)
    (hready : (makeReady i (surroundings i bindings) settings a file p).run start = (.ok t, after)) :
    (course i bindings settings a file start).result = (t.run.1 >>= requireWorkers) ∧
      (course i bindings settings a file start).session = t.run.2 := by
  obtain ⟨⟨project, files⟩, opened, hopened, hready⟩ := Action.run_bind_eq_ok hready
  obtain ⟨dump, located, hdump, hready⟩ := Action.run_bind_eq_ok hready
  cases hready
  rw [course]
  simp only [hplan, hopened, hdump]
  exact ⟨rfl, rfl⟩

theorem result_course_of_plan_eq_error {e : Fault}
    (hplan : plan i start.files (surroundings i bindings) settings a = .error e) :
    (course i bindings settings a file start).result = .error e := by
  rw [course]
  simp only [hplan]

theorem result_course_of_error {p : Plan} {e : Fault} {after : Session}
    (hplan : plan i start.files (surroundings i bindings) settings a = .ok p)
    (h : (makeReady i (surroundings i bindings) settings a file p).run start = (.error e, after)) :
    (course i bindings settings a file start).result = .error e := by
  rw [course]
  rcases Action.run_bind_eq_error h with hopened | ⟨⟨project, files⟩, opened, hopened, h⟩
  · simp only [hplan, hopened]
  · rcases Action.run_bind_eq_error h with hdump | ⟨dump, located, hdump, h⟩
    · simp only [hplan, hopened, hdump]
    · cases h

end Course

theorem status_outcome (c : Course) (console : LogLevel) (file : Option LogFile)
    (before : FileSystem) : (outcome c console file before).status = statusOf c.result := rfl

theorem history_outcome (c : Course) (console : LogLevel) (file : Option LogFile)
    (before : FileSystem) : ∃ records : List LogRecord,
      (outcome c console file before).history = c.session.history ++ records.map .note :=
  ⟨_, rfl⟩

theorem status_endedEarly (i : Invocation) (e : Fault) :
    (endedEarly i e).status = statusOf (.error e) := by
  cases e <;> rfl

theorem run_eq {i : Invocation} {a : Arguments} {bindings : Variables} {settings : Settings}
    {fs : FileSystem} {file : Option LogFile}
    (hbindings : i.variableSource.read i.files i.bindings = .ok bindings)
    (hsettings : Settings.ofVariables bindings = .ok settings)
    (hlog : openLog i.files (levels a).1 settings.logFile = .ok (fs, file)) :
    run i a = outcome (course i bindings settings a file { files := fs }) (levels a).2 file fs := by
  simp only [run, hbindings, hsettings, hlog]

/-- A command that makes a run ready ends as its run does. -/
theorem run_of_attempt {i : Invocation} {a : Arguments} {t : Attempt} (h : attempt i a = .ok t) :
    (run i a).status = statusOf (t.run.1 >>= requireWorkers) ∧
      ∃ records : List LogRecord, (run i a).history = t.run.2.history ++ records.map .note := by
  obtain ⟨bindings, settings, fs, file, p, after, hbindings, hsettings, hlog, hp, hready⟩ :=
    attempt_eq_ok h
  obtain ⟨hresult, hsession⟩ := @course_of_ready i bindings settings a file { files := fs } p t after
    hp hready
  rw [run_eq hbindings hsettings hlog]
  obtain ⟨records, hhistory⟩ :=
    history_outcome (course i bindings settings a file { files := fs }) (levels a).2 file fs
  rw [status_outcome, hresult, hhistory, hsession]
  exact ⟨rfl, records, rfl⟩

/-- A command that makes no run ready ends for the reason that there is none. -/
theorem status_of_attempt_eq_error {i : Invocation} {a : Arguments} {e : Fault}
    (h : attempt i a = .error e) : (run i a).status = statusOf (.error e) := by
  rcases eq_error_or_of_bind_eq_error h with hbindings | ⟨bindings, hbindings, h⟩
  · simp only [run, hbindings, status_endedEarly]
  rcases eq_error_or_of_bind_eq_error h with hproblem | ⟨settings, hsettings, h⟩
  · obtain ⟨p, hsettings, rfl⟩ := eq_error_of_mapError hproblem
    simp only [run, hbindings, hsettings, status_endedEarly]
  replace hsettings := eq_ok_of_mapError hsettings
  rcases eq_error_or_of_bind_eq_error h with hlog | ⟨⟨fs, file⟩, hlog, h⟩
  · simp only [run, hbindings, hsettings, hlog, status_endedEarly]
  rw [run_eq hbindings hsettings hlog, status_outcome]
  -- The session is named here, since the files of a session do not tell the session.
  let start : Session := { files := fs }
  rcases eq_error_or_of_bind_eq_error h with hplan | ⟨p, hplan, h⟩
  · exact congrArg statusOf (@result_course_of_plan_eq_error i bindings settings a file start e hplan)
  · exact congrArg statusOf
      (@result_course_of_error i bindings settings a file start p e _ hplan (Prod.ext h rfl))

end Command

end ElmSuite
