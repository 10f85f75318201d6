import Mathlib.Control.Monad.Basic
import ElmSuite.Proofs.InterfaceDump
import ElmSuite.Proofs.ModuleTable
import ElmSuite.Proofs.Program.Generator
import ElmSuite.Proofs.Reconciliation
import ElmSuite.Proofs.Run.DumpRun
import ElmSuite.Proofs.Run.Join
import ElmSuite.Run.Pipeline

/-!
# What a discovery finds

When the build ends well, all files are scanned and the dump is read, a discovery
finds every test of a known module with its file. It ends with the tests that are not
exposed, without tests, or with the program that runs them all, unless no program can be
generated for them.
-/

namespace ElmSuite

open InterfaceDump (IsTest Collected)

/-! ## Steps of a discovery -/

namespace Compiler

theorem verdict_of_success {r : ProcessResult} (h : r.exitCode = 0) :
    verdict (.ended r) = .ok () := by
  have hsucceeded : r.succeeded = true := by simp [ProcessResult.succeeded, h]
  rw [verdict, if_pos hsucceeded]

theorem run_startBuild_of_ended {tools : Toolbox} {arguments : List String} {files : PathSet}
    {root : Path} {s : Session} {r : ProcessResult}
    (h : (tools .compiler).outcome (s.starts .compiler) = .ended r) :
    (startBuild tools arguments files root).run s = (.ok (s.starts .compiler),
      s.record [.start .compiler (arguments ++ files.toList.map toString) (some root)]) := by
  rw [startBuild, start, Action.run_bind_of_ok (Toolbox.run_start_of_ended h)]
  rfl

end Compiler

namespace Dump

/-- The dump is read however its tool ends. -/
theorem run_readTests_of_ended {tools : Toolbox} (root : Path) (table : NameMap Path)
    (testType : String) {s : Session} {r : ProcessResult} {records : List ModuleRecord}
    (h : (tools .dump).outcome (s.starts .dump) = .ended r)
    (hread : InterfaceDump.read r.stdout = .ok records) :
    ∃ after, (readTests tools root table testType).run s =
      (.ok (InterfaceDump.collect table testType records), after) := by
  obtain ⟨_, hrun⟩ := run_readTests tools root table testType s
  rw [h, answer, hread] at hrun
  exact ⟨_, hrun⟩

end Dump

namespace Pipeline

variable {p : Pipeline} {files : PathSet} {s : Session}

theorem run_enterStage (stage : Stage) (s : Session) :
    ∃ after, (enterStage stage).run s = (.ok (), after) ∧ after.files = s.files ∧
      ∀ role, after.starts role = s.starts role :=
  ⟨_, rfl, rfl, fun role => Session.starts_note s _ role⟩

/-- What a file exposes is known if the file was scanned. -/
theorem getElem?_exposedFiles {o : BuildOutcomes} {file : Path} {exposing : Exposing} :
    (exposedFiles o files)[file]? = some exposing ↔ file ∈ files ∧ o.scan file = .ok exposing := by
  have hknown : ∀ {exposing}, file ∈ files → o.scan file = .ok exposing →
      (exposedFiles o files)[file]? = some exposing := by
    intro exposing hfile hscan
    apply Std.ExtTreeMap.getElem?_ofList_of_mem (Std.LawfulEqCmp.compare_eq_iff_eq.mpr rfl)
    · refine List.pairwise_filterMap.mpr (Std.ExtTreeSet.distinct_toList.imp ?_)
      intro f g hne a ha b hb
      cases hf : o.scan f with
      | error e => simp [hf] at ha
      | ok e =>
        cases hg : o.scan g with
        | error e => simp [hg] at hb
        | ok e' =>
          simp only [hf, Option.some.injEq] at ha
          simp only [hg, Option.some.injEq] at hb
          subst ha hb
          exact hne
    · refine List.mem_filterMap.mpr ⟨file, Std.ExtTreeSet.mem_toList.mpr hfile, ?_⟩
      rw [hscan]
  refine ⟨fun h => ?_, fun ⟨hfile, hscan⟩ => hknown hfile hscan⟩
  have hmem : file ∈ exposedFiles o files := by
    rw [Std.ExtTreeMap.mem_iff_isSome_getElem?, h]
    rfl
  rw [exposedFiles, Std.ExtTreeMap.mem_ofList, List.contains_iff_mem, List.mem_map] at hmem
  obtain ⟨⟨f, e⟩, hfe, rfl⟩ := hmem
  obtain ⟨g, hg, hscan⟩ := List.mem_filterMap.mp hfe
  have hfile := Std.ExtTreeSet.mem_toList.mp hg
  cases hfound : o.scan g with
  | error fault => simp [hfound] at hscan
  | ok found =>
    simp only [hfound, Option.some.injEq, Prod.mk.injEq] at hscan
    obtain ⟨rfl, rfl⟩ := hscan
    rw [hknown hfile hfound, Option.some.injEq] at h
    exact ⟨hfile, by rw [hfound, h]⟩

theorem exposedFiles_spec {o : BuildOutcomes} {exposing : Path → Exposing}
    (hscan : ∀ file ∈ files, o.scan file = .ok (exposing file)) {file : Path} (hfile : file ∈ files) :
    file ∈ exposedFiles o files ∧
      Reconciliation.exposingOf (exposedFiles o files) file = exposing file := by
  have hget := getElem?_exposedFiles.mpr ⟨hfile, hscan file hfile⟩
  constructor
  · rw [Std.ExtTreeMap.mem_iff_isSome_getElem?, hget]
    rfl
  · rw [Reconciliation.exposingOf, Std.ExtTreeMap.getD_eq_getD_getElem?, hget, Option.getD_some]

/-- A build that ends well beside scans that succeed gives the module table and what the files
expose. The dump tool is not started. -/
theorem run_buildAndScan {r : ProcessResult}
    (hbuild : (p.tools .compiler).outcome (s.starts .compiler) = .ended r) (hexit : r.exitCode = 0)
    (hscan : ∀ file ∈ files, ∃ e, Source.exposing s.files file = .ok e) :
    ∃ after, (p.buildAndScan files).run s = (.ok (moduleTable files p.sourceDirs,
      exposedFiles ⟨.ok (), Source.exposing s.files⟩ files), after) ∧
      after.starts .dump = s.starts .dump := by
  have hnone : (BuildOutcomes.mk (.ok ()) (Source.exposing s.files)).culprit?
      (p.schedule.completed ⟨.ok (), Source.exposing s.files⟩ files.toList) = none :=
    BuildOutcomes.culprit?_completed p.schedule rfl fun f hf =>
      hscan f (Std.ExtTreeSet.mem_toList.mp hf)
  rw [buildAndScan, Action.run_bind_of_ok (Compiler.run_startBuild_of_ended hbuild),
    Action.run_bind_of_ok (Toolbox.run_wait ..), Action.run_bind_of_ok (Action.run_get _), hbuild,
    Compiler.verdict_of_success hexit]
  dsimp only
  rw [Action.run_bind_of_ok (Action.run_change ..)]
  simp only [Session.files_record, hnone]
  refine ⟨_, rfl, ?_⟩
  rw [Session.starts_note, Session.starts_record, Session.starts_record]
  rfl

/-- The session of a run that was aborted. -/
def aborted (e : Fault) (s : Session) : Session :=
  { s.note [abortNote s.stage e] with stage := .aborted, abortReason := some e }

theorem asRun_of_error {α : Type} {action : Action α} {s after : Session} {e : Fault}
    (h : action.run s = (.error e, after)) : asRun action s = (.error e, aborted e after) := by
  rw [asRun, h]
  rfl

theorem asRun_of_ok {α : Type} {action : Action α} {s after : Session} {a : α}
    (h : action.run s = (.ok a, after)) :
    asRun action s = (.ok a, { after.note [stageNote after.stage .done] with stage := .done }) := by
  rw [asRun, h]
  rfl

/-- A run as a whole gives what its action gives. -/
theorem asRun_fst {α : Type} (action : Action α) (s : Session) :
    (asRun action s).1 = (action.run s).1 := by
  unfold asRun
  split
  · next h => rw [h]
  · next h => rw [h]

/-! ## What a discovery has to find -/

/-- Whether a test of a module is missing from what the file of the module exposes. -/
def IsUnexposed (table : NameMap Path) (testType : String) (records : List ModuleRecord)
    (exposing : Path → Exposing) (m : String) (n : CodePoints) : Prop :=
  IsTest table testType records m n ∧
    ∃ file, table[m]? = some file ∧ (exposing file).exposes n = false

/-- The outcome that a discovery should have, by the tests that a dump reports for the modules of
a table and what the files of these modules expose. -/
inductive Discovers (p : Pipeline) (options : RunOptions) (anyArguments : Bool)
    (table : NameMap Path) (exposing : Path → Exposing) (records : List ModuleRecord) :
    Except Fault Discovery → Prop where
  /-- All tests that are not exposed are reported, and nothing else is. -/
  | unexposed {listed : NameMap TextSet}
      (hsome : ∃ m n, IsUnexposed table p.testType records exposing m n)
      (hlisted : NameMap.Lists listed (IsUnexposed table p.testType records exposing)) :
      Discovers p options anyArguments table exposing records
        (.error (.problem (.unexposedTests listed)))
  /-- There are no tests. -/
  | none (hnone : ∀ m n, ¬IsTest table p.testType records m n) :
      Discovers p options anyArguments table exposing records
        (.error (.problem (.noExposedTests anyArguments)))
  /-- All tests are exposed, and a program is generated that runs all of them. -/
  | found {d : Discovery} (hsome : ∃ m n, IsTest table p.testType records m n)
      (hexposed : ∀ m n, ¬IsUnexposed table p.testType records exposing m n)
      (hfile : ∀ (m : String) (t : ModuleTests),
        d.reconciliation.modules[m]? = some t → table[m]? = some t.file)
      (htests : NameMap.Lists d.reconciliation.testsByModule (IsTest table p.testType records))
      (hunexposed : d.reconciliation.unexposed = ∅)
      (hprogram : p.generator.generate d.reconciliation.testsByModule options = .ok d.program) :
      Discovers p options anyArguments table exposing records (.ok d)
  /-- All tests are exposed, but no program can be generated for them: an integer is too long to be
  shown, or a surrogate stands alone in a name or a path. -/
  | refused {tests : NameMap TextSet} {fault : Fault}
      (hsome : ∃ m n, IsTest table p.testType records m n)
      (hexposed : ∀ m n, ¬IsUnexposed table p.testType records exposing m n)
      (htests : NameMap.Lists tests (IsTest table p.testType records))
      (hreason : p.generator.Generates tests options (.error fault))
      (hrefused : p.generator.generate tests options = .error fault) :
      Discovers p options anyArguments table exposing records (.error fault)

section Discovers

variable {options : RunOptions} {anyArguments : Bool} {table : NameMap Path}
  {exposing : Path → Exposing} {records : List ModuleRecord}

/-- Modules with the same tests in the same files are the same. -/
theorem modules_eq {a b : Reconciliation} (htests : a.testsByModule = b.testsByModule)
    (ha : ∀ (m : String) (t : ModuleTests), a.modules[m]? = some t → table[m]? = some t.file)
    (hb : ∀ (m : String) (t : ModuleTests), b.modules[m]? = some t → table[m]? = some t.file) :
    a.modules = b.modules := by
  apply Std.ExtTreeMap.ext_getElem?
  intro m
  have hm := congrArg (fun tests : NameMap TextSet => tests[m]?) htests
  simp only [Reconciliation.testsByModule, Std.ExtTreeMap.getElem?_map] at hm
  cases hma : a.modules[m]? with
  | none =>
    rw [hma, Option.map_none, eq_comm, Option.map_eq_none_iff] at hm
    exact hm.symm
  | some t =>
    rw [hma, Option.map_some, eq_comm, Option.map_eq_some_iff] at hm
    obtain ⟨u, hmb, htu⟩ := hm
    have hfile := (ha m t hma).symm.trans (hb m u hmb)
    rw [hmb]
    cases t
    cases u
    simp_all

/-- There is one outcome only. -/
theorem Discovers.unique {a b : Except Fault Discovery}
    (ha : Discovers p options anyArguments table exposing records a)
    (hb : Discovers p options anyArguments table exposing records b) : a = b := by
  cases ha with
  | unexposed hsome hlisted =>
    obtain ⟨m, n, hmn⟩ := hsome
    cases hb with
    | unexposed _ hothers => rw [hlisted.unique hothers]
    | none hnone => exact absurd hmn.1 (hnone m n)
    | found _ hexposed | refused _ hexposed => exact absurd hmn (hexposed m n)
  | none hnone =>
    cases hb with
    | unexposed hsome =>
      obtain ⟨m, n, hmn⟩ := hsome
      exact absurd hmn.1 (hnone m n)
    | none => rfl
    | found hsome | refused hsome =>
      obtain ⟨m, n, hmn⟩ := hsome
      exact absurd hmn (hnone m n)
  | @found d hsome hexposed hfile htests hunexposed hprogram =>
    cases hb with
    | unexposed hothers =>
      obtain ⟨m, n, hmn⟩ := hothers
      exact absurd hmn (hexposed m n)
    | none hnone =>
      obtain ⟨m, n, hmn⟩ := hsome
      exact absurd hmn (hnone m n)
    | @found e _ _ hfile' htests' hunexposed' hprogram' =>
      have hsame := htests.unique htests'
      have hmodules := modules_eq hsame hfile hfile'
      rw [hsame, hprogram', Except.ok.injEq] at hprogram
      obtain ⟨⟨_, _⟩, _⟩ := d
      obtain ⟨⟨_, _⟩, _⟩ := e
      simp_all
    | refused _ _ htests' _ hrefused =>
      rw [htests.unique htests', hrefused] at hprogram
      cases hprogram
  | refused hsome hexposed htests _ hrefused =>
    cases hb with
    | unexposed hothers =>
      obtain ⟨m, n, hmn⟩ := hothers
      exact absurd hmn (hexposed m n)
    | none hnone =>
      obtain ⟨m, n, hmn⟩ := hsome
      exact absurd hmn (hnone m n)
    | found _ _ _ htests' _ hprogram =>
      rw [htests.unique htests', hprogram] at hrefused
      cases hrefused
    | refused _ _ htests' _ hrefused' =>
      rw [htests.unique htests', hrefused'] at hrefused
      exact congrArg Except.error (Except.error.inj hrefused).symm

/-- The tests that were collected, held against what files expose, are all tests. -/
theorem lists_of_splits {compiled : NameMap ModuleTests} {exposed : Path → Exposing}
    {r : Reconciliation} (hcompiled : Collected table p.testType records compiled)
    (hsplits : r.Splits compiled exposed)
    (hsame : ∀ (m : String) (file : Path), table[m]? = some file → exposed file = exposing file) :
    NameMap.Lists r.unexposed (IsUnexposed table p.testType records exposing) ∧
      NameMap.Lists r.testsByModule fun m n => IsTest table p.testType records m n ∧
        ¬IsUnexposed table p.testType records exposing m n := by
  have hfile : ∀ (m : String) (b : Bool) (n : CodePoints),
      (∃ file, table[m]? = some file ∧ (exposed file).exposes n = b) ↔
        ∃ file, table[m]? = some file ∧ (exposing file).exposes n = b := by
    intro m b n
    constructor
    · rintro ⟨file, hm, hb⟩
      exact ⟨file, hm, by rwa [← hsame m file hm]⟩
    · rintro ⟨file, hm, hb⟩
      exact ⟨file, hm, by rwa [hsame m file hm]⟩
  refine ⟨hsplits.unexposed.congr fun m n => ?_, hsplits.confirmed.congr fun m n => ?_⟩
  · exact hcompiled.exists_entry_iff.trans (and_congr_right fun _ => hfile m false n)
  · refine (hcompiled.exists_entry_iff.trans (and_congr_right fun _ => hfile m true n)).trans ?_
    constructor
    · rintro ⟨htest, file, hm, hexposes⟩
      refine ⟨htest, ?_⟩
      rintro ⟨-, other, hother, hmissing⟩
      rw [hm, Option.some.injEq] at hother
      subst hother
      rw [hexposes] at hmissing
      cases hmissing
    · rintro ⟨htest, hexposes⟩
      obtain ⟨file, hm⟩ := Option.isSome_iff_exists.mp
        (Std.ExtTreeMap.mem_iff_isSome_getElem?.mp htest.1)
      refine ⟨htest, file, hm, ?_⟩
      cases hb : (exposing file).exposes n with
      | true => rfl
      | false => exact absurd ⟨htest, file, hm, hb⟩ hexposes

end Discovers

/-! ## What a discovery finds -/

/-- The steps of a discovery from its reconciliation on. -/
def conclude (p : Pipeline) (options : RunOptions) (anyArguments : Bool) (r : Reconciliation) :
    Action Discovery := do
  let reconciliation ← Action.lift r.require
  if reconciliation.modules.isEmpty then Action.fail (.noExposedTests anyArguments)
  enterStage .generating
  let program ← Action.lift (p.generator.generate reconciliation.testsByModule options)
  Action.note .info ("Generated " ++ program.moduleName ++ " with " ++
    toString reconciliation.modules.size ++ " test module(s)")
  return ⟨reconciliation, program⟩

section Conclude

variable {options : RunOptions} {anyArguments : Bool} {r : Reconciliation}

theorem run_conclude_of_unexposed (h : r.unexposed.isEmpty = false) :
    ((p.conclude options anyArguments r).run s).1 =
      .error (.problem (.unexposedTests r.unexposed)) := by
  have hrefused : r.require = .error (.problem (.unexposedTests r.unexposed)) := by
    rw [Reconciliation.require, Reconciliation.isOk, h, if_neg Bool.false_ne_true]
  rw [conclude, hrefused, Action.run_bind_of_error (Action.run_lift (.error _) _)]

theorem require_of_exposed (h : r.unexposed.isEmpty = true) : r.require = .ok r := by
  rw [Reconciliation.require, Reconciliation.isOk, h, if_pos rfl]

theorem run_conclude_of_none (h : r.unexposed.isEmpty = true) (hnone : r.modules.isEmpty = true) :
    ((p.conclude options anyArguments r).run s).1 =
      .error (.problem (.noExposedTests anyArguments)) := by
  rw [conclude, require_of_exposed h, Action.run_bind_of_ok (Action.run_lift (.ok r) _), hnone,
    if_pos rfl, Action.run_bind_of_error (Action.run_fail ..)]

theorem run_conclude_of_generated {program : Program} (h : r.unexposed.isEmpty = true)
    (hsome : r.modules.isEmpty = false)
    (hprogram : p.generator.generate r.testsByModule options = .ok program) :
    ((p.conclude options anyArguments r).run s).1 = .ok ⟨r, program⟩ := by
  obtain ⟨after, hstage, -, -⟩ := run_enterStage .generating s
  rw [conclude, require_of_exposed h, Action.run_bind_of_ok (Action.run_lift (.ok r) _), hsome,
    if_neg Bool.false_ne_true, Action.run_bind_of_ok hstage, hprogram,
    Action.run_bind_of_ok (Action.run_lift (.ok program) _), Action.run_bind_of_ok (Action.run_note ..)]
  rfl

theorem run_conclude_of_refused {fault : Fault} (h : r.unexposed.isEmpty = true)
    (hsome : r.modules.isEmpty = false)
    (hrefused : p.generator.generate r.testsByModule options = .error fault) :
    ((p.conclude options anyArguments r).run s).1 = .error fault := by
  obtain ⟨after, hstage, -, -⟩ := run_enterStage .generating s
  rw [conclude, require_of_exposed h, Action.run_bind_of_ok (Action.run_lift (.ok r) _), hsome,
    if_neg Bool.false_ne_true, Action.run_bind_of_ok hstage, hrefused,
    Action.run_bind_of_error (Action.run_lift (.error fault) _)]

end Conclude

section Outcome

variable {options : RunOptions} {anyArguments : Bool} {exposing : Path → Exposing}
  {records : List ModuleRecord} {built dumped : ProcessResult}

/-- From a reconciliation that splits the tests of a dump, a discovery ends as it should. -/
theorem discovers_conclude {table : NameMap Path} {r : Reconciliation}
    (hfile : ∀ (m : String) (t : ModuleTests), r.modules[m]? = some t → table[m]? = some t.file)
    (hunexposed : NameMap.Lists r.unexposed (IsUnexposed table p.testType records exposing))
    (htests : NameMap.Lists r.testsByModule fun m n => IsTest table p.testType records m n ∧
      ¬IsUnexposed table p.testType records exposing m n) (s : Session) :
    Discovers p options anyArguments table exposing records
      ((p.conclude options anyArguments r).run s).1 := by
  cases hok : r.unexposed.isEmpty with
  | false =>
    rw [run_conclude_of_unexposed hok]
    exact .unexposed (hunexposed.exists_of_isEmpty_eq_false hok) hunexposed
  | true =>
    have hall := hunexposed.isEmpty_iff.mp hok
    have htests := htests.congr fun m n => and_iff_left (hall m n)
    cases hempty : r.modules.isEmpty with
    | true =>
      rw [run_conclude_of_none hok hempty]
      exact .none (htests.isEmpty_iff.mp (by rw [r.isEmpty_testsByModule, hempty]))
    | false =>
      have htable : r.testsByModule.isEmpty = false := by rw [r.isEmpty_testsByModule, hempty]
      have hsome := htests.exists_of_isEmpty_eq_false htable
      have hgenerates := p.generator.generates_generate (o := options) htable htests.nonempty
      cases hprogram : p.generator.generate r.testsByModule options with
      | ok program =>
        rw [run_conclude_of_generated hok hempty hprogram]
        exact .found hsome hall hfile htests (Std.ExtTreeMap.isEmpty_iff.mp hok) hprogram
      | error fault =>
        rw [run_conclude_of_refused hok hempty hprogram]
        exact .refused hsome hall htests (hprogram ▸ hgenerates) hprogram

/-- The steps up to the reconciliation all succeed, and it splits the tests of the dump. -/
theorem run_discoverTests (options : RunOptions) (anyArguments : Bool)
    (hbuild : (p.tools .compiler).outcome (s.starts .compiler) = .ended built)
    (hexit : built.exitCode = 0)
    (hscan : ∀ file ∈ files, Source.exposing s.files file = .ok (exposing file))
    (hdump : (p.tools .dump).outcome (s.starts .dump) = .ended dumped)
    (hread : InterfaceDump.read dumped.stdout = .ok records) :
    ∃ r after, (p.discoverTests files options anyArguments).run s =
        (p.conclude options anyArguments r).run after ∧
      r.Splits (InterfaceDump.collect (moduleTable files p.sourceDirs) p.testType records)
        (Reconciliation.exposingOf (exposedFiles ⟨.ok (), Source.exposing s.files⟩ files)) := by
  obtain ⟨s₁, h₁, hfiles₁, hstarts₁⟩ := run_enterStage .buildingAndScanning s
  rw [← hstarts₁] at hbuild hdump
  rw [← hfiles₁] at hscan ⊢
  obtain ⟨s₂, h₂, hstarts₂⟩ :=
    run_buildAndScan hbuild hexit fun file hfile => ⟨_, hscan file hfile⟩
  rw [← hstarts₂] at hdump
  obtain ⟨s₃, h₃⟩ := Dump.run_readTests_of_ended p.root (moduleTable files p.sourceDirs)
    p.testType hdump hread
  obtain ⟨s₄, h₄, -, -⟩ := run_enterStage .reconciling s₃
  have hcompiled := InterfaceDump.collected_collect (moduleTable files p.sourceDirs) p.testType
    records
  obtain ⟨r, hr, hsplits⟩ := Reconciliation.ofModules_of_scanned fun m t ht =>
    (exposedFiles_spec (o := ⟨.ok (), Source.exposing s₁.files⟩) hscan
      (mem_of_moduleTable (hcompiled.file m t ht))).1
  refine ⟨r, s₄, ?_, hsplits⟩
  rw [discoverTests, Action.run_bind_of_ok h₁, Action.run_bind_of_ok h₂]
  dsimp only
  rw [Action.run_bind_of_ok h₃, Action.run_bind_of_ok h₄, hr,
    Action.run_bind_of_ok (Action.run_lift (.ok r) _)]
  rfl

theorem discovers_discover
    (hbuild : (p.tools .compiler).outcome (s.starts .compiler) = .ended built)
    (hexit : built.exitCode = 0)
    (hscan : ∀ file ∈ files, Source.exposing s.files file = .ok (exposing file))
    (hdump : (p.tools .dump).outcome (s.starts .dump) = .ended dumped)
    (hread : InterfaceDump.read dumped.stdout = .ok records) :
    Discovers p options anyArguments (moduleTable files p.sourceDirs) exposing records
      (p.discover files options anyArguments s).1 := by
  obtain ⟨r, after, hrun, hsplits⟩ :=
    run_discoverTests options anyArguments hbuild hexit hscan hdump hread
  have hcompiled := InterfaceDump.collected_collect (moduleTable files p.sourceDirs) p.testType
    records
  obtain ⟨hunexposed, htests⟩ := lists_of_splits hcompiled hsplits fun m file hm =>
    (exposedFiles_spec hscan (mem_of_moduleTable hm)).2
  rw [discover, asRun_fst, hrun]
  refine discovers_conclude ?_ hunexposed htests after
  intro m t ht
  obtain ⟨before, hbefore, hfile⟩ := hsplits.file m t ht
  rw [← hfile]
  exact hcompiled.file m before hbefore

/-- **A discovery is sound and complete**: whatever the files and their directories, the tests that
the dump reports and what the files expose, its outcome is the one that it should have. The only
faults that are no problems are those of a program that cannot be generated. -/
theorem discover_eq_iff_discovers (files : List Path)
    (hbuild : (p.tools .compiler).outcome (s.starts .compiler) = .ended built)
    (hexit : built.exitCode = 0)
    (hscan : ∀ file ∈ files, Source.exposing s.files file = .ok (exposing file))
    (hdump : (p.tools .dump).outcome (s.starts .dump) = .ended dumped)
    (hread : InterfaceDump.read dumped.stdout = .ok records) (result : Except Fault Discovery) :
    (p.discover (PathSet.ofList files) options anyArguments s).1 = result ↔
      Discovers p options anyArguments (moduleTable (PathSet.ofList files) p.sourceDirs) exposing
        records result := by
  have hdiscovers : Discovers p options anyArguments
      (moduleTable (PathSet.ofList files) p.sourceDirs) exposing records
      (p.discover (PathSet.ofList files) options anyArguments s).1 :=
    discovers_discover hbuild hexit (fun file hfile => hscan file (PathSet.mem_ofList.mp hfile))
      hdump hread
  constructor
  · rintro rfl
    exact hdiscovers
  · intro hresult
    exact hdiscovers.unique hresult

end Outcome

/-- A project with the module `A` in a single file. -/
def soloFile : Path := ⟨.root, ["p", "A.elm"]⟩

def soloSession : Session where
  files := ⟨.dir [("p", .dir [("A.elm", .file "module A exposing (t)".toUTF8.toList false)])], some []⟩

/-- A build of the project reports the test `t` of `A`, and a test of a module that is not known. -/
def soloPipeline : Pipeline where
  root := ⟨.root, ["p"]⟩
  sourceDirs := [⟨.root, ["p"]⟩]
  workers := 1
  tools
    | .dump => ⟨"dump", fun _ => .ended { exitCode := 0, stdout :=
        "[\x7b\"moduleName\": \"A\", \"types\": [\x7b\"name\": \"t\", \"signature\": \"Test.Test\"\x7d]\x7d, " ++
        "\x7b\"moduleName\": \"B\", \"types\": [\x7b\"name\": \"u\", \"signature\": \"Test.Test\"\x7d]\x7d]" }⟩
    | _ => ⟨"elm", fun _ => .ended { exitCode := 0 }⟩

theorem discovers_solo :
    Discovers soloPipeline {} false (moduleTable (PathSet.ofList [soloFile]) [⟨.root, ["p"]⟩])
      (fun _ => .only (NameSet.ofList ["t"]))
      [⟨.ofString "A", [⟨.ofString "t", .ofString "Test.Test"⟩]⟩,
        ⟨.ofString "B", [⟨.ofString "u", .ofString "Test.Test"⟩]⟩]
      (soloPipeline.discover (PathSet.ofList [soloFile]) {} false soloSession).1 :=
  (discover_eq_iff_discovers [soloFile] rfl rfl (List.forall_mem_singleton.mpr (by decide +kernel))
    rfl (by decide +kernel) _).mp rfl

/-- The module `A` exposes everything. -/
def openSession : Session where
  files := ⟨.dir [("p", .dir [("A.elm", .file "module A exposing (..)".toUTF8.toList false)])], some []⟩

/-- A build of the project reports a test of `A` whose name is a surrogate that stands alone. -/
def surrogatePipeline : Pipeline where
  root := ⟨.root, ["p"]⟩
  sourceDirs := [⟨.root, ["p"]⟩]
  workers := 1
  tools
    | .dump => ⟨"dump", fun _ => .ended { exitCode := 0, stdout :=
        "[\x7b\"moduleName\": \"A\", \"types\": [\x7b\"name\": \"\\ud800\", \"signature\": \"Test.Test\"\x7d]\x7d]" }⟩
    | _ => ⟨"elm", fun _ => .ended { exitCode := 0 }⟩

/-- The only test is exposed, but there is no program that runs it. -/
theorem discover_surrogatePipeline :
    (surrogatePipeline.discover (PathSet.ofList [soloFile]) {} false openSession).1 =
      .error (.unencodable ⟨234, 0xD800, []⟩) := by
  decide +kernel

end Pipeline

end ElmSuite
