import ElmSuite.Proofs.Program.References
import ElmSuite.Proofs.Results
import ElmSuite.Proofs.Run.Abort
import ElmSuite.Proofs.Run.Workers

/-!
# What a run that completes has done

A run completes only if its build ended well, all files were scanned and the dump was
read, if it found tests and its program refers to all of them, and if the program was
compiled well. Its result tells how each of its workers ended.
-/

namespace ElmSuite

namespace Compiler

theorem run_start_eq_ok {tools : Toolbox} {arguments : List String} {directory : Path}
    {s after : Session} {process : Nat}
    (h : (start tools arguments directory).run s = (.ok process, after)) :
    ∀ reason, (tools .compiler).outcome (s.starts .compiler) ≠ .notStarted reason := by
  intro reason hreason
  rw [run_start_of_notStarted hreason] at h
  cases h

end Compiler

namespace Dump

theorem run_readTests_eq_ok {tools : Toolbox} {root : Path} {table : NameMap Path}
    {testType : String} {s after : Session} {tests : NameMap ModuleTests}
    (h : (readTests tools root table testType).run s = (.ok tests, after)) :
    ∃ r records, (tools .dump).outcome (s.starts .dump) = .ended r ∧
      InterfaceDump.read r.stdout = .ok records := by
  obtain ⟨_, hrun⟩ := run_readTests tools root table testType s
  have hanswer := congrArg Prod.fst (hrun.symm.trans h)
  cases houtcome : (tools .dump).outcome (s.starts .dump) with
  | ended r =>
    rw [houtcome, answer] at hanswer
    obtain ⟨records, hread, -⟩ := map_eq_ok_iff.mp hanswer
    exact ⟨r, records, rfl, hread⟩
  | _ =>
    rw [houtcome] at hanswer
    cases hanswer

end Dump

namespace Pipeline

open InterfaceDump (IsTest)

variable {p : Pipeline} {files : PathSet} {options : RunOptions} {anyArguments : Bool}
  {s : Session}

theorem run_buildAndScan_eq_ok {after : Session} {built : NameMap Path × PathMap Exposing}
    (h : (p.buildAndScan files).run s = (.ok built, after)) :
    (∃ r, (p.tools .compiler).outcome (s.starts .compiler) = .ended r ∧ r.exitCode = 0) ∧
      ∀ file ∈ files, ∃ exposing, Source.exposing s.files file = .ok exposing := by
  obtain ⟨process, started, hstart, -⟩ := Action.run_bind_eq_ok h
  have hstarted := Compiler.run_start_eq_ok hstart
  rcases @run_buildAndScan_cases p files s hstarted with ⟨hall, -⟩ | ⟨e, new, herror, -⟩
  · constructor
    · have hbuild := hall .build (mem_buildTasks.mpr (.inl rfl))
      exact Compiler.verdict_eq_ok (BuildOutcomes.fault?_build_eq_none_iff.mp hbuild)
    · intro file hfile
      refine BuildOutcomes.fault?_scan_eq_none_iff.mp (hall (.scan file) (mem_buildTasks.mpr ?_))
      exact .inr (.inr ⟨file, Std.ExtTreeSet.mem_toList.mpr hfile, rfl⟩)
  · rw [herror] at h
    cases h

/-- A discovery finds tests only if the build ended well, all files were scanned and the dump was
read. -/
theorem run_discoverTests_eq_ok {after : Session} {d : Discovery}
    (h : (p.discoverTests files options anyArguments).run s = (.ok d, after)) :
    (∃ r, (p.tools .compiler).outcome (s.starts .compiler) = .ended r ∧ r.exitCode = 0) ∧
      (∀ file ∈ files, ∃ exposing, Source.exposing s.files file = .ok exposing) ∧
      ∃ r records, (p.tools .dump).outcome (s.starts .dump) = .ended r ∧
        InterfaceDump.read r.stdout = .ok records := by
  rw [discoverTests_eq] at h
  obtain ⟨entered, hentered, hfiles, hstarts⟩ := run_enterStage .buildingAndScanning s
  rw [Action.run_bind_of_ok hentered] at h
  obtain ⟨built, scanned, hbuilt, hexamine⟩ := Action.run_bind_eq_ok h
  obtain ⟨tests, dumped, hdumped, -⟩ := Action.run_bind_eq_ok hexamine
  obtain ⟨hbuild, hscan⟩ := run_buildAndScan_eq_ok hbuilt
  have hdump := Dump.run_readTests_eq_ok hdumped
  rw [passes_buildAndScan.starts_eq (by simp) hbuilt] at hdump
  rw [hstarts] at hbuild hdump
  rw [hfiles] at hscan
  exact ⟨hbuild, hscan, hdump⟩

/-- Whether a program runs all tests that a dump reports, of which there have to be some, and which
the files of their modules have to expose. -/
structure RunsAllTests (p : Pipeline) (files : PathSet) (fs : FileSystem)
    (records : List ModuleRecord) (program : Program) : Prop where
  some : ∃ m n, IsTest (moduleTable files p.sourceDirs) p.testType records m n
  all : ∀ m n, IsTest (moduleTable files p.sourceDirs) p.testType records m n →
    (∃ file exposing, (moduleTable files p.sourceDirs)[m]? = .some file ∧
      Source.exposing fs file = .ok exposing ∧ exposing.exposes n = true) ∧
    program.RefersTo m n

theorem runsAllTests_of_discover {built dumped : ProcessResult} {records : List ModuleRecord}
    {d : Discovery}
    (hbuild : (p.tools .compiler).outcome (s.starts .compiler) = .ended built)
    (hexit : built.exitCode = 0)
    (hscan : ∀ file ∈ files, ∃ exposing, Source.exposing s.files file = .ok exposing)
    (hdump : (p.tools .dump).outcome (s.starts .dump) = .ended dumped)
    (hread : InterfaceDump.read dumped.stdout = .ok records)
    (hd : (p.discover files options anyArguments s).1 = .ok d) :
    RunsAllTests p files s.files records d.program := by
  let exposing (file : Path) : Exposing := (Source.exposing s.files file).toOption.getD (.only ∅)
  have hexposing : ∀ file ∈ files, Source.exposing s.files file = .ok (exposing file) := by
    intro file hfile
    obtain ⟨e, he⟩ := hscan file hfile
    simp only [exposing, he]
    rfl
  have hdiscovers := @discovers_discover p files s options anyArguments exposing records built
    dumped hbuild hexit hexposing hdump hread
  rw [hd] at hdiscovers
  cases hdiscovers with
  | found hsome hexposed hfile htests hunexposed hprogram =>
    refine ⟨hsome, fun m n hmn => ⟨?_, ?_⟩⟩
    · obtain ⟨file, hfile⟩ := Option.isSome_iff_exists.mp
        (Std.ExtTreeMap.mem_iff_isSome_getElem?.mp hmn.1)
      refine ⟨file, exposing file, hfile, hexposing file (mem_of_moduleTable hfile), ?_⟩
      cases hexposes : (exposing file).exposes n with
      | true => rfl
      | false => exact absurd ⟨hmn, file, hfile, hexposes⟩ (hexposed m n)
    · obtain ⟨names, hnames, hn⟩ := (htests.iff_related m n).mpr hmn
      exact Program.refersTo_of_generate hprogram hnames hn

/-- What a run that starts with no tool and gives a result has done. -/
structure Completes (p : Pipeline) (files : PathSet) (fs : FileSystem) (r : RunResult)
    (history : List RunEvent) : Prop where
  /-- The build, which is the first start of the compiler, ended well. -/
  built : ∃ b, (p.tools .compiler).outcome 0 = .ended b ∧ b.exitCode = 0
  scanned : ∀ file ∈ files, ∃ exposing, Source.exposing fs file = .ok exposing
  /-- The dump was read, and the program runs all tests that it reports. -/
  found : ∃ b records, (p.tools .dump).outcome 0 = .ended b ∧
    InterfaceDump.read b.stdout = .ok records ∧ RunsAllTests p files fs records r.discovery.program
  /-- The compilation of the program, which is the second start of the compiler, ended well. -/
  compiled : ∃ b, (p.tools .compiler).outcome 1 = .ended b ∧ b.exitCode = 0
  started : ∀ k < p.workers,
    Workers.startEvent p.layout.compiledProgram (some p.root) p.workers k ∈ history
  /-- The results of the workers tell one by one how their processes ended. -/
  ended : List.Forall₂ (fun k w => Workers.EndsAs k ((p.tools .runtime).outcome k) w)
    (List.range p.workers) r.workers

/-- **A run gives a result only when each of its parts succeeded**, and its result tells how the workers
ended. -/
theorem completes_of_run_eq_ok {r : RunResult} {last : Session}
    (hfresh : ∀ role, s.starts role = 0)
    (h : p.run files options anyArguments s = (.ok r, last)) :
    Completes p files s.files r last.history := by
  match hrun : (p.discoverTests files options anyArguments >>= fun d =>
      p.prepare d.program >>= p.work d).run s with
  | (.error e, after) =>
    rw [run_eq, asRun_of_error hrun] at h
    cases h
  | (.ok result, after) =>
    rw [run_eq, asRun_of_ok hrun] at h
    cases h
    obtain ⟨d, found, hfound, hrest⟩ := Action.run_bind_eq_ok hrun
    obtain ⟨compiled, ready, hready, hwork⟩ := Action.run_bind_eq_ok hrest
    obtain ⟨results, ended, hended, hreturn⟩ := Action.run_bind_eq_ok hwork
    cases hreturn
    obtain ⟨⟨b, hb, hexit⟩, hscan, dumped, records, hdump, hread⟩ := run_discoverTests_eq_ok hfound
    have hd : (p.discover files options anyArguments s).1 = .ok d := by
      rw [discover, asRun_fst, hfound]
    have htests := runsAllTests_of_discover hb hexit hscan hdump hread hd
    have hone : found.starts .compiler = 1 := by
      rw [starts_compiler_of_discoverTests hfound, hfresh]
    have hnone : ready.starts .runtime = 0 := by
      rw [passes_prepare.starts_eq (by simp) hready, passes_discoverTests.starts_eq (by simp) hfound,
        hfresh]
    obtain ⟨-, hcompiled, rfl, -⟩ := run_prepare_eq_ok hready
    obtain ⟨hworkers, hstarted⟩ := Workers.run_dispatch_eq_ok hnone hended
    rw [hfresh] at hb hdump
    rw [hone] at hcompiled
    exact ⟨⟨b, hb, hexit⟩, hscan, ⟨dumped, records, hdump, hread, htests⟩, hcompiled,
      fun k hk => List.mem_append_left _ (hstarted k hk), hworkers⟩

end Pipeline

end ElmSuite
