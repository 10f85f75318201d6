import ElmSuite.Proofs.CommandLine.Attempt
import ElmSuite.Proofs.Files.Resolution
import ElmSuite.Proofs.Project.GeneratedDirectory

/-!
# The interface dump tool of a command

The dump tool lies beside the executable of the command, which is resolved from the root of
the project, since the command has gone there by then. So it is the one beside the executable
as seen from where the command was called if the name of the executable is absolute or the
command was called at the root. Elsewhere a relative name may lead to another executable.
-/

namespace ElmSuite

open FileSystem

variable {fs after : FileSystem}

/-! ## Log files -/

theorem LogFile.grown_add (file : LogFile) (fs : FileSystem) (r : LogRecord) :
    Grown fs (file.add fs r) := by
  rw [LogFile.add]
  split
  · cases happend : fs.appendText file.path r.line with
    | error e => exact .refl
    | ok after => exact grown_of_write happend
  · exact .refl

theorem LogFile.grown_of_opened {p : Path} {level : LogLevel} {file : LogFile}
    (h : LogFile.opened fs p level = .ok (after, file)) : Grown fs after := by
  rw [LogFile.opened] at h
  split at h
  · cases h
  · obtain ⟨made, hmade, h⟩ := exists_of_bind_eq_ok h
    split at h
    · cases h
    · obtain ⟨written, hwritten, h⟩ := exists_of_bind_eq_ok h
      cases h
      exact (grown_of_makeDirectories hmade).trans (grown_of_write hwritten)

namespace Command

theorem grown_of_openLog {level : LogLevel} {path : Option Path} {file : Option LogFile}
    (h : openLog fs level path = .ok (after, file)) : Grown fs after := by
  cases path with
  | none =>
    cases h
    exact .refl
  | some path =>
    rw [openLog] at h
    cases hopened : LogFile.opened fs path level with
    | error e =>
      rw [hopened] at h
      cases h
    | ok opened =>
      rw [hopened] at h
      cases h
      exact LogFile.grown_of_opened hopened

/-- A record changes the files by what the log file gets. -/
theorem run_note_files {file : Option LogFile} {r : LogRecord} {s after : Session} {u : Unit}
    (h : (note file r).run s = (.ok u, after)) : Grown s.files after.files := by
  cases h
  cases file with
  | none => exact .refl
  | some file => exact file.grown_add s.files r

end Command

/-! ## Entering a project -/

theorem FileSystem.currentDirectory_eq_ok {here : Path} (h : fs.currentDirectory = .ok here) :
    here.anchor = .root ∧ fs.workingDirectory = some here.names := by
  rw [currentDirectory] at h
  split at h
  · next names hnames =>
    split_ifs at h
    cases h
    exact ⟨rfl, hnames⟩
  · cases h

theorem FileSystem.enter_eq_ok {p : Path} (h : fs.enter p = .ok after) :
    ∃ names, fs.find p true = .ok (.found names) ∧
      after = { fs with workingDirectory := some names } := by
  obtain ⟨_, -, h⟩ := exists_of_bind_eq_ok h
  rw [status] at h
  split at h
  · cases h
  · next names node hstatus =>
    split at h
    · cases h
      refine ⟨names, ?_, rfl⟩
      cases hfind : fs.find p true with
      | error e => simp [hfind, arrivedAt] at hstatus
      | ok arrival =>
        cases arrival with
        | vacant place => simp [hfind, arrivedAt] at hstatus
        | found place =>
          rw [hfind, arrivedAt] at hstatus
          split at hstatus
          · cases hstatus
            rfl
          · cases hstatus
    · cases h

namespace Project

/-- A project is entered at its root, where its names lead if it is given by a canonical path. -/
theorem enterRoot_eq_ok {root : Path} (h : enterRoot fs root = .ok after) :
    after.root = fs.root ∧ (Direct fs root → after.workingDirectory = some root.names) := by
  rw [enterRoot] at h
  split at h
  · cases h
  · cases h
  · next entered hentered =>
    cases h
    obtain ⟨names, hfind, rfl⟩ := enter_eq_ok hentered
    refine ⟨rfl, fun hroot => congrArg some ?_⟩
    rw [hroot.eq] at hfind
    rcases find_of_straight hroot.straight hfind with heq | heq
    · exact Arrival.found.inj heq
    · cases heq

theorem root_of_load {root : Path} {p : Project} (h : load fs root = .ok p) : p.root = root := by
  obtain ⟨manifest, -, h⟩ := exists_of_bind_eq_ok h
  obtain ⟨dirs, -, h⟩ := exists_of_bind_eq_ok h
  cases h
  rfl

theorem mem_of_findRoot {start root : Path} (h : findRoot fs start = .ok root) :
    root ∈ start :: start.parents := by
  rw [findRoot] at h
  split at h
  · cases h
  · next dir hfirst => exact Except.ok.inj h ▸ mem_of_firstWithManifest hfirst
  · cases h

end Project

namespace Command

/-- What a command has done when it has opened a project from a directory: it has found and entered
the root of the project, and then at most written to its log file. -/
structure HasOpened (before : FileSystem) (project : Project) (origin : Path)
    (moved after : FileSystem) : Prop where
  here : before.currentDirectory = .ok origin
  found : Project.findRoot before origin = .ok project.root
  entered : Project.enterRoot before project.root = .ok moved
  grown : Grown moved after

theorem hasOpened_of_openProject {file : Option LogFile} {paths : List String} {s after : Session}
    {project : Project} {files : PathSet}
    (h : (openProject file paths).run s = (.ok (project, files), after)) :
    ∃ origin moved, HasOpened s.files project origin moved after.files := by
  rw [openProject, Action.run_get_bind] at h
  obtain ⟨origin, horigin, h⟩ := Action.run_lift_bind_eq_ok h
  rw [Action.run_get_bind] at h
  obtain ⟨root, hroot, h⟩ := Action.run_lift_bind_eq_ok h
  rw [Action.run_get_bind] at h
  obtain ⟨moved, hmoved, h⟩ := Action.run_lift_bind_eq_ok h
  rw [Action.run_bind_of_ok (Action.run_change ..)] at h
  obtain ⟨⟨⟩, told, htold, h⟩ := Action.run_bind_eq_ok h
  rw [Action.run_get_bind] at h
  obtain ⟨loaded, hloaded, h⟩ := Action.run_lift_bind_eq_ok h
  obtain ⟨⟨⟩, described, hdescribed, h⟩ := Action.run_bind_eq_ok h
  rw [Action.run_get_bind] at h
  obtain ⟨gathered, hgathered, h⟩ := Action.run_lift_bind_eq_ok h
  obtain ⟨⟨⟩, counted, hcounted, h⟩ := Action.run_bind_eq_ok h
  have hgrown : Grown moved counted.files :=
    (run_note_files htold).trans ((run_note_files hdescribed).trans (run_note_files hcounted))
  split at h
  · cases h
  · cases h
    obtain rfl := Project.root_of_load hloaded
    exact ⟨origin, moved, eq_ok_of_mapError horigin, hroot, hmoved, hgrown⟩

end Command

/-! ## Locating the tool -/

/-- The tool beside an executable that a path names is located where the path leads. -/
theorem Dump.locate_eq_ok {s : Surroundings} {executable : String} {tool : Path}
    (hslash : hasSlash executable = true)
    (h : Dump.locate fs s executable Dump.programName = .ok tool) :
    ∃ exe, fs.resolve (Path.ofString executable) = .ok exe ∧
      tool = exe.parent.child Dump.programName := by
  have hne : executable ≠ "" := by
    rintro rfl
    exact absurd hslash (by decide)
  rw [Dump.locate, if_neg hne, if_pos hslash] at h
  dsimp only at h
  cases hexe : fs.resolve (Path.ofString executable) with
  | error e =>
    rw [hexe] at h
    cases e <;> cases h
  | ok exe =>
    rw [hexe] at h
    change exe.sibling Dump.programName = .ok tool at h
    rw [Path.sibling] at h
    split_ifs at h with hroot hname
    · exact ⟨exe, rfl, (Except.ok.inj h).symm⟩

/-- Whether a command came to work with the dump tool beside an executable. -/
def CommandOutcome.HasToolBeside (o : CommandOutcome) (exe : Path) : Prop :=
  o.executables.map (· .dump) = some (toString (exe.parent.child Dump.programName))

namespace Command

/-- A command that makes a run ready works with its tools. -/
theorem executables_of_attempt {i : Invocation} {a : Arguments} {t : Attempt}
    (h : attempt i a = .ok t) :
    (run i a).executables = some fun role => (t.pipeline.tools role).executable := by
  obtain ⟨bindings, settings, fs, file, p, after, hbindings, hsettings, hlog, hp, hready⟩ :=
    attempt_eq_ok h
  obtain ⟨⟨project, files⟩, opened, hopened, hready⟩ := Action.run_bind_eq_ok hready
  obtain ⟨dump, located, hdump, hready⟩ := Action.run_bind_eq_ok hready
  cases hready
  rw [run_eq hbindings hsettings hlog]
  change (course i bindings settings a file { files := fs }).executables = _
  rw [course]
  simp only [hp, hopened, hdump]
  rfl

theorem run_dumpTool_of_none {i : Invocation} {s : Surroundings} {settings : Settings}
    {session after : Session} {tool : String} (hunset : settings.interfaceDump = none)
    (h : (dumpTool i s settings).run session = (.ok tool, after)) :
    after = session ∧ ∃ path, Dump.locate session.files s i.executable Dump.programName = .ok path ∧
      tool = toString path := by
  rw [dumpTool, hunset] at h
  dsimp only at h
  rw [Action.run_get_bind] at h
  obtain ⟨path, hpath, h⟩ := Action.run_lift_bind_eq_ok h
  cases h
  exact ⟨rfl, path, hpath, rfl⟩

theorem interfaceDump_eq_none {bindings : Variables} {settings : Settings}
    (hunset : ∀ text, bindings "ELM_TEST_INTERFACE_DUMP" = some text → text = "")
    (h : Settings.ofVariables bindings = .ok settings) : settings.interfaceDump = none := by
  have hnone : (bindings "ELM_TEST_INTERFACE_DUMP").filter (· ≠ "") = none := by
    rw [Option.filter_eq_none_iff]
    intro text htext
    simp [hunset text htext]
  rw [Settings.ofVariables] at h
  split at h
  · cases h
    exact hnone
  · next value hvalue =>
    cases hread : IntegerText.read Settings.workersVariable value true with
    | error e =>
      rw [hread] at h
      cases h
    | ok n =>
      rw [hread] at h
      cases h
      exact hnone

/-- How a run without a set dump tool was made ready. -/
theorem exists_hasOpened {i : Invocation} {a : Arguments} {t : Attempt} {bindings : Variables}
    (h : attempt i a = .ok t) (hbindings : i.variableSource.read i.files i.bindings = .ok bindings)
    (hunset : ∀ text, bindings "ELM_TEST_INTERFACE_DUMP" = some text → text = "")
    (hslash : hasSlash i.executable = true) :
    ∃ logged project origin moved exe, Grown i.files logged ∧
      HasOpened logged project origin moved t.session.files ∧ t.pipeline.root = project.root ∧
      t.session.files.resolve (Path.ofString i.executable) = .ok exe ∧
      (run i a).HasToolBeside exe := by
  have hexecutables := executables_of_attempt h
  obtain ⟨bindings', settings, logged, file, p, after, hbindings', hsettings, hlog, -, hready⟩ :=
    attempt_eq_ok h
  obtain rfl : bindings = bindings' := Except.ok.inj (hbindings.symm.trans hbindings')
  replace hunset := interfaceDump_eq_none hunset hsettings
  obtain ⟨⟨project, files⟩, opened, hopened, hready⟩ := Action.run_bind_eq_ok hready
  obtain ⟨tool, located, htool, hready⟩ := Action.run_bind_eq_ok hready
  cases hready
  obtain ⟨origin, moved, hopens⟩ := hasOpened_of_openProject hopened
  obtain ⟨rfl, path, hlocate, rfl⟩ := run_dumpTool_of_none hunset htool
  obtain ⟨exe, hexe, rfl⟩ := Dump.locate_eq_ok hslash hlocate
  refine ⟨logged, project, origin, moved, exe, grown_of_openLog hlog, hopens, rfl, hexe, ?_⟩
  rw [CommandOutcome.HasToolBeside, hexecutables]
  rfl

/-- How the dump tool of a run is located that was made ready from a directory: it lies beside an
executable. -/
structure LocatesTool (i : Invocation) (a : Arguments) (t : Attempt) (origin exe : Path) :
    Prop where
  called : origin.anchor = .root ∧ i.files.workingDirectory = some origin.names
  root : t.pipeline.root ∈ origin :: origin.parents
  /-- From a directory that is given by its canonical path the command goes to the root of the
  project. -/
  moved : Direct i.files origin → t.session.files.workingDirectory = some t.pipeline.root.names
  /-- The name of the command leads to the executable from where the command has gone. -/
  resolved : t.session.files.resolve (Path.ofString i.executable) = .ok exe
  /-- If it led anywhere from there before the command wrote to its log file, it led to the same. -/
  before : ∀ found, { i.files with workingDirectory := t.session.files.workingDirectory }.resolve
    (Path.ofString i.executable) = .ok found → found = exe
  tool : (run i a).HasToolBeside exe

theorem locatesTool_of_hasOpened {i : Invocation} {a : Arguments} {t : Attempt}
    {logged moved : FileSystem} {project : Project} {origin exe : Path}
    (hlogged : Grown i.files logged)
    (hopened : HasOpened logged project origin moved t.session.files)
    (hproject : t.pipeline.root = project.root)
    (hexe : t.session.files.resolve (Path.ofString i.executable) = .ok exe)
    (htool : (run i a).HasToolBeside exe) : LocatesTool i a t origin exe := by
  obtain ⟨hroot, hmoved⟩ := Project.enterRoot_eq_ok hopened.entered
  constructor
  case called =>
    rw [← hlogged.workingDirectory]
    exact currentDirectory_eq_ok hopened.here
  case root => exact hproject ▸ Project.mem_of_findRoot hopened.found
  case moved =>
    intro horigin
    rw [hopened.grown.workingDirectory, hproject]
    exact hmoved (Project.direct_of_findRoot (horigin.of_grown hlogged) hopened.found)
  case resolved => exact hexe
  case before =>
    intro found hfound
    have hsame : { logged with workingDirectory := t.session.files.workingDirectory } = moved := by
      rw [hopened.grown.workingDirectory, ← hroot]
    have hgrown : Grown { i.files with workingDirectory := t.session.files.workingDirectory }
        t.session.files :=
      (hsame ▸ hlogged.within t.session.files.workingDirectory).trans hopened.grown
    exact Except.ok.inj ((hgrown.resolve hfound).symm.trans hexe)
  case tool => exact htool

/-- The tools beside two executables are the same if these lie in one directory. -/
theorem LocatesTool.hasToolBeside_iff {i : Invocation} {a : Arguments} {t : Attempt}
    {origin exe found : Path} (h : LocatesTool i a t origin exe) (horigin : Direct i.files origin)
    (hfound : i.files.resolve (Path.ofString i.executable) = .ok found) :
    (run i a).HasToolBeside found ↔ found.parent = exe.parent := by
  have hroot : Direct i.files t.pipeline.root := by
    rcases List.mem_cons.mp h.root with heq | habove
    · exact heq ▸ horigin
    · exact horigin.of_mem_parents habove
  have hnames : ∀ n ∈ (Path.ofString i.executable).names, Path.IsName n :=
    fun _ hname => Path.isName_of_mem_ofString hname
  have hfoundNames := isName_of_resolve (by rw [h.called.2]; exact horigin.isName) hnames hfound
  have hexeNames :=
    isName_of_resolve (by rw [h.moved horigin]; exact hroot.isName) hnames h.resolved
  refine ⟨fun htool => ?_, fun hparent => ?_⟩
  · have hchild {p : Path} (hp : p.anchor = .root ∧ ∀ name ∈ p.names, Path.IsName name) :
        ∀ name ∈ (p.parent.child Dump.programName).names, Path.IsName name :=
      List.forall_mem_append.mpr ⟨fun name hname => hp.2 name (List.dropLast_subset _ hname),
        List.forall_mem_singleton.mpr ⟨by decide, by decide, by decide⟩⟩
    exact Path.child_inj (Path.toString_inj hfoundNames.1 (hchild hfoundNames) hexeNames.1
      (hchild hexeNames) (Option.some.inj (htool.symm.trans h.tool)))
  · rw [CommandOutcome.HasToolBeside, hparent]
    exact h.tool

/-- **The interface dump tool of a command** whose name has a slash lies beside the executable that
the name leads to from the root of the project. It is the one beside the executable that the name
leads to from where the command was called if and only if the two lie in one directory, as they do
if the name is absolute or the command was called at the root. -/
theorem dumpTool_of_attempt {i : Invocation} {a : Arguments} {t : Attempt} {bindings : Variables}
    (h : attempt i a = .ok t) (hbindings : i.variableSource.read i.files i.bindings = .ok bindings)
    (hunset : ∀ text, bindings "ELM_TEST_INTERFACE_DUMP" = some text → text = "")
    (hslash : hasSlash i.executable = true) :
    ∃ origin exe, LocatesTool i a t origin exe ∧
      (Direct i.files origin → ∀ found, i.files.resolve (Path.ofString i.executable) = .ok found →
        ((run i a).HasToolBeside found ↔ found.parent = exe.parent) ∧
        ((Path.ofString i.executable).isAbsolute = true ∨ t.pipeline.root = origin →
          found = exe)) := by
  obtain ⟨logged, project, origin, moved, exe, hlogged, hopened, hproject, hexe, htool⟩ :=
    exists_hasOpened h hbindings hunset hslash
  have hlocates := locatesTool_of_hasOpened hlogged hopened hproject hexe htool
  refine ⟨origin, exe, hlocates, fun horigin found hfound =>
    ⟨hlocates.hasToolBeside_iff horigin hfound, ?_⟩⟩
  rintro (habsolute | hroot)
  · exact hlocates.before found (@resolve_of_isAbsolute i.files _ found _ habsolute rfl hfound)
  · refine hlocates.before found ?_
    rw [hlocates.moved horigin, hroot, ← hlocates.called.2]
    exact hfound

/-- The files of a project with two executables of one name, at its root and in a directory. -/
def twoToolFiles : Node :=
  let manifest := "\x7b\"source-directories\":[\"tests\"]\x7d"
  let project := (Node.empty.put ["elm.json"] (.file manifest.toUTF8.toList false)).put
    ["tests", "T.elm"] (.file "module T exposing (..)".toUTF8.toList false)
  (project.put [name] (.file [] true)).put ["tools", name] (.file [] true)

/-- A call of the executable in a directory, from there. -/
def toolsCall : Invocation where
  words := []
  bindings := fun _ => none
  variableSource := .none
  executable := "./" ++ name
  files := ⟨twoToolFiles, some ["tools"]⟩
  homeOf := fun _ => none
  processors := 1
  terminal := false
  outcome := fun role _ => .ended ⟨0, if role = .dump then "[]" else "", ""⟩

theorem dumpTool_toolsCall : ∃ t, attempt toolsCall {} = .ok t ∧
    toolsCall.variableSource.read toolsCall.files toolsCall.bindings = .ok toolsCall.bindings ∧
    (∀ text, toolsCall.bindings "ELM_TEST_INTERFACE_DUMP" = some text → text = "") ∧
    hasSlash toolsCall.executable = true ∧ Direct toolsCall.files ⟨.root, ["tools"]⟩ ∧
    ∃ exe, LocatesTool toolsCall {} t ⟨.root, ["tools"]⟩ exe ∧
      ((run toolsCall {}).HasToolBeside ⟨.root, ["tools", name]⟩ ↔
        ⟨.root, ["tools"]⟩ = exe.parent) := by
  have hready : (attempt toolsCall {}).toOption.isSome = true := by decide +kernel
  have hslash : hasSlash toolsCall.executable = true := by decide +kernel
  have hunset : ∀ text, toolsCall.bindings "ELM_TEST_INTERFACE_DUMP" = some text → text = "" :=
    nofun
  have hentry : toolsCall.files.entryAt (Path.child ⟨.root, []⟩ "tools") =
    .ok (.dir [(name, .file [] true)]) := rfl
  have hdirect : Direct toolsCall.files ⟨.root, ["tools"]⟩ :=
    .child .root ⟨by decide, by decide, by decide⟩ (by decide) hentry nofun
  cases h : attempt toolsCall {} with
  | error e =>
    rw [h] at hready
    cases hready
  | ok t =>
    obtain ⟨⟨anchor, names⟩, exe, hlocates, hfound⟩ := dumpTool_of_attempt h rfl hunset hslash
    obtain rfl : anchor = .root := hlocates.called.1
    obtain rfl : ["tools"] = names := Option.some.inj hlocates.called.2
    exact ⟨t, rfl, rfl, hunset, hslash, hdirect, exe, hlocates,
      (hfound hdirect ⟨.root, ["tools", name]⟩ (by decide +kernel)).1⟩

/-- The name leads to the executable in the directory, and the tool is the one at the root. -/
theorem dumpTool_notFromOrigin :
    toolsCall.files.resolve (Path.ofString toolsCall.executable) = .ok ⟨.root, ["tools", name]⟩ ∧
    ¬(run toolsCall {}).HasToolBeside ⟨.root, ["tools", name]⟩ ∧
    (run toolsCall {}).HasToolBeside ⟨.root, [name]⟩ := by
  have hdump : (run toolsCall {}).executables.map (· .dump) = some "/elm-interface-to-json" := by
    decide +kernel
  rw [CommandOutcome.HasToolBeside, CommandOutcome.HasToolBeside, hdump]
  decide +kernel

end Command

end ElmSuite
