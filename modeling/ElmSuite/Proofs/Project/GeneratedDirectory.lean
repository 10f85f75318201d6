import ElmSuite.Proofs.Files.Growth
import ElmSuite.Proofs.ModuleTable
import ElmSuite.Proofs.Program.ModuleFile
import ElmSuite.Proofs.Project.GeneratedManifest
import ElmSuite.Proofs.Project.Load

/-!
# What the generated directory sees

A program is compiled in the generated directory, by the manifest that was written there.
Loaded as a project, that directory has the source directory of the program, and those of
the project if the manifest is that of an application. The manifest of a package lists
them too, but a package has no other source directory than `src`.
-/

namespace ElmSuite.Project

open FileSystem

/-! ## The root of a project -/

theorem mem_of_firstWithManifest {fs : FileSystem} {dirs : List Path} {dir : Path}
    (h : firstWithManifest fs dirs = .ok (some dir)) : dir ∈ dirs := by
  induction dirs with
  | nil => cases h
  | cons first rest ih =>
    rw [firstWithManifest] at h
    split at h
    · cases h
    · cases h
      exact List.mem_cons_self ..
    · exact List.mem_cons_of_mem first (ih h)

/-- A root that is found from a canonical path is given by a canonical path itself. -/
theorem direct_of_findRoot {fs : FileSystem} {start root : Path} (hstart : Direct fs start)
    (h : findRoot fs start = .ok root) : Direct fs root := by
  rw [findRoot] at h
  split at h
  · cases h
  · next dir hfirst =>
    obtain rfl : dir = root := Except.ok.inj h
    rcases List.mem_cons.mp (mem_of_firstWithManifest hfirst) with rfl | habove
    · exact hstart
    · exact hstart.of_mem_parents habove
  · cases h

/-! ## The source directories of a project -/

section Loaded

variable {fs : FileSystem} {root : Path} {p : Project}

theorem isName_of_mem_joinText (hnames : ∀ name ∈ root.names, Path.IsName name) (entry : String) :
    ∀ name ∈ (root.joinText entry).names, Path.IsName name := by
  intro name hname
  rw [Path.joinText, Path.join] at hname
  split at hname
  · exact Path.isName_of_mem_ofString hname
  · rcases List.mem_append.mp hname with hname | hname
    · exact hnames name hname
    · exact Path.isName_of_mem_ofString hname

theorem isAbsolute_joinText (habsolute : root.isAbsolute = true) (entry : String) :
    (root.joinText entry).isAbsolute = true := by
  rw [Path.joinText, Path.join]
  split
  · assumption
  · exact habsolute

/-- The directory that an entry leads to is given by its canonical path. -/
theorem LeadsToDirectory.direct {entry : CodePoints} {dir : Path}
    (habsolute : root.isAbsolute = true) (hnames : ∀ name ∈ root.names, Path.IsName name)
    (h : LeadsToDirectory fs root entry dir) : Direct fs dir ∧ fs.isDir dir = .ok true := by
  obtain ⟨s, -, hresolve, hdir⟩ := h.exists_text
  exact ⟨direct_of_resolve (isAbsolute_joinText habsolute s) (isName_of_mem_joinText hnames s) hresolve,
    hdir⟩

/-- A directory that is given by its canonical path. -/
theorem leadsToDirectory_of_direct {dir : Path} (h : Direct fs dir) (hdir : fs.isDir dir = .ok true)
    (base : Path) : LeadsToDirectory fs base (.ofString (toString dir)) dir := by
  have hjoin : base.joinText (toString dir) = dir := by
    rw [h.eq, Path.joinText_toString h.isName]
  exact leadsToDirectory_ofString.mpr ⟨by rw [hjoin, resolve_of_direct h], hdir⟩

/-- What was read when a project was loaded. -/
theorem exists_loaded (h : load fs root = .ok p) :
    ∃ text fields dirs tests, JsonReader.document text = .ok (.object fields) ∧
      Manifest.Describes fields p.manifest ∧
      List.Forall₂ (LeadsToDirectory fs root) (declaredDirectories p.manifest) dirs ∧
      fs.isDir (root.child testsDirectory) = .ok tests ∧
      p.sourceDirs =
        (dirs ++ if tests then [fs.resolved (root.child testsDirectory)] else []).eraseDups := by
  have hloads := loads_load fs root
  rw [h] at hloads
  cases hloads with
  | loaded htext hdocument hm hdirs htests => exact ⟨_, _, _, _, hdocument, hm, hdirs, htests, rfl⟩

theorem isName_testsDirectory : Path.IsName testsDirectory :=
  ⟨by decide, by decide, by decide⟩

/-- Each source directory of a project is given by its canonical path, if that of its tests can be
told. -/
theorem direct_of_mem_sourceDirs (habsolute : root.isAbsolute = true)
    (hnames : ∀ name ∈ root.names, Path.IsName name) (h : load fs root = .ok p)
    (htests : fs.isDir (root.child testsDirectory) = .ok true →
      ∃ dir, LeadsToDirectory fs root (.ofString testsDirectory) dir) {dir : Path} (hmem : dir ∈ p.sourceDirs) :
    Direct fs dir ∧ fs.isDir dir = .ok true := by
  obtain ⟨text, fields, dirs, tests, -, -, hdirs, hisDir, hsources⟩ := exists_loaded h
  rw [hsources, List.mem_eraseDups, List.mem_append] at hmem
  rcases hmem with hmem | hmem
  · obtain ⟨entry, -, hentry⟩ := exists_mem_of_forall₂ hdirs hmem
    exact hentry.direct habsolute hnames
  · cases tests with
    | false => cases hmem
    | true =>
      obtain ⟨reached, hreached⟩ := htests hisDir
      have hresolved : fs.resolved (root.child testsDirectory) = reached := by
        rw [resolved, ← Path.joinText_of_isName isName_testsDirectory root,
          (leadsToDirectory_ofString.mp hreached).1]
      rw [if_pos rfl, List.mem_singleton, hresolved] at hmem
      exact hmem ▸ hreached.direct habsolute hnames

end Loaded

/-! ## What is written below the root -/

/-- Loads a project, and writes the manifest for generated programs and one program. -/
def prepare (fs : FileSystem) (root : Path) (moduleName source : String) :
    Except Fault (Project × FileSystem) := do
  let p ← load fs root
  let written ← Manifest.write fs ⟨root⟩ (p.generatedManifest ⟨root⟩)
  let after ← written.writeTextWithParents (Layout.programFile ⟨root⟩ moduleName) source
  return (p, after)

theorem prepare_eq_ok {fs after : FileSystem} {root : Path} {moduleName source : String}
    {p : Project} (h : prepare fs root moduleName source = .ok (p, after)) :
    load fs root = .ok p ∧
      ∃ written, Manifest.write fs ⟨root⟩ (p.generatedManifest ⟨root⟩) = .ok written ∧
        written.writeTextWithParents (Layout.programFile ⟨root⟩ moduleName) source = .ok after := by
  rw [prepare] at h
  match hload : load fs root with
  | .error e => simp [hload, bind, Except.bind] at h
  | .ok p' =>
    match hmanifest : Manifest.write fs ⟨root⟩ (p'.generatedManifest ⟨root⟩) with
    | .error e => simp [hload, hmanifest, bind, Except.bind] at h
    | .ok written =>
      match hprogram : written.writeTextWithParents (Layout.programFile ⟨root⟩ moduleName) source with
      | .error e => simp [hload, hmanifest, hprogram, bind, Except.bind] at h
      | .ok after' =>
        simp only [hload, hmanifest, hprogram, bind, Except.bind, pure, Except.pure, Except.ok.injEq,
          Prod.mk.injEq] at h
        obtain ⟨rfl, rfl⟩ := h
        exact ⟨rfl, written, hmanifest, hprogram⟩

/-- The manifest and a program were written for a project that was loaded from its canonical root, with
no links among the generated files. -/
structure Prepared (fs after : FileSystem) (root : Path) (p : Project) (moduleName source : String) :
    Prop where
  prepared : prepare fs root moduleName source = .ok (p, after)
  names : ∀ name ∈ root.names, Path.IsName name
  canonical : fs.resolve root = .ok root
  noLinks : ∀ names target, fs.root.at? (root.names ++ "elm-stuff" :: names) ≠ some (.link target)
  /-- The directory of the tests, if there is one, can be looked up by its canonical path. -/
  tests : fs.isDir (root.child testsDirectory) = .ok true →
    ∃ dir, LeadsToDirectory fs root (.ofString testsDirectory) dir
  isModuleName : IsModuleName moduleName

namespace Prepared

variable {fs after : FileSystem} {root : Path} {p : Project} {moduleName source : String}

/-- The names below the root of the program that is written. -/
def programNames (moduleName : String) : List String :=
  "src" :: Layout.fileSegments (splitString '.' moduleName)

theorem loaded (h : Prepared fs after root p moduleName source) : load fs root = .ok p :=
  (prepare_eq_ok h.prepared).1

theorem isAbsolute (h : Prepared fs after root p moduleName source) : root.isAbsolute = true :=
  isAbsolute_of_resolve h.canonical

theorem direct (h : Prepared fs after root p moduleName source) : Direct fs root :=
  direct_of_resolve h.isAbsolute h.names h.canonical

theorem programFile_eq (h : Prepared fs after root p moduleName source) :
    Layout.programFile ⟨root⟩ moduleName =
      ⟨.root, (Layout.directory ⟨root⟩).names ++ programNames moduleName⟩ := by
  rw [Layout.programFile_eq _ h.isModuleName, programNames]
  simp only [Layout.sourceDirectory, Layout.directory, Path.child, h.direct.anchor,
    List.append_assoc, List.cons_append, List.nil_append]

/-- Names below the generated directory are straight before the files are written. -/
theorem straight (h : Prepared fs after root p moduleName source) {below : List String}
    (hbelow : ∀ name ∈ below, name ≠ "." ∧ name ≠ "..") :
    Straight fs.root ((Layout.directory ⟨root⟩).names ++ below) := by
  have hroot := h.direct.straight
  have hfixed : ∀ name ∈ ["elm-stuff", "generated-code", "elm-community", "elm-test"],
      name ≠ "." ∧ name ≠ ".." := by decide
  simp only [Layout.directory, List.append_assoc]
  constructor
  · intro name hname
    rcases List.mem_append.mp hname with hname | hname
    · exact hroot.down name hname
    · exact (List.mem_append.mp hname).elim (hfixed name) (hbelow name)
  · intro front hne hfront target hlink
    rcases List.prefix_or_prefix_of_prefix hfront (List.prefix_append root.names _) with
      hshort | ⟨rest, rfl⟩
    · exact hroot.noLink front hne hshort target hlink
    · rw [List.prefix_append_right_inj] at hfront
      cases rest with
      | nil =>
        rw [List.append_nil] at hne hlink
        exact hroot.noLink _ hne (List.prefix_refl _) target hlink
      | cons first rest =>
        obtain rfl : first = "elm-stuff" := (List.cons_prefix_cons.mp hfront).1
        exact h.noLinks rest target hlink

theorem down_programNames (h : Prepared fs after root p moduleName source) :
    ∀ name ∈ programNames moduleName, Path.IsName name ∧ name ≠ ".." := by
  refine List.forall_mem_cons.mpr ⟨⟨⟨by decide, by decide, by decide⟩, by decide⟩, fun name hname => ?_⟩
  refine ⟨Layout.isName_of_mem_fileSegments h.isModuleName name hname, ?_⟩
  rintro rfl
  exact Layout.up_not_mem_fileSegments h.isModuleName hname

theorem straight_program (h : Prepared fs after root p moduleName source) :
    Straight fs.root ((Layout.directory ⟨root⟩).names ++ programNames moduleName) :=
  h.straight fun name hname =>
    ⟨(h.down_programNames name hname).1.ne_dot, (h.down_programNames name hname).2⟩

theorem manifest_eq (h : Prepared fs after root p moduleName source) :
    Layout.manifest ⟨root⟩ = ⟨.root, (Layout.directory ⟨root⟩).names ++ [Manifest.fileName]⟩ := by
  simp only [Layout.manifest, Layout.directory, Path.child, h.direct.anchor, Manifest.fileName]

theorem straight_manifest (h : Prepared fs after root p moduleName source) :
    Straight fs.root ((Layout.directory ⟨root⟩).names ++ [Manifest.fileName]) :=
  h.straight (List.forall_mem_singleton.mpr (by decide))

/-- Both files were written one after the other, and are as they were written. -/
theorem exists_growth (h : Prepared fs after root p moduleName source) :
    ∃ middle, Growth ((Layout.directory ⟨root⟩).names ++ [Manifest.fileName]) fs middle ∧
      Growth ((Layout.directory ⟨root⟩).names ++ programNames moduleName) middle after ∧
      after.read (Layout.manifest ⟨root⟩) =
        .ok (Manifest.text (p.generatedManifest ⟨root⟩)).toUTF8.toList ∧
      after.read (Layout.programFile ⟨root⟩ moduleName) = .ok source.toUTF8.toList := by
  obtain ⟨-, middle, hmanifest, hprogram⟩ := prepare_eq_ok h.prepared
  have hprogramRead := read_writeTextWithParents hprogram
  have hmanifestRead := read_writeTextWithParents hmanifest
  rw [Manifest.write] at hmanifest
  rw [h.manifest_eq] at hmanifest hmanifestRead ⊢
  rw [h.programFile_eq] at hprogram hprogramRead ⊢
  have hfirst := growth_of_writeTextWithParents h.straight_manifest hmanifest
  have hsecond := growth_of_writeTextWithParents (h.straight_program.of_grows hfirst.tree) hprogram
  refine ⟨middle, hfirst, hsecond, ?_, hprogramRead⟩
  refine hsecond.read (h.straight_manifest.of_grows hfirst.tree) (fun heq => ?_) hmanifestRead
  have hname := (List.cons.inj (List.append_cancel_left heq)).1
  exact absurd hname (by decide)

/-- What the generated directory and its source directory are once the files are written. -/
structure Built (after : FileSystem) (root : Path) : Prop where
  source : Direct after (Layout.sourceDirectory ⟨root⟩) ∧
    after.isDir (Layout.sourceDirectory ⟨root⟩) = .ok true
  tests : ∃ tests, after.isDir ((Layout.directory ⟨root⟩).child testsDirectory) = .ok tests ∧
    (tests = true → Direct after ((Layout.directory ⟨root⟩).child testsDirectory))

theorem isName_of_mem_directory (h : Prepared fs after root p moduleName source) :
    ∀ name ∈ (Layout.directory ⟨root⟩).names, Path.IsName name := by
  intro name hname
  rcases List.mem_append.mp hname with hname | hname
  · exact h.names name hname
  · simp only [List.mem_cons, List.not_mem_nil, or_false] at hname
    rcases hname with rfl | rfl | rfl | rfl <;> exact ⟨by decide, by decide, by decide⟩

/-- The path of the tests is no longer than that of the program. -/
theorem utf8ByteSize_tests_le (h : Prepared fs after root p moduleName source) :
    (toString (⟨.root, (Layout.directory ⟨root⟩).names ++ [testsDirectory]⟩ : Path)).utf8ByteSize ≤
      (toString (⟨.root, (Layout.directory ⟨root⟩).names ++ programNames moduleName⟩ :
        Path)).utf8ByteSize := by
  have hne : (Layout.directory ⟨root⟩).names ≠ [] := by simp [Layout.directory]
  obtain ⟨name, rest, hsegments⟩ := List.exists_cons_of_ne_nil
    (Layout.fileSegments_ne_nil (splitString_ne_nil '.' moduleName))
  have hname : name ≠ "" := (h.down_programNames name (by simp [programNames, hsegments])).1.ne_empty
  have hpos : 0 < name.utf8ByteSize := by
    rw [Nat.pos_iff_ne_zero, Ne, String.utf8ByteSize_eq_zero_iff]
    exact hname
  have hlast : 0 < (String.intercalate "/" (name :: rest)).utf8ByteSize := by
    cases rest with
    | nil => rwa [String.intercalate_singleton]
    | cons next rest =>
      rw [String.intercalate_cons_cons, String.utf8ByteSize_append, String.utf8ByteSize_append]
      omega
  have htests : testsDirectory.utf8ByteSize = 5 := by decide
  have hsrc : "src".utf8ByteSize = 3 := by decide
  have hslash : "/".utf8ByteSize = 1 := by decide
  rw [Path.utf8ByteSize_append hne (by simp), Path.utf8ByteSize_append hne (by simp [programNames]),
    String.intercalate_singleton, programNames, hsegments, String.intercalate_cons_cons,
    String.utf8ByteSize_append, String.utf8ByteSize_append]
  omega

theorem built (h : Prepared fs after root p moduleName source) : Built after root := by
  obtain ⟨middle, hfirst, hsecond, -, hread⟩ := h.exists_growth
  have hstraight {names : List String} (h : Straight fs.root names) : Straight after.root names :=
    (h.of_grows hfirst.tree).of_grows hsecond.tree
  have hdirectory (name : String) : (Layout.directory ⟨root⟩).child name =
      ⟨.root, (Layout.directory ⟨root⟩).names ++ [name]⟩ := by
    simp only [Layout.directory, Path.child, h.direct.anchor]
  have hnames := h.isName_of_mem_directory
  have hprogram := hstraight h.straight_program
  have hbelow : programNames moduleName ≠ [] := by simp [programNames]
  rw [h.programFile_eq] at hread
  obtain ⟨hnul, names, executable, hfind, -⟩ := read_eq_ok hread
  have hnulDirectory : hasNul ⟨.root, (Layout.directory ⟨root⟩).names⟩ = false := by
    rw [hasNul_append, Bool.or_eq_false_iff] at hnul
    exact hnul.1
  constructor
  · have hsplit : (Layout.directory ⟨root⟩).names ++ programNames moduleName =
        ((Layout.directory ⟨root⟩).names ++ ["src"]) ++
          Layout.fileSegments (splitString '.' moduleName) := by
      rw [programNames, List.append_assoc]
      rfl
    rw [hsplit] at hprogram hnul hfind
    rw [Layout.sourceDirectory, hdirectory]
    refine direct_front hprogram (fun name hname => ?_)
      (Layout.fileSegments_ne_nil (splitString_ne_nil '.' moduleName)) hnul hfind
    rcases List.mem_append.mp hname with hname | hname
    · exact hnames name hname
    · exact (h.down_programNames name (List.mem_singleton.mp hname ▸ List.mem_cons_self ..)).1
  · have hdirect := (direct_front hprogram hnames hbelow hnul hfind).1
    have hlength := h.utf8ByteSize_tests_le
    have hmax := ((find_eq_ok_iff_of_straight hprogram).mp hfind).1
    rw [hdirectory]
    refine isDir_beside hprogram hbelow hfind hdirect (hstraight (h.straight ?_)) isName_testsDirectory
      ?_ (by decide) (by omega)
    · exact List.forall_mem_singleton.mpr (by decide)
    · rw [hasNul_append, hnulDirectory]
      decide

/-- Once the files are written, the directories that the manifest lists are given by their canonical
paths. -/
theorem direct_of_mem_listed (h : Prepared fs after root p moduleName source) :
    ∀ dir ∈ (Layout.mk root).sourceDirectory :: p.sourceDirs,
      Direct after dir ∧ after.isDir dir = .ok true := by
  obtain ⟨middle, hfirst, hsecond, -, -⟩ := h.exists_growth
  refine List.forall_mem_cons.mpr ⟨h.built.source, fun dir hdir => ?_⟩
  obtain ⟨hdirect, hisDir⟩ := direct_of_mem_sourceDirs h.isAbsolute h.names h.loaded h.tests hdir
  exact ⟨(hdirect.of_growth hfirst).of_growth hsecond, hsecond.isDir (hfirst.isDir hisDir)⟩

end Prepared

/-! ## Loading the generated directory -/

/-- The directories that the generated directory has as a project: the source directory of the program
and, for an application, those of the project, with a directory of tests of its own at the end. -/
def generatedSourceDirs (p : Project) (l : Layout) (tests : Bool) : List Path :=
  let listed := match p.manifest.kind with
    | .application => l.sourceDirectory :: p.sourceDirs
    | .package => [l.sourceDirectory]
  (listed ++ if tests then [l.directory.child testsDirectory] else []).eraseDups

/-- Canonical paths of directories are declared by their texts. -/
theorem leadsToDirectory_texts {fs : FileSystem} {dirs : List Path}
    (h : ∀ dir ∈ dirs, Direct fs dir ∧ fs.isDir dir = .ok true) (base : Path) :
    List.Forall₂ (LeadsToDirectory fs base) (dirs.map fun dir => .ofString (toString dir)) dirs := by
  rw [List.forall₂_map_left_iff, List.forall₂_same]
  exact fun dir hdir => leadsToDirectory_of_direct (h dir hdir).1 (h dir hdir).2 base

theorem load_of_describes {fs : FileSystem} {root : Path} {text : List Char}
    {fields : Manifest.Fields} {m : Manifest} {tests : Bool}
    (htext : Manifest.HasText fs root text)
    (hdocument : JsonReader.document text = .ok (.object fields)) (hm : Manifest.Describes fields m)
    (htests : fs.isDir (root.child testsDirectory) = .ok tests) (dirs : List Path)
    (hdirs : List.Forall₂ (LeadsToDirectory fs root) (declaredDirectories m) dirs) :
    load fs root = .ok ⟨root, m,
      (dirs ++ if tests then [fs.resolved (root.child testsDirectory)] else []).eraseDups⟩ := by
  rw [load_of_read (load_of_hasText htext (.read hdocument hm)),
    resolveSourceDirs_of_entries (mapM_resolveEntry_eq_ok_iff.mpr hdirs), htests]
  rfl

theorem load_directory_of_prepared {fs after : FileSystem} {root : Path} {p : Project}
    {moduleName source : String} (h : Prepared fs after root p moduleName source) :
    ∃ q tests, load after (Layout.directory ⟨root⟩) = .ok q ∧
      after.isDir ((Layout.directory ⟨root⟩).child testsDirectory) = .ok tests ∧
      q.manifest.kind = p.manifest.kind ∧
      q.manifest.sourceDirectories =
        some (((Layout.mk root).sourceDirectory :: p.sourceDirs).map fun d => .ofString (toString d)) ∧
      q.sourceDirs = p.generatedSourceDirs ⟨root⟩ tests := by
  obtain ⟨-, -, -, hread, -⟩ := h.exists_growth
  obtain ⟨hsource, tests, htests, htestsDirect⟩ := h.built
  obtain ⟨text, fields, -, -, hdocument, hm, -⟩ := exists_loaded h.loaded
  rw [Manifest.generatedManifest_eq, hm.fields] at hread
  obtain ⟨gs, hgs, hdescribes⟩ := Manifest.reads_text_listing hdocument hm
    (((Layout.mk root).sourceDirectory :: p.sourceDirs).map toString) (by simp)
  rw [List.map_map] at hdescribes
  have hresolved : (if tests then [after.resolved ((Layout.directory ⟨root⟩).child testsDirectory)]
      else []) = if tests then [(Layout.directory ⟨root⟩).child testsDirectory] else [] := by
    split
    · next htrue => rw [resolved, resolve_of_direct (htestsDirect htrue)]
    · rfl
  have hload := load_of_describes (Manifest.hasText_of_read hread) hgs hdescribes htests
  rw [hresolved] at hload
  have hkind : p.manifest.kind = .application ∨ p.manifest.kind = .package := by
    cases p.manifest.kind with
    | application => exact .inl rfl
    | package => exact .inr rfl
  rcases hkind with hkind | hkind
  · refine ⟨_, tests, hload ((Layout.mk root).sourceDirectory :: p.sourceDirs) ?_, htests, rfl,
      rfl, ?_⟩
    · rw [declaredDirectories, hkind]
      exact leadsToDirectory_texts h.direct_of_mem_listed _
    · rw [generatedSourceDirs, hkind]
  · refine ⟨_, tests, hload [(Layout.mk root).sourceDirectory] ?_, htests, rfl,
      rfl, ?_⟩
    · rw [declaredDirectories, hkind]
      have hjoin : (Layout.directory ⟨root⟩).joinText "src" = Layout.sourceDirectory ⟨root⟩ :=
        Path.joinText_of_isName ⟨by decide, by decide, by decide⟩ _
      exact .cons (leadsToDirectory_ofString.mpr ⟨by rw [hjoin, resolve_of_direct hsource.1], hsource.2⟩)
        .nil
    · rw [generatedSourceDirs, hkind]

/-- **The generated directory sees the source directories of an application.** Loaded after the
manifest and a program were written, the generated directory is a project of the same kind. It has the
source directory of the program first and, if the project is an application, all source directories of
the project, so that every module in the table of the project is found below one of them. If the project
is a package, it has none of them: the manifest lists them, but a package has `src` only. -/
theorem load_generatedDirectory {fs after : FileSystem} {root : Path} {p : Project}
    {moduleName source : String} (h : Prepared fs after root p moduleName source) :
    ∃ q tests, load after (Layout.directory ⟨root⟩) = .ok q ∧
      after.isDir ((Layout.directory ⟨root⟩).child testsDirectory) = .ok tests ∧
      q.manifest.kind = p.manifest.kind ∧
      q.manifest.sourceDirectories =
        some (((Layout.mk root).sourceDirectory :: p.sourceDirs).map fun d => .ofString (toString d)) ∧
      q.sourceDirs = p.generatedSourceDirs ⟨root⟩ tests ∧
      (p.manifest.kind = .application → ∀ (files : PathSet) (m : String) (file : Path),
        (moduleTable files p.sourceDirs)[m]? = some file →
          ∃ dir ∈ q.sourceDirs, moduleName? file dir = some m) := by
  obtain ⟨q, tests, hload, htests, hkind, hlisted, hdirs⟩ := load_directory_of_prepared h
  refine ⟨q, tests, hload, htests, hkind, hlisted, hdirs, fun happlication files m file hfile => ?_⟩
  obtain ⟨-, dir, hdir, hname⟩ := (getElem?_moduleTable.mp hfile file).mpr rfl
  refine ⟨dir, ?_, hname⟩
  rw [hdirs, generatedSourceDirs, happlication, List.mem_eraseDups]
  exact List.mem_append_left _ (List.mem_cons_of_mem _ hdir)

/-- A project at the root with one source directory. -/
def plainTree (kind : ProjectKind) : FileSystem where
  root := .dir
    [(Manifest.fileName, .file
      ("\x7b\"type\":\"" ++ kind.name ++ "\",\"source-directories\":[\"src\"]\x7d").toUTF8.toList false),
      ("src", .empty)]
  workingDirectory := some []

/-- The project was loaded and a program was written for it. -/
theorem exists_prepared (kind : ProjectKind) :
    ∃ p after, Prepared (plainTree kind) after ⟨.root, []⟩ p "Main" "" ∧ p.manifest.kind = kind ∧
      p.sourceDirs = [⟨.root, ["src"]⟩] ∧
      after.isDir ((Layout.directory ⟨⟨.root, []⟩⟩).child testsDirectory) = .ok false := by
  have hrun : (match prepare (plainTree kind) ⟨.root, []⟩ "Main" "" with
      | .error _ => false
      | .ok (p, after) => decide (p.manifest.kind = kind ∧ p.sourceDirs = [⟨.root, ["src"]⟩] ∧
          (after.isDir ((Layout.directory ⟨⟨.root, []⟩⟩).child testsDirectory)).toOption =
            some false)) = true := by
    cases kind <;> decide +kernel
  split at hrun
  · cases hrun
  · next p after hprepare =>
    obtain ⟨hkind, hdirs, htests⟩ := of_decide_eq_true hrun
    refine ⟨p, after, ⟨hprepare, by simp, rfl, ?_, ?_, by decide⟩, hkind, hdirs, ?_⟩
    · intro names target hlink
      cases hlink
    · intro hisDir
      have hnone : (plainTree kind).isDir ⟨.root, ["tests"]⟩ = .ok false := by
        cases kind <;> rfl
      cases hnone.symm.trans hisDir
    · cases hisDir : after.isDir ((Layout.directory ⟨⟨.root, []⟩⟩).child testsDirectory) with
      | error e => simp [hisDir, Except.toOption] at htests
      | ok tests => simpa [hisDir, Except.toOption] using htests

theorem load_generatedDirectory_application :
    ∃ p after q, Prepared (plainTree .application) after ⟨.root, []⟩ p "Main" "" ∧
      load after (Layout.directory ⟨⟨.root, []⟩⟩) = .ok q ∧
      q.sourceDirs = [Layout.sourceDirectory ⟨⟨.root, []⟩⟩, ⟨.root, ["src"]⟩] := by
  obtain ⟨p, after, hprepared, hkind, hdirs, hnone⟩ := exists_prepared .application
  obtain ⟨q, tests, hload, htests, -, -, hsources, -⟩ := load_generatedDirectory hprepared
  obtain rfl : tests = false := Except.ok.inj (htests.symm.trans hnone)
  refine ⟨p, after, q, hprepared, hload, ?_⟩
  rw [hsources, generatedSourceDirs, hkind, hdirs]
  decide

/-- The source directory of a package is not among those of the generated directory. -/
theorem load_generatedDirectory_package :
    ∃ p after q, Prepared (plainTree .package) after ⟨.root, []⟩ p "Main" "" ∧
      load after (Layout.directory ⟨⟨.root, []⟩⟩) = .ok q ∧
      p.sourceDirs = [⟨.root, ["src"]⟩] ∧
      q.sourceDirs = [Layout.sourceDirectory ⟨⟨.root, []⟩⟩] := by
  obtain ⟨p, after, hprepared, hkind, hdirs, hnone⟩ := exists_prepared .package
  obtain ⟨q, tests, hload, htests, -, -, hsources⟩ := load_directory_of_prepared hprepared
  obtain rfl : tests = false := Except.ok.inj (htests.symm.trans hnone)
  refine ⟨p, after, q, hprepared, hload, hdirs, ?_⟩
  rw [hsources, generatedSourceDirs, hkind]
  rfl

end ElmSuite.Project
