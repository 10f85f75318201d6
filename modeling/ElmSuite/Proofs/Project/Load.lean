import ElmSuite.Project.Project
import ElmSuite.Proofs.Files.Spelling
import ElmSuite.Proofs.Project.Manifest
import ElmSuite.Proofs.Results

/-!
# What loading a project ends in

A project is loaded, or a problem of its manifest or of one source directory is reported.
Some things are not reported but end the run: the character `U+0000` in the root or in an
entry, an integer of too many digits, links that lead back to themselves, and a surrogate in
an entry that stands for no byte; and so does a directory that cannot be looked up because
its name is too long.
-/

namespace ElmSuite

/-! ## Source directories -/

namespace Project

variable (fs : FileSystem) (root : Path)

/-- The canonical path of the directory that an entry leads to. -/
def LeadsToDirectory (entry : CodePoints) (dir : Path) : Prop :=
  fs.resolveSpelled root entry = .ok dir ∧ fs.isDir dir = .ok true

/-- Why an entry does not lead to a directory. -/
inductive EntryFault (entry : CodePoints) : Fault → Prop
  /-- Nothing is there, or what is there cannot be looked up. -/
  | missing {e : FileError} (h : fs.resolveSpelled root entry = .error (.file e)) :
      EntryFault entry (.problem (.invalidSourceDirectory entry))
  | notDirectory {dir : Path} (h : fs.resolveSpelled root entry = .ok dir)
      (hdir : fs.isDir dir = .ok false) :
      EntryFault entry (.problem (.invalidSourceDirectory entry))
  /-- Links lead back to themselves. -/
  | loop {path : String} (h : fs.resolveSpelled root entry = .error (.linkLoop path)) :
      EntryFault entry (.linkLoop path)
  /-- A name on the way holds the character `U+0000`. -/
  | nul (h : fs.resolveSpelled root entry = .error .embeddedNul) :
      EntryFault entry .embeddedNul
  /-- A surrogate in the entry stands for no byte. -/
  | unencodable {flaw : CodePoints.Flaw}
      (h : fs.resolveSpelled root entry = .error (.unencodable flaw))
      (hspelling : ¬entry.IsSpelling) : EntryFault entry (.unencodable flaw)
  /-- The canonical path is too long to be looked up. -/
  | tooLong {dir : Path} (h : fs.resolveSpelled root entry = .ok dir)
      (hdir : fs.isDir dir = .error ⟨.nameTooLong, toString dir⟩) :
      EntryFault entry (.file ⟨.nameTooLong, toString dir⟩)

variable {fs root}

/-- An entry that is a text leads where the text does. -/
theorem leadsToDirectory_ofString {s : String} {dir : Path} :
    LeadsToDirectory fs root (.ofString s) dir ↔
      fs.resolve (root.joinText s) = .ok dir ∧ fs.isDir dir = .ok true := by
  rw [LeadsToDirectory, FileSystem.resolveSpelled_ofString]

/-- An entry leads where the text leads that it spells. -/
theorem LeadsToDirectory.exists_text {entry : CodePoints} {dir : Path}
    (h : LeadsToDirectory fs root entry dir) :
    ∃ s, entry.Spells s ∧ fs.resolve (root.joinText s) = .ok dir ∧ fs.isDir dir = .ok true := by
  obtain ⟨s, hs⟩ := FileSystem.exists_spells_of_resolveSpelled h.1
  exact ⟨s, hs, FileSystem.resolveSpelled_of_spells hs fs root ▸ h.1, h.2⟩

theorem resolveEntry_eq_ok_iff {entry : CodePoints} {dir : Path} :
    resolveEntry fs root entry = .ok dir ↔ LeadsToDirectory fs root entry dir := by
  rw [resolveEntry, LeadsToDirectory]
  constructor
  · intro h
    split at h
    · cases h
    · cases h
    · next hresolve =>
      split at h
      · cases h
      · next hdir =>
        obtain rfl := Except.ok.inj h
        exact ⟨hresolve, hdir⟩
      · cases h
  · rintro ⟨hresolve, hdir⟩
    simp only [hresolve, hdir]

theorem resolveEntry_eq_error_iff {entry : CodePoints} {fault : Fault} :
    resolveEntry fs root entry = .error fault ↔ EntryFault fs root entry fault := by
  rw [resolveEntry]
  constructor
  · intro h
    split at h
    · next hresolve => exact Except.error.inj h ▸ .missing hresolve
    · next e hfile hresolve =>
      obtain rfl := Except.error.inj h
      cases FileSystem.spellingFault_of_resolveSpelled hresolve with
      | unencodable hspelling => exact .unencodable hresolve hspelling
      | resolving hfault =>
        cases hfault with
        | refused e => exact absurd rfl (hfile e)
        | loop path => exact .loop hresolve
        | nul => exact .nul hresolve
    · next dir hresolve =>
      split at h
      · next e hdir =>
        obtain rfl := Except.error.inj h
        obtain rfl := FileSystem.reason_of_isDir hdir
        exact .tooLong hresolve hdir
      · cases h
      · next hdir => exact Except.error.inj h ▸ .notDirectory hresolve hdir
  · intro h
    cases h with
    | missing h => rw [h]
    | notDirectory h hdir => simp only [h, hdir]
    | loop h => rw [h]
    | nul h => rw [h]
    | unencodable h hspelling => rw [h]
    | tooLong h hdir => simp only [h, hdir]

/-- What loading the project at `root` ends in. -/
inductive Loads (fs : FileSystem) (root : Path) : Except Fault Project → Prop
  /-- There is no file, or it does not hold a text. -/
  | unreadable (hnul : FileSystem.hasNul root = false) (h : ¬∃ text, Manifest.HasText fs root text) :
      Loads fs root (.error (.problem (.unreadableManifest (root.child Manifest.fileName))))
  /-- The root holds the character `U+0000`. -/
  | nulInRoot (h : FileSystem.hasNul root = true) : Loads fs root (.error .embeddedNul)
  | malformed {text : List Char} {detail : String} (htext : Manifest.HasText fs root text)
      (h : Manifest.Malformed text detail) :
      Loads fs root (.error (.problem (.malformedManifest (root.child Manifest.fileName) detail)))
  | longInteger {text : List Char} {digits : Nat} (htext : Manifest.HasText fs root text)
      (h : JsonReader.document text = .error (.tooManyDigits digits)) :
      Loads fs root (.error (.tooManyDigits digits))
  | listAtFault {text : List Char} {fields : Manifest.Fields} (htext : Manifest.HasText fs root text)
      (h : JsonReader.document text = .ok (.object fields)) (hlist : Manifest.ListAtFault fields) :
      Loads fs root (.error (.problem (.invalidSourceDirectories (root.child Manifest.fileName))))
  /-- The first entry that does not lead to a directory. -/
  | entryAtFault {text : List Char} {fields : Manifest.Fields} {m : Manifest}
      {before after : List CodePoints} {entry : CodePoints} {fault : Fault}
      (htext : Manifest.HasText fs root text)
      (h : JsonReader.document text = .ok (.object fields)) (hm : Manifest.Describes fields m)
      (hentries : declaredDirectories m = before ++ entry :: after)
      (hbefore : ∀ e ∈ before, ∃ dir, LeadsToDirectory fs root e dir)
      (hentry : EntryFault fs root entry fault) : Loads fs root (.error fault)
  /-- The path of the tests is too long to be looked up. -/
  | testsTooLong {text : List Char} {fields : Manifest.Fields} {m : Manifest} {dirs : List Path}
      (htext : Manifest.HasText fs root text)
      (h : JsonReader.document text = .ok (.object fields)) (hm : Manifest.Describes fields m)
      (hdirs : List.Forall₂ (LeadsToDirectory fs root) (declaredDirectories m) dirs)
      (htests : fs.isDir (root.child testsDirectory) =
        .error ⟨.nameTooLong, toString (root.child testsDirectory)⟩) :
      Loads fs root (.error (.file ⟨.nameTooLong, toString (root.child testsDirectory)⟩))
  | loaded {text : List Char} {fields : Manifest.Fields} {m : Manifest} {dirs : List Path}
      {tests : Bool} (htext : Manifest.HasText fs root text)
      (h : JsonReader.document text = .ok (.object fields)) (hm : Manifest.Describes fields m)
      (hdirs : List.Forall₂ (LeadsToDirectory fs root) (declaredDirectories m) dirs)
      (htests : fs.isDir (root.child testsDirectory) = .ok tests) :
      Loads fs root (.ok ⟨root, m,
        (dirs ++ if tests then [fs.resolved (root.child testsDirectory)] else []).eraseDups⟩)

theorem load_of_read_error {fault : Fault} (h : Manifest.read fs root = .error fault) :
    load fs root = .error fault := by
  rw [load, h]
  rfl

theorem load_of_read {m : Manifest} (h : Manifest.read fs root = .ok m) :
    load fs root = (resolveSourceDirs fs root m).map fun dirs => ⟨root, m, dirs⟩ := by
  rw [load, h]
  change (resolveSourceDirs fs root m >>= fun dirs => pure (Project.mk root m dirs)) = _
  cases resolveSourceDirs fs root m <;> rfl

theorem resolveSourceDirs_of_entryFault {m : Manifest} {fault : Fault}
    (h : (declaredDirectories m).mapM (resolveEntry fs root) = .error fault) :
    resolveSourceDirs fs root m = .error fault := by
  rw [resolveSourceDirs, h]
  rfl

theorem resolveSourceDirs_of_entries {m : Manifest} {dirs : List Path}
    (h : (declaredDirectories m).mapM (resolveEntry fs root) = .ok dirs) :
    resolveSourceDirs fs root m =
      ((fs.isDir (root.child testsDirectory)).mapError Fault.file).map fun tests =>
        (dirs ++ if tests then [fs.resolved (root.child testsDirectory)] else []).eraseDups := by
  rw [resolveSourceDirs, h]
  cases htests : fs.isDir (root.child testsDirectory) with
  | error e => simp [htests, Except.mapError, Except.map, bind, Except.bind]
  | ok tests =>
    cases tests <;>
      simp [htests, Except.mapError, Except.map, bind, Except.bind, pure, Except.pure]

theorem mapM_resolveEntry_eq_ok_iff {entries : List CodePoints} {dirs : List Path} :
    entries.mapM (resolveEntry fs root) = .ok dirs ↔
      List.Forall₂ (LeadsToDirectory fs root) entries dirs := by
  rw [mapM_eq_ok_iff]
  exact ⟨List.Forall₂.imp fun _ _ => resolveEntry_eq_ok_iff.mp,
    List.Forall₂.imp fun _ _ => resolveEntry_eq_ok_iff.mpr⟩

theorem load_of_hasText {text : List Char} (htext : Manifest.HasText fs root text)
    {r : Except Fault Manifest} (h : Manifest.Reads (root.child Manifest.fileName) text r) :
    Manifest.read fs root = r := by
  rw [Manifest.read_of_hasText htext, Manifest.ofText_eq_iff_reads.mpr h]

theorem loads_load (fs : FileSystem) (root : Path) : Loads fs root (load fs root) := by
  by_cases htext : ∃ text, Manifest.HasText fs root text
  · obtain ⟨text, htext⟩ := htext
    have hreads := Manifest.ofText_eq_iff_reads.mp (Manifest.read_of_hasText htext).symm
    cases hread : Manifest.read fs root with
    | error fault =>
      rw [hread] at hreads
      rw [load_of_read_error hread]
      cases hreads with
      | malformed h => exact .malformed htext h
      | listAtFault h hlist => exact .listAtFault htext h hlist
      | longInteger h => exact .longInteger htext h
    | ok m =>
      rw [hread] at hreads
      obtain ⟨hdocument, hm⟩ := hreads
      rw [load_of_read hread]
      cases hentries : (declaredDirectories m).mapM (resolveEntry fs root) with
      | error fault =>
        rw [resolveSourceDirs_of_entryFault hentries]
        obtain ⟨before, entry, after, hdeclared, hbefore, hentry⟩ := mapM_eq_error_iff.mp hentries
        refine .entryAtFault htext hdocument hm hdeclared (fun e he => ?_)
          (resolveEntry_eq_error_iff.mp hentry)
        exact (hbefore e he).imp fun _ => resolveEntry_eq_ok_iff.mp
      | ok dirs =>
        have hdirs := mapM_resolveEntry_eq_ok_iff.mp hentries
        rw [resolveSourceDirs_of_entries hentries]
        cases htests : fs.isDir (root.child testsDirectory) with
        | error e =>
          obtain rfl := FileSystem.reason_of_isDir htests
          exact .testsTooLong htext hdocument hm hdirs htests
        | ok tests => exact .loaded htext hdocument hm hdirs htests
  · cases hnul : FileSystem.hasNul root with
    | true =>
      have hread : Manifest.read fs root = .error .embeddedNul := by
        rw [Manifest.read, Manifest.read_of_nul hnul]
      rw [load_of_read_error hread]
      exact .nulInRoot hnul
    | false =>
      rw [load_of_read_error (Manifest.read_of_not_hasText hnul htext)]
      exact .unreadable hnul htext

/-- **Loading a project** either gives the project with the directories that its entries lead to, or
reports the first thing at fault: the file, its text, the kind, the list, or the first entry that leads
to no directory. It ends otherwise in six cases only: the character `U+0000` in the root or on the way
of an entry, an integer of too many digits, links that lead back to themselves, an entry with a surrogate
that stands for no byte, and a source directory or a directory of tests whose path is too long to be
looked up. -/
theorem load_eq_iff_loads (fs : FileSystem) (root : Path) (r : Except Fault Project) :
    load fs root = r ↔ Loads fs root r := by
  constructor
  · rintro rfl
    exact loads_load fs root
  intro h
  cases h with
  | unreadable hnul h => exact load_of_read_error (Manifest.read_of_not_hasText hnul h)
  | nulInRoot h =>
    apply load_of_read_error
    rw [Manifest.read, Manifest.read_of_nul h]
  | malformed htext h => exact load_of_read_error (load_of_hasText htext (.malformed h))
  | longInteger htext h => exact load_of_read_error (load_of_hasText htext (.longInteger h))
  | listAtFault htext h hlist => exact load_of_read_error (load_of_hasText htext (.listAtFault h hlist))
  | entryAtFault htext h hm hentries hbefore hentry =>
    rw [load_of_read (load_of_hasText htext (.read h hm)), resolveSourceDirs_of_entryFault]
    · rfl
    · refine mapM_eq_error_iff.mpr ⟨_, _, _, hentries, fun e he => ?_,
        resolveEntry_eq_error_iff.mpr hentry⟩
      exact (hbefore e he).imp fun _ => resolveEntry_eq_ok_iff.mpr
  | testsTooLong htext h hm hdirs htests =>
    rw [load_of_read (load_of_hasText htext (.read h hm)),
      resolveSourceDirs_of_entries (mapM_resolveEntry_eq_ok_iff.mpr hdirs), htests]
    rfl
  | loaded htext h hm hdirs htests =>
    rw [load_of_read (load_of_hasText htext (.read h hm)),
      resolveSourceDirs_of_entries (mapM_resolveEntry_eq_ok_iff.mpr hdirs), htests]
    rfl

/-- A project whose only source directory is a link to itself. -/
def loopTree : FileSystem where
  root := .dir
    [(Manifest.fileName, .file "\x7b\"source-directories\":[\"loop\"]\x7d".toUTF8.toList false),
      ("loop", .link "loop")]
  workingDirectory := some []

/-- No problem is reported for a source directory whose links lead back to themselves. -/
theorem load_loopTree : load loopTree ⟨.root, []⟩ = .error (.linkLoop "/loop") := by
  decide +kernel

end Project

end ElmSuite
