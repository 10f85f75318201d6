import ElmSuite.Proofs.Files.Canonical
import ElmSuite.Proofs.Files.Faults
import ElmSuite.Run.Locate

/-!
# What locating a tool ends in

A compiler given by a path has to be a file, whose canonical path is taken. The dump tool lies in the
directory of the running executable, all links to that being followed. What is at fault is reported
with the value that was given, or with what the file system says. Some faults are not reported but end
the run: a home directory that is not known, the character `U+0000`, a name too long to tell whether
the compiler is a directory, links to the executable that lead back to themselves, and an executable
that is the root.
-/

namespace ElmSuite

open FileSystem

variable {fs : FileSystem} {s : Surroundings} {wd : List String}

/-! ## Home directories -/

/-- Why no home directory can be put in the place of a leading `~`. -/
inductive HomeFault (s : Surroundings) (p : Path) : Fault → Prop
  | nobody {first : String} {user : List Char} {rest : List String}
      (hrelative : p.isAbsolute = false) (hnames : p.names = first :: rest)
      (hfirst : first.toList = '~' :: user) (hother : user ≠ []) (hnul : '\x00' ∉ user)
      (h : s.homeOf (String.ofList user) = none) : HomeFault s p .unknownHome
  | nul {first : String} {user : List Char} {rest : List String}
      (hrelative : p.isAbsolute = false) (hnames : p.names = first :: rest)
      (hfirst : first.toList = '~' :: user) (hnul : '\x00' ∈ user) : HomeFault s p .embeddedNul
  /-- The home directory itself begins with `~`. -/
  | tilde {first home : String} {user : List Char} {rest : List String}
      (hrelative : p.isAbsolute = false) (hnames : p.names = first :: rest)
      (hfirst : first.toList = '~' :: user) (hhome : s.homeFor user = .ok home)
      (h : home.toList.head? = some '~') : HomeFault s p .unknownHome

namespace Surroundings

variable {p path : Path} {e : Fault}

theorem expandHome_of_tilde {first : String} {user : List Char} {rest : List String}
    (hrelative : p.isAbsolute = false) (hnames : p.names = first :: rest)
    (hfirst : first.toList = '~' :: user) :
    s.expandHome p = match s.homeFor user with
      | .error e => .error e
      | .ok home =>
        if home.toList.head? = some '~' then .error .unknownHome
        else .ok ((Path.ofString home).join ⟨.here, rest⟩) := by
  rw [expandHome, hrelative, hnames]
  cases hhome : s.homeFor user <;> simp only [hfirst, hhome]

/-- A path is left as it is, or its first name begins with `~`. -/
theorem expandHome_cases (s : Surroundings) (p : Path) :
    s.expandHome p = .ok p ∨ ∃ first user rest, p.isAbsolute = false ∧ p.names = first :: rest ∧
      first.toList = '~' :: user := by
  rw [expandHome]
  split
  · next first rest hrelative hnames =>
    split
    · next user hfirst => exact .inr ⟨first, user, rest, hrelative, hnames, hfirst⟩
    · exact .inl rfl
  · exact .inl rfl

theorem homeFor_eq_error_iff {user : List Char} :
    s.homeFor user = .error e ↔ user ≠ [] ∧
      ('\x00' ∈ user ∧ e = .embeddedNul ∨
        '\x00' ∉ user ∧ s.homeOf (String.ofList user) = none ∧ e = .unknownHome) := by
  rw [homeFor]
  split_ifs with hself hnul
  · simp [hself]
  · simp only [List.contains_iff_mem] at hnul
    simp [hself, hnul, eq_comm]
  · simp only [List.contains_iff_mem] at hnul
    cases hhome : s.homeOf (String.ofList user) with
    | none => simp [hself, hnul, eq_comm]
    | some home => simp [hnul]

/-- When and why a leading `~` stands for nothing. -/
theorem expandHome_eq_error_iff : s.expandHome p = .error e ↔ HomeFault s p e := by
  constructor
  · intro h
    rcases s.expandHome_cases p with hsame | ⟨first, user, rest, hrelative, hnames, hfirst⟩
    · cases hsame.symm.trans h
    rw [expandHome_of_tilde hrelative hnames hfirst] at h
    split at h
    · next hhome =>
      obtain rfl := Except.error.inj h
      obtain ⟨hother, ⟨hnul, rfl⟩ | ⟨hnul, hnone, rfl⟩⟩ := homeFor_eq_error_iff.mp hhome
      · exact .nul hrelative hnames hfirst hnul
      · exact .nobody hrelative hnames hfirst hother hnul hnone
    · next home hhome =>
      split at h
      · next htilde => exact Except.error.inj h ▸ .tilde hrelative hnames hfirst hhome htilde
      · cases h
  · intro h
    cases h with
    | nobody hrelative hnames hfirst hother hnul h =>
      rw [expandHome_of_tilde hrelative hnames hfirst,
        homeFor_eq_error_iff.mpr ⟨hother, .inr ⟨hnul, h, rfl⟩⟩]
    | nul hrelative hnames hfirst hnul =>
      rw [expandHome_of_tilde hrelative hnames hfirst,
        homeFor_eq_error_iff.mpr ⟨List.ne_nil_of_mem hnul, .inl ⟨hnul, rfl⟩⟩]
    | tilde hrelative hnames hfirst hhome h =>
      rw [expandHome_of_tilde hrelative hnames hfirst, hhome]
      exact if_pos h

theorem isName_of_expandHome (hnames : ∀ name ∈ p.names, Path.IsName name)
    (h : s.expandHome p = .ok path) : ∀ name ∈ path.names, Path.IsName name := by
  rcases s.expandHome_cases p with hsame | ⟨first, user, rest, hrelative, hcons, hfirst⟩
  · obtain rfl := Except.ok.inj (hsame.symm.trans h)
    exact hnames
  rw [expandHome_of_tilde hrelative hcons hfirst] at h
  split at h
  · cases h
  · split at h
    · cases h
    · obtain rfl := Except.ok.inj h
      intro name hname
      rcases List.mem_append.mp hname with hname | hname
      · exact Path.isName_of_mem_ofString hname
      · exact hnames name (hcons ▸ List.mem_cons_of_mem _ hname)

end Surroundings

/-! ## The compiler -/

namespace Compiler

/-- What locating the compiler that a value asks for ends in. -/
inductive Locates (fs : FileSystem) (s : Surroundings) (value : String) : Except Fault String → Prop
  /-- A leading `~` stands for no home directory. -/
  | homeless {e : Fault} (h : HomeFault s (Path.ofString value) e) : Locates fs s value (.error e)
  /-- The path is too long to be looked up. -/
  | tooLong {path : Path} (hpath : s.expandHome (Path.ofString value) = .ok path)
      (h : fs.isDir path = .error ⟨.nameTooLong, toString path⟩) :
      Locates fs s value (.error (.file ⟨.nameTooLong, toString path⟩))
  | directory {path : Path} (hpath : s.expandHome (Path.ofString value) = .ok path)
      (h : fs.isDir path = .ok true) :
      Locates fs s value (.error (.problem (.invalidCompilerPath value)))
  /-- A bare name is that of a program in a directory of the search path. -/
  | program {path : Path} {text : String} (hpath : s.expandHome (Path.ofString value) = .ok path)
      (hdir : fs.isDir path = .ok false) (hbare : hasSlash value = false)
      (h : fs.findProgram s.searchPath value = some text) : Locates fs s value (.ok text)
  /-- A bare name that no directory of the search path has is taken as it is. -/
  | bareName {path : Path} (hpath : s.expandHome (Path.ofString value) = .ok path)
      (hdir : fs.isDir path = .ok false) (hbare : hasSlash value = false)
      (h : fs.findProgram s.searchPath value = none) : Locates fs s value (.ok value)
  /-- A path leads to a file, whose own path without any links is taken. -/
  | file {path : Path} {place : List String} {content : List UInt8} {executable : Bool}
      (hpath : s.expandHome (Path.ofString value) = .ok path) (hslash : hasSlash value = true)
      (h : fs.isFile path = .ok true) (hfind : fs.find path true = .ok (.found place))
      (hfile : fs.root.at? place = some (.file content executable))
      (hplace : IsPlace fs.root place) (hresolve : fs.resolve path = .ok ⟨.root, place⟩) :
      Locates fs s value (.ok (toString (⟨.root, place⟩ : Path)))
  /-- A path leads to a file, but on the way there the places are spelled too long for all links to be
  followed. -/
  | unspellable {path : Path} {e : Fault} {names : List String}
      (hpath : s.expandHome (Path.ofString value) = .ok path) (hslash : hasSlash value = true)
      (h : fs.isFile path = .ok true) (hresolve : fs.resolve path = .error e) (he : Unspellable e)
      (hnear : fs.approached path = ⟨.root, names⟩) :
      Locates fs s value (.ok (toString (⟨.root, names⟩ : Path)))
  | missing {path : Path} (hpath : s.expandHome (Path.ofString value) = .ok path)
      (hslash : hasSlash value = true) (hdir : fs.isDir path = .ok false)
      (h : fs.isFile path = .ok false) :
      Locates fs s value (.error (.problem (.invalidCompilerPath value)))

variable {value : String} {path : Path}

theorem locate_of_homeFault {e : Fault} (h : s.expandHome (Path.ofString value) = .error e) :
    locate fs s value = .error e := by
  rw [locate, h]
  rfl

theorem locate_of_isDir_error {e : FileError} (hpath : s.expandHome (Path.ofString value) = .ok path)
    (h : fs.isDir path = .error e) : locate fs s value = .error (.file e) := by
  simp only [locate, hpath, h, Except.mapError, bind, Except.bind]

theorem locate_of_isDir (hpath : s.expandHome (Path.ofString value) = .ok path)
    (h : fs.isDir path = .ok true) :
    locate fs s value = .error (.problem (.invalidCompilerPath value)) := by
  simp [locate, hpath, h, Except.mapError, bind, Except.bind, throw, throwThe, MonadExceptOf.throw]

theorem locate_of_bare (hpath : s.expandHome (Path.ofString value) = .ok path)
    (hdir : fs.isDir path = .ok false) (hbare : hasSlash value = false) :
    locate fs s value = .ok ((fs.findProgram s.searchPath value).getD value) := by
  simp [locate, hpath, hdir, hbare, Except.mapError, bind, Except.bind, pure, Except.pure]

theorem locate_of_slash (hpath : s.expandHome (Path.ofString value) = .ok path)
    (hdir : fs.isDir path = .ok false) (hslash : hasSlash value = true) {isFile : Bool}
    (h : fs.isFile path = .ok isFile) :
    locate fs s value = if isFile then .ok (toString (fs.resolved path))
      else .error (.problem (.invalidCompilerPath value)) := by
  cases isFile <;>
    simp [locate, hpath, hdir, hslash, h, Except.mapError, bind, Except.bind, pure, Except.pure,
      throw, throwThe, MonadExceptOf.throw]

theorem locates_of_isFile (hwd : WorksIn fs wd)
    (hpath : s.expandHome (Path.ofString value) = .ok path) (hslash : hasSlash value = true)
    (h : fs.isFile path = .ok true) : Locates fs s value (.ok (toString (fs.resolved path))) := by
  have hnames := Surroundings.isName_of_expandHome (fun _ hn => Path.isName_of_mem_ofString hn) hpath
  obtain ⟨hnul, place, content, executable, hfind, hfile⟩ := isFile_eq_ok_true h
  rcases hwd.resolve_of_find hnames hfind with hresolve | ⟨e, hresolve, he⟩
  · have hplace := (hwd.isPlace_of_resolve hnames hresolve).2
    rw [resolved, hresolve]
    exact .file hpath hslash h hfind hfile hplace hresolve
  · obtain ⟨names, hnear⟩ := fs.exists_approached_eq path
    rw [resolved, hresolve]
    exact hnear ▸ .unspellable hpath hslash h hresolve he hnear

theorem locates_locate (hwd : WorksIn fs wd) (s : Surroundings) (value : String) :
    Locates fs s value (locate fs s value) := by
  cases hpath : s.expandHome (Path.ofString value) with
  | error e =>
    rw [locate_of_homeFault hpath]
    exact .homeless (Surroundings.expandHome_eq_error_iff.mp hpath)
  | ok path =>
    cases hdir : fs.isDir path with
    | error e =>
      rw [locate_of_isDir_error hpath hdir]
      obtain rfl := reason_of_isDir hdir
      exact .tooLong hpath hdir
    | ok isDir =>
      cases isDir with
      | true =>
        rw [locate_of_isDir hpath hdir]
        exact .directory hpath hdir
      | false =>
        cases hslash : hasSlash value with
        | false =>
          rw [locate_of_bare hpath hdir hslash]
          cases hfound : fs.findProgram s.searchPath value with
          | none => exact .bareName hpath hdir hslash hfound
          | some text => exact .program hpath hdir hslash hfound
        | true =>
          obtain ⟨isFile, hfile⟩ : ∃ isFile, fs.isFile path = .ok isFile := exists_leadsTo hdir
          rw [locate_of_slash hpath hdir hslash hfile]
          cases isFile with
          | true => exact locates_of_isFile hwd hpath hslash hfile
          | false => exact .missing hpath hslash hdir hfile

theorem Locates.locate_eq {r : Except Fault String} (h : Locates fs s value r) :
    locate fs s value = r := by
  cases h with
  | homeless h => exact locate_of_homeFault (Surroundings.expandHome_eq_error_iff.mpr h)
  | tooLong hpath h => exact locate_of_isDir_error hpath h
  | directory hpath h => exact locate_of_isDir hpath h
  | program hpath hdir hbare h | bareName hpath hdir hbare h =>
    rw [locate_of_bare hpath hdir hbare, h]
    rfl
  | file hpath hslash h hfind hfile hplace hresolve =>
    rw [locate_of_slash hpath (isDir_of_isFile h) hslash h, if_pos rfl, resolved, hresolve]
  | unspellable hpath hslash h hresolve he hnear =>
    rw [locate_of_slash hpath (isDir_of_isFile h) hslash h, if_pos rfl, resolved, hresolve, ← hnear]
  | missing hpath hslash hdir h => exact locate_of_slash hpath hdir hslash h

end Compiler

/-! ## The dump tool -/

namespace Dump

/-- Whether a text leads to the running executable: its name if that has a slash, else what the search
path has under that name. -/
inductive Names (fs : FileSystem) (s : Surroundings) (executable : String) : String → Prop
  | path (hslash : hasSlash executable = true) : Names fs s executable executable
  | program {text : String} (hne : executable ≠ "") (hbare : hasSlash executable = false)
      (h : fs.findProgram s.searchPath executable = some text) : Names fs s executable text

/-- What locating the tool of a name beside the running executable ends in. -/
inductive Locates (fs : FileSystem) (s : Surroundings) (executable name : String) :
    Except Fault Path → Prop
  | unnamed (h : executable = "") : Locates fs s executable name (.error (unknown "empty argv[0]"))
  | notFound (hne : executable ≠ "") (hbare : hasSlash executable = false)
      (h : fs.findProgram s.searchPath executable = none) :
      Locates fs s executable name (.error (unknown (executable ++ " is not on PATH")))
  /-- The tool lies in the directory of the executable that all links lead to. -/
  | beside {text : String} {exe : List String} (htext : Names fs s executable text)
      (hresolve : fs.resolve (Path.ofString text) = .ok ⟨.root, exe⟩) (hexe : IsPlace fs.root exe)
      (hfound : ∀ place, fs.find (Path.ofString text) true = .ok (.found place) → place = exe)
      (hnamed : exe ≠ []) (hname : isLastName name = true) :
      Locates fs s executable name (.ok ((⟨.root, exe.dropLast⟩ : Path).child name))
  /-- The executable is the root, which lies in no directory. -/
  | atRoot {text : String} (htext : Names fs s executable text)
      (hresolve : fs.resolve (Path.ofString text) = .ok ⟨.root, []⟩) :
      Locates fs s executable name (.error (.noName ⟨.root, []⟩))
  | misnamed {text : String} {exe : List String} (htext : Names fs s executable text)
      (hresolve : fs.resolve (Path.ofString text) = .ok ⟨.root, exe⟩) (hnamed : exe ≠ [])
      (hname : isLastName name = false) : Locates fs s executable name (.error (.invalidName name))
  /-- Nothing is there, or what is there cannot be looked up. -/
  | refused {text : String} {e : FileError} (htext : Names fs s executable text)
      (hresolve : fs.resolve (Path.ofString text) = .error (.file e)) :
      Locates fs s executable name (.error (unknown e.message))
  /-- Links lead back to themselves, and the executable is nowhere. -/
  | loop {text path : String} (htext : Names fs s executable text)
      (hresolve : fs.resolve (Path.ofString text) = .error (.linkLoop path))
      (hnowhere : ∀ place, fs.find (Path.ofString text) true ≠ .ok (.found place)) :
      Locates fs s executable name (.error (.linkLoop path))
  | nul {text : String} (htext : Names fs s executable text)
      (hresolve : fs.resolve (Path.ofString text) = .error .embeddedNul) :
      Locates fs s executable name (.error .embeddedNul)

variable {executable name text : String}

/-- The tool beside an executable that was resolved. -/
def besideResolved (name : String) : Except Fault Path → Except Fault Path
  | .ok resolved => resolved.sibling name
  | .error (.file e) => .error (unknown e.message)
  | .error e => .error e

theorem locate_of_names (h : Names fs s executable text) :
    locate fs s executable name = besideResolved name (fs.resolve (Path.ofString text)) := by
  have hne : executable ≠ "" := by
    cases h with
    | path hslash =>
      rintro rfl
      cases hslash
    | program hne => exact hne
  have hlocate : locate fs s executable name =
      match fs.resolve (Path.ofString text) with
      | .ok resolved => resolved.sibling name
      | .error (.file e) => throw (unknown e.message)
      | .error e => throw e := by
    rw [locate, if_neg hne]
    cases h with
    | path hslash =>
      rewrite [if_pos hslash]
      rfl
    | program _ hbare h =>
      rewrite [if_neg (by simp [hbare]), h]
      rfl
  rw [hlocate]
  rcases fs.resolve (Path.ofString text) with e | resolved
  · cases e <;> rfl
  · rfl

theorem locate_of_not_found (hne : executable ≠ "") (hbare : hasSlash executable = false)
    (h : fs.findProgram s.searchPath executable = none) :
    locate fs s executable name = .error (unknown (executable ++ " is not on PATH")) := by
  rw [locate, if_neg hne, if_neg (by simp [hbare]), h]
  rfl

theorem sibling_of_ne_nil {exe : List String} (hnamed : exe ≠ []) :
    (⟨.root, exe⟩ : Path).sibling name = if isLastName name then
      .ok ((⟨.root, exe.dropLast⟩ : Path).child name) else .error (.invalidName name) :=
  if_neg hnamed

example : isLastName programName = true := by decide

theorem locates_of_names (hwd : WorksIn fs wd) (htext : Names fs s executable text)
    (name : String) :
    Locates fs s executable name (besideResolved name (fs.resolve (Path.ofString text))) := by
  have hnames : ∀ name ∈ (Path.ofString text).names, Path.IsName name :=
    fun _ hn => Path.isName_of_mem_ofString hn
  cases hresolve : fs.resolve (Path.ofString text) with
  | error e =>
    cases resolveFault_of_resolve hresolve with
    | refused e => exact .refused htext hresolve
    | nul => exact .nul htext hresolve
    | loop path =>
      refine .loop htext hresolve fun place hfind => ?_
      rcases hwd.resolve_of_find hnames hfind with hfound | ⟨e, hfault, he⟩
      · cases hresolve.symm.trans hfound
      · cases hresolve.symm.trans hfault
        cases he
  | ok resolved =>
    obtain ⟨heq, hexe⟩ := hwd.isPlace_of_resolve hnames hresolve
    obtain ⟨anchor, exe⟩ := resolved
    obtain rfl : anchor = .root := congrArg Path.anchor heq
    by_cases hnamed : exe = []
    · subst hnamed
      exact .atRoot htext hresolve
    rw [besideResolved, sibling_of_ne_nil hnamed]
    split
    · next hname =>
      refine .beside htext hresolve hexe (fun place hfind => ?_) hnamed hname
      rcases hwd.resolve_of_find hnames hfind with hfound | ⟨e, hfault, -⟩
      · exact (congrArg Path.names (Except.ok.inj (hresolve.symm.trans hfound))).symm
      · cases hresolve.symm.trans hfault
    · next hname => exact .misnamed htext hresolve hnamed (by simpa using hname)

theorem locates_locate (hwd : WorksIn fs wd) (s : Surroundings) (executable name : String) :
    Locates fs s executable name (locate fs s executable name) := by
  by_cases hne : executable = ""
  · rw [locate, if_pos hne]
    exact .unnamed hne
  cases hslash : hasSlash executable with
  | true =>
    rw [locate_of_names (.path hslash)]
    exact locates_of_names hwd (.path hslash) name
  | false =>
    cases hfound : fs.findProgram s.searchPath executable with
    | none =>
      rw [locate_of_not_found hne hslash hfound]
      exact .notFound hne hslash hfound
    | some text =>
      rw [locate_of_names (.program hne hslash hfound)]
      exact locates_of_names hwd (.program hne hslash hfound) name

theorem Locates.locate_eq {r : Except Fault Path} (h : Locates fs s executable name r) :
    locate fs s executable name = r := by
  cases h with
  | unnamed h =>
    rw [locate, if_pos h]
    rfl
  | notFound hne hbare h => exact locate_of_not_found hne hbare h
  | beside htext hresolve hexe hfound hnamed hname =>
    rw [locate_of_names htext, hresolve, besideResolved, sibling_of_ne_nil hnamed, if_pos hname]
  | atRoot htext hresolve =>
    rw [locate_of_names htext, hresolve]
    rfl
  | misnamed htext hresolve hnamed hname =>
    rw [locate_of_names htext, hresolve, besideResolved, sibling_of_ne_nil hnamed,
      if_neg (by simp [hname])]
  | refused htext hresolve | loop htext hresolve | nul htext hresolve =>
    rw [locate_of_names htext, hresolve]
    rfl

end Dump

/-! ## Both tools -/

/-- **Locating the tools.** From a working directory of the tree, the compiler that a value asks for
and the dump tool beside the running executable are located, or what is at fault is reported: a
compiler given by a path is the file that it leads to, by its canonical path, and the dump tool lies
beside the canonical path of the executable. The faults that are not reported are those of a home
directory, of a path too long to be looked up, of `U+0000`, of links to the executable that lead back
to themselves, of an executable that is the root, and of a name that no tool can have. -/
theorem locate_eq_iff_locates (hwd : WorksIn fs wd) (s : Surroundings) :
    (∀ value r, Compiler.locate fs s value = r ↔ Compiler.Locates fs s value r) ∧
      ∀ executable name r,
        Dump.locate fs s executable name = r ↔ Dump.Locates fs s executable name r := by
  constructor
  · intro value r
    refine ⟨?_, fun h => h.locate_eq⟩
    rintro rfl
    exact Compiler.locates_locate hwd s value
  · intro executable name r
    refine ⟨?_, fun h => h.locate_eq⟩
    rintro rfl
    exact Dump.locates_locate hwd s executable name

/-- A compiler with a link beside it, as seen from a directory with a link that leads up. -/
def linkedTools : FileSystem where
  root := .dir [("bin", .dir [("elm", .file [] true), ("tool", .link "./elm")]),
    ("work", .dir [("up", .link "..")])]
  workingDirectory := some ["work"]

/-- Surroundings in which no other user has a home directory. -/
def loneUser : Surroundings := ⟨"/bin", "/home", fun _ => none⟩

theorem locates_linkedTools :
    WorksIn linkedTools ["work"] ∧
      Compiler.Locates linkedTools loneUser "up/bin/tool" (.ok "/bin/elm") ∧
      Dump.Locates linkedTools loneUser "up/bin/tool" Dump.programName
        (.ok ⟨.root, ["bin", Dump.programName]⟩) := by
  have hname : Path.IsName "work" := ⟨by decide, by decide, by decide⟩
  have hplace : IsPlace linkedTools.root ["work"] :=
    ⟨List.forall_mem_singleton.mpr hname, by decide, _, rfl, nofun⟩
  have hwd : WorksIn linkedTools ["work"] := ⟨rfl, hplace, _, rfl⟩
  have hlocates := locate_eq_iff_locates hwd loneUser
  exact ⟨hwd, (hlocates.1 _ _).mp (by decide +kernel), (hlocates.2 _ _ _).mp (by decide +kernel)⟩

/-- A link to itself. -/
def loopedTools : FileSystem where
  root := .dir [("loop", .link "loop")]
  workingDirectory := some []

/-- No problem is reported for a compiler below the home directory of nobody, nor for an executable
whose links lead back to themselves. -/
theorem locate_loopedTools :
    Compiler.locate loopedTools loneUser "~nobody/elm" = .error .unknownHome ∧
      Dump.locate loopedTools loneUser "./loop" Dump.programName = .error (.linkLoop "loop") := by
  decide +kernel

end ElmSuite
