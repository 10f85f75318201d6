import ElmSuite.CommandLine.Command
import ElmSuite.Proofs.Blame

/-!
# Nothing before a run blames its workers

A command reads variables and settings, opens its log, checks its arguments, loads its
project and locates its tools before it runs anything. Each of these steps that fails
does so for a reason of its own.
-/

namespace ElmSuite

/-! ## Variables and settings -/

theorem VariableSource.blamesNoWorker_read (source : VariableSource) (fs : FileSystem)
    (bindings : Variables) : BlamesNoWorker (source.read fs bindings) := by
  intro e he
  cases e with
  | problem p => exact absurd he (source.noProblem fs bindings p)
  | _ => rfl

/-- An integer is read as it has to be, or it is reported with its flag. -/
theorem IntegerText.read_cases (flag value : String) (positive : Bool) :
    read flag value positive = .error (.invalidInteger flag value) ∨
      ∃ n, read flag value positive = .ok n ∧ (positive = true → 0 < n) := by
  rw [read]
  split
  · next n hn =>
    split
    · exact .inl rfl
    · next hpositive => exact .inr ⟨n, rfl, fun hset => by simpa [hset] using hpositive⟩
  · exact .inl rfl

/-- Settings give no number of workers or one above zero, and nothing but this number can be at
fault. -/
theorem Settings.ofVariables_cases (lookup : Variables) :
    (∃ value, ofVariables lookup = .error (.invalidInteger workersVariable value)) ∨
      ∃ settings, ofVariables lookup = .ok settings ∧ ∀ n, settings.workers = some n → 0 < n := by
  rw [ofVariables]
  dsimp only
  split
  · exact .inr ⟨_, rfl, nofun⟩
  · next value hvalue =>
    rcases IntegerText.read_cases workersVariable value true with hread | ⟨n, hread, hpos⟩
    · rw [hread]
      exact .inl ⟨value, rfl⟩
    · rw [hread]
      refine .inr ⟨_, rfl, fun m hm => ?_⟩
      cases hm
      exact hpos rfl

theorem Settings.blamesNoWorker_ofVariables (lookup : Variables) :
    BlamesNoWorker ((ofVariables lookup).mapError Fault.problem) := by
  rcases ofVariables_cases lookup with ⟨value, h⟩ | ⟨settings, h, -⟩
  · rw [h]
    exact .error rfl
  · rw [h]
    exact .ok settings

/-! ## The log -/

theorem LogFile.blamesNoWorker_opened (fs : FileSystem) (p : Path) (level : LogLevel) :
    BlamesNoWorker (opened fs p level) := by
  rw [opened]
  split
  · exact .error rfl
  · refine (fs.blamesNoWorker_makeDirectories _).bind fun made => ?_
    split
    · exact .error rfl
    · exact (made.blamesNoWorker_write _ _).bind fun _ => .ok _

theorem Command.blamesNoWorker_openLog (fs : FileSystem) (level : LogLevel) (path : Option Path) :
    BlamesNoWorker (openLog fs level path) := by
  cases path with
  | none => exact .ok _
  | some path => exact (LogFile.blamesNoWorker_opened fs path level).bind fun _ => .ok _

/-! ## Arguments -/

theorem Command.readInteger_cases (flag : String) (value : Option String) (positive : Bool) :
    (∃ text, readInteger flag value positive = .error (.invalidInteger flag text)) ∨
      ∃ n?, readInteger flag value positive = .ok n? ∧
        ∀ n, n? = some n → positive = true → 0 < n := by
  cases value with
  | none => exact .inr ⟨none, rfl, nofun⟩
  | some text =>
    rcases IntegerText.read_cases flag text positive with hread | ⟨n, hread, hpos⟩
    · refine .inl ⟨text, ?_⟩
      simp only [readInteger, Option.mapM_some, hread]
      rfl
    · refine .inr ⟨some n, ?_, fun m hm => ?_⟩
      · simp only [readInteger, Option.mapM_some, hread]
        rfl
      · cases hm
        exact hpos

theorem Command.blamesNoWorker_readInteger (flag : String) (value : Option String)
    (positive : Bool) :
    BlamesNoWorker ((readInteger flag value positive).mapError Fault.problem) := by
  rcases readInteger_cases flag value positive with ⟨text, h⟩ | ⟨n?, h, -⟩
  · rw [h]
    exact .error rfl
  · rw [h]
    exact .ok n?

theorem Compiler.blamesNoWorker_locate (fs : FileSystem) (s : Surroundings) (value : String) :
    BlamesNoWorker (locate fs s value) := by
  refine (s.blamesNoWorker_expandHome _).bind fun path =>
    (BlamesNoWorker.mapError_file _).bind fun isDir => ?_
  extract_lets rest
  split
  · exact .throw_bind rfl _
  · dsimp only [rest]
    split
    · exact .ok _
    · refine (BlamesNoWorker.mapError_file _).bind fun isFile => ?_
      split
      · exact .ok _
      · exact .error rfl

theorem Command.blamesNoWorker_plan (i : Invocation) (fs : FileSystem) (s : Surroundings)
    (settings : Settings) (a : Arguments) : BlamesNoWorker (plan i fs s settings a) :=
  (blamesNoWorker_readInteger _ _ _).bind fun _ => (blamesNoWorker_readInteger _ _ _).bind fun _ =>
    (blamesNoWorker_readInteger _ _ _).bind fun _ =>
      (Compiler.blamesNoWorker_locate fs s _).bind fun _ => .ok _

/-! ## The project -/

namespace Manifest

theorem blamesNoWorker_ofFields (path : Path) (fields : List (CodePoints × JsonValue)) :
    BlamesNoWorker ((ofFields path fields).mapError Fault.problem) := by
  refine .mapError_problem fun e h => ?_
  rw [ofFields] at h
  dsimp only at h
  split at h
  · split at h
    · cases h
      rfl
    · cases h
  · cases h
    rfl
  · split at h
    · cases h
      rfl
    · cases h
      rfl
  · split at h
    · cases h
      rfl
    · cases h
      rfl

theorem blamesNoWorker_ofText (path : Path) (text : List Char) :
    BlamesNoWorker (ofText path text) := by
  rw [ofText]
  split
  · exact .error rfl
  · exact .error rfl
  · exact blamesNoWorker_ofFields path _
  · exact .error rfl

theorem blamesNoWorker_read (fs : FileSystem) (root : Path) : BlamesNoWorker (read fs root) := by
  rw [read]
  split
  · exact .error rfl
  · next e hfile he => exact (fs.blamesNoWorker_read _).of_eq_error he
  · split
    · exact .error rfl
    · exact blamesNoWorker_ofText _ _

end Manifest

theorem FileSystem.blamesNoWorker_currentDirectory (fs : FileSystem) :
    BlamesNoWorker (fs.currentDirectory.mapError Fault.problem) := by
  refine .mapError_problem fun e h => ?_
  rw [currentDirectory] at h
  split at h
  · split at h
    · cases h
    · cases h
      rfl
  · cases h
    rfl

theorem FileSystem.blamesNoWorker_resolveSpelled (fs : FileSystem) (root : Path)
    (spelled : CodePoints) : BlamesNoWorker (fs.resolveSpelled root spelled) := by
  rw [resolveSpelled]
  split
  · exact fs.blamesNoWorker_resolve _
  · extract_lets p
    split
    · next e he => exact (fs.blamesNoWorker_resolveWithin _ _ _ _).of_eq_error he
    · refine .error ?_
      rw [nameFault]
      split
      · rfl
      · split <;> rfl

namespace Project

variable (fs : FileSystem)

theorem blamesNoWorker_firstWithManifest (dirs : List Path) :
    BlamesNoWorker (firstWithManifest fs dirs) := by
  induction dirs with
  | nil => exact .ok _
  | cons dir rest ih =>
    rw [firstWithManifest]
    split
    · exact .error rfl
    · exact .ok _
    · exact ih

theorem blamesNoWorker_findRoot (start : Path) : BlamesNoWorker (findRoot fs start) := by
  rw [findRoot]
  split
  · next e he => exact (blamesNoWorker_firstWithManifest fs _).of_eq_error he
  · exact .ok _
  · exact .error rfl

theorem blamesNoWorker_enterRoot (root : Path) : BlamesNoWorker (enterRoot fs root) := by
  rw [enterRoot]
  split
  · exact .error rfl
  · next e hfile he => exact (fs.blamesNoWorker_enter _).of_eq_error he
  · exact .ok _

theorem blamesNoWorker_resolveEntry (root : Path) (entry : CodePoints) :
    BlamesNoWorker (resolveEntry fs root entry) := by
  rw [resolveEntry]
  split
  · exact .error rfl
  · next e hfile he => exact (fs.blamesNoWorker_resolveSpelled _ _).of_eq_error he
  · split
    · exact .error rfl
    · exact .ok _
    · exact .error rfl

theorem blamesNoWorker_load (root : Path) : BlamesNoWorker (load fs root) := by
  refine (Manifest.blamesNoWorker_read fs root).bind fun manifest => BlamesNoWorker.bind ?_ fun _ => .ok _
  refine (BlamesNoWorker.mapM (blamesNoWorker_resolveEntry fs root) _).bind fun declared =>
    (BlamesNoWorker.mapError_file _).bind fun isDir => ?_
  split
  · exact .ok _
  · exact .ok _

end Project

namespace TestFiles

variable (fs : FileSystem)

theorem blamesNoWorker_inDirectory (dir : Path) : BlamesNoWorker (inDirectory fs dir) :=
  (BlamesNoWorker.forM (fun _ => .mapError_file _) _).bind fun _ =>
    (BlamesNoWorker.filterM (fun _ => .mapError_file _) _).bind fun _ => .ok _

theorem blamesNoWorker_ofMatch (root path : Path) : BlamesNoWorker (ofMatch fs root path) := by
  refine (BlamesNoWorker.mapError_file _).bind fun isDir => ?_
  split
  · exact .ok _
  · split
    · exact blamesNoWorker_inDirectory fs path
    · refine (BlamesNoWorker.mapError_file _).bind fun isFile => ?_
      split
      · exact .ok _
      · exact .ok _

theorem blamesNoWorker_ofCandidate (root candidate : Path) :
    BlamesNoWorker (ofCandidate fs root candidate) := by
  refine (BlamesNoWorker.mapError_file _).bind fun isDir => ?_
  split
  · exact blamesNoWorker_inDirectory fs candidate
  · refine (BlamesNoWorker.mapError_file _).bind fun isFile => ?_
    split
    · exact .ok _
    · exact (fs.blamesNoWorker_expand candidate).bind fun found =>
        (BlamesNoWorker.mapM (blamesNoWorker_ofMatch fs root) found).bind fun _ => .ok _

theorem blamesNoWorker_gather (arguments : List String) (root base : Path) :
    BlamesNoWorker (gather fs arguments root base) := by
  rw [gather]
  split
  · exact .ok _
  · exact .error rfl
  · next e hfile he =>
    exact (BlamesNoWorker.mapM (blamesNoWorker_ofCandidate fs root) _).of_eq_error he

end TestFiles

/-! ## The tools -/

theorem Path.blamesNoWorker_sibling (p : Path) (name : String) :
    BlamesNoWorker (p.sibling name) := by
  rw [sibling]
  split
  · exact .error rfl
  · split
    · exact .ok _
    · exact .error rfl

theorem Dump.blamesNoWorker_locate (fs : FileSystem) (s : Surroundings) (executable name : String) :
    BlamesNoWorker (locate fs s executable name) := by
  rw [locate]
  extract_lets located?
  clear_value located?
  split
  · exact .throw_bind rfl _
  · cases located? with
    | none => exact .error rfl
    | some text =>
      dsimp only
      split
      · next resolved hresolved => exact resolved.blamesNoWorker_sibling name
      · exact .error rfl
      · next e hfile he => exact (fs.blamesNoWorker_resolve _).of_eq_error he

end ElmSuite
