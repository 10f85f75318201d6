import Mathlib.Data.List.Forall2
import ElmSuite.Proofs.ModuleTable
import ElmSuite.Proofs.Names

/-!
# Names that several files declare

A name that several files declare is left out of a module table, and one warning lists
all its files. Table and warnings depend on which files and directories there are, and
on nothing else about the lists of them.
-/

namespace ElmSuite

/-- Whether several files of a set declare a name. -/
def IsAmbiguous (files : PathSet) (dirs : List Path) (name : String) : Prop :=
  ∃ f g, f ≠ g ∧ Declares files dirs f name ∧ Declares files dirs g name

/-- A warning that a name is left out, with all files that declare it, in order. -/
def IsWarningOn (files : PathSet) (dirs : List Path) (name : String) (r : LogRecord) : Prop :=
  ∃ claimants : List Path, claimants.Pairwise (fun f g => compare f g = .lt) ∧
    (∀ f, f ∈ claimants ↔ Declares files dirs f name) ∧
    r = ⟨.warning, "Module name " ++ name ++ " is declared by more than one file (" ++
      String.intercalate ", " (claimants.map toString) ++ "); its tests will not be run"⟩

/-- The warnings that are made while a table is built. -/
def tableWarnings (files : PathSet) (dirs : List Path) : List LogRecord :=
  recordsFrom .warning (moduleTableLog files dirs)

section Claims

variable {files : PathSet} {dirs : List Path}

theorem isAmbiguous_iff {m : String} :
    IsAmbiguous files dirs m ↔
      ∃ claimants : PathSet, (moduleClaims files dirs)[m]? = some claimants ∧ 1 < claimants.size := by
  constructor
  · rintro ⟨f, g, hne, hf, hg⟩
    obtain ⟨claimants, hclaimants⟩ := getElem?_moduleClaims_of_declares hf
    exact ⟨claimants, hclaimants, one_lt_size_iff.mpr ⟨f, g, hne,
      (mem_of_getElem?_moduleClaims hclaimants f).mpr hf,
      (mem_of_getElem?_moduleClaims hclaimants g).mpr hg⟩⟩
  · rintro ⟨claimants, hclaimants, hsize⟩
    obtain ⟨f, g, hne, hf, hg⟩ := one_lt_size_iff.mp hsize
    exact ⟨f, g, hne, (mem_of_getElem?_moduleClaims hclaimants f).mp hf,
      (mem_of_getElem?_moduleClaims hclaimants g).mp hg⟩

/-! ## The warnings -/

/-- The names that several files declare, with these files, in ascending order. -/
def ambiguousNames (files : PathSet) (dirs : List Path) : List (String × PathSet) :=
  (moduleClaims files dirs).toList.filter fun (_, claimants) => 1 < claimants.size

theorem mem_ambiguousNames {m : String} {claimants : PathSet} :
    (m, claimants) ∈ ambiguousNames files dirs ↔
      (moduleClaims files dirs)[m]? = some claimants ∧ 1 < claimants.size := by
  rw [ambiguousNames, List.mem_filter, Std.ExtTreeMap.mem_toList_iff_getElem?_eq_some,
    decide_eq_true_iff]

/-- The notes on illegal names are no warnings, so that each warning is on an ambiguous name. -/
theorem tableWarnings_eq (files : PathSet) (dirs : List Path) :
    tableWarnings files dirs =
      (ambiguousNames files dirs).map fun (m, claimants) => ambiguityWarning m claimants := by
  have hambiguous : (tableState files dirs).ambiguous.toList = ambiguousNames files dirs := by
    rw [(tracks_tableState files dirs).ambiguous, Std.ExtTreeMap.toList_filter, ambiguousNames]
  have hnotes : (tableState files dirs).notes.filter (LogLevel.warning.rank ≤ ·.level.rank) = [] := by
    refine List.filter_eq_nil_iff.mpr fun r hr => ?_
    obtain ⟨file, dir, parts, rfl⟩ := exists_illegalNameNote_of_mem_notes hr
    simp [illegalNameNote, LogLevel.rank]
  have hwarnings : ((ambiguousNames files dirs).map fun (m, claimants) =>
      ambiguityWarning m claimants).filter (LogLevel.warning.rank ≤ ·.level.rank) =
        (ambiguousNames files dirs).map fun (m, claimants) => ambiguityWarning m claimants := by
    refine List.filter_eq_self.mpr fun r hr => ?_
    obtain ⟨pair, -, rfl⟩ := List.mem_map.mp hr
    simp [ambiguityWarning]
  rw [tableWarnings, moduleTableLog, recordsFrom, List.filter_append, hnotes, hambiguous, hwarnings,
    List.nil_append]

theorem isWarningOn_ambiguityWarning {m : String} {claimants : PathSet}
    (h : (moduleClaims files dirs)[m]? = some claimants) :
    IsWarningOn files dirs m (ambiguityWarning m claimants) :=
  ⟨claimants.toList, Std.ExtTreeSet.ordered_toList, fun f => by
    rw [Std.ExtTreeSet.mem_toList, mem_of_getElem?_moduleClaims h], rfl⟩

/-- There is one warning on each ambiguous name, in the order of the names. -/
theorem tableWarnings_spec (files : PathSet) (dirs : List Path) :
    ∃ names : List String, names.Pairwise (· < ·) ∧
      (∀ m, m ∈ names ↔ IsAmbiguous files dirs m) ∧
      List.Forall₂ (IsWarningOn files dirs) names (tableWarnings files dirs) := by
  refine ⟨(ambiguousNames files dirs).map (·.1), ?_, fun m => ?_, ?_⟩
  · rw [List.pairwise_map]
    exact (Std.ExtTreeMap.ordered_keys_toList.filter _).imp lt_of_compare
  · rw [isAmbiguous_iff, List.mem_map]
    constructor
    · rintro ⟨⟨m, claimants⟩, hmem, rfl⟩
      exact ⟨claimants, mem_ambiguousNames.mp hmem⟩
    · rintro ⟨claimants, hclaimants⟩
      exact ⟨(m, claimants), mem_ambiguousNames.mpr hclaimants, rfl⟩
  · rw [tableWarnings_eq, List.forall₂_map_left_iff, List.forall₂_map_right_iff, List.forall₂_same]
    rintro ⟨m, claimants⟩ hmem
    exact isWarningOn_ambiguityWarning (mem_ambiguousNames.mp hmem).1

end Claims

/-! ## What lists of files and directories give -/

theorem declares_ofList_iff {files dirs : List Path} {f : Path} {m : String} :
    Declares (PathSet.ofList files) dirs f m ↔
      f ∈ files ∧ ∃ dir ∈ dirs, moduleName? f dir = some m := by
  rw [Declares, PathSet.mem_ofList]

/-- A table maps a name to the file that declares it when no other one does. -/
theorem getElem?_moduleTable_iff_sole {files : PathSet} {dirs : List Path} {m : String} {f : Path} :
    (moduleTable files dirs)[m]? = some f ↔
      Declares files dirs f m ∧ ∀ g, Declares files dirs g m → g = f := by
  rw [getElem?_moduleTable]
  constructor
  · intro h
    exact ⟨(h f).mpr rfl, fun g hg => (h g).mp hg⟩
  · rintro ⟨hf, hsole⟩ g
    constructor
    · exact hsole g
    · rintro rfl
      exact hf

/-- **A module table holds exactly the unambiguous names**: a name is mapped to a file when the file
is listed, declares the name below some listed directory, and is the only one of the listed files
to do so. A name that several files declare is in no table, and one warning on it lists its files
in order; there are no other warnings, and those there are follow the order of the names. Neither
table nor warnings depend on the order of the lists, or on repetitions in them. -/
theorem moduleTable_unambiguous (files dirs : List Path) :
    (∀ (m : String) (f : Path), (moduleTable (PathSet.ofList files) dirs)[m]? = some f ↔
      (f ∈ files ∧ ∃ dir ∈ dirs, moduleName? f dir = some m) ∧
        ∀ g ∈ files, ∀ dir ∈ dirs, moduleName? g dir = some m → g = f) ∧
    (∀ m, IsAmbiguous (PathSet.ofList files) dirs m → m ∉ moduleTable (PathSet.ofList files) dirs) ∧
    (∃ names : List String, names.Pairwise (· < ·) ∧
      (∀ m, m ∈ names ↔ IsAmbiguous (PathSet.ofList files) dirs m) ∧
      List.Forall₂ (IsWarningOn (PathSet.ofList files) dirs) names
        (tableWarnings (PathSet.ofList files) dirs)) ∧
    ∀ files' dirs' : List Path, (∀ f, f ∈ files' ↔ f ∈ files) → (∀ d, d ∈ dirs' ↔ d ∈ dirs) →
      moduleTable (PathSet.ofList files') dirs' = moduleTable (PathSet.ofList files) dirs ∧
        tableWarnings (PathSet.ofList files') dirs' = tableWarnings (PathSet.ofList files) dirs := by
  refine ⟨fun m f => ?_, fun m => ?_, tableWarnings_spec _ _, fun files' dirs' hfiles hdirs => ?_⟩
  · simp only [getElem?_moduleTable_iff_sole, declares_ofList_iff, and_imp, forall_exists_index]
  · rintro ⟨f, g, hne, hf, hg⟩ hmem
    obtain ⟨file, hfile⟩ := Option.isSome_iff_exists.mp
      (Std.ExtTreeMap.mem_iff_isSome_getElem?.mp hmem)
    have hsole := (getElem?_moduleTable_iff_sole.mp hfile).2
    exact hne ((hsole f hf).trans (hsole g hg).symm)
  · have hclaims : moduleClaims (PathSet.ofList files') dirs' =
        moduleClaims (PathSet.ofList files) dirs :=
      moduleClaims_congr fun f m => by simp only [declares_ofList_iff, hfiles, hdirs]
    exact ⟨by rw [moduleTable_eq, hclaims, moduleTable_eq],
      by rw [tableWarnings_eq, ambiguousNames, hclaims, tableWarnings_eq, ambiguousNames]⟩

end ElmSuite
