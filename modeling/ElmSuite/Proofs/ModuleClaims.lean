import ElmSuite.ModuleTable
import ElmSuite.Proofs.Names

/-!
# Which files declare a name

A file declares the names that its path gives it below the source directories. Which files
declare each name depends on which files and directories there are, and on nothing else.
-/

namespace ElmSuite

/-- Whether a file of a set declares a name below one of the directories. -/
def Declares (files : PathSet) (dirs : List Path) (file : Path) (name : String) : Prop :=
  file ∈ files ∧ ∃ dir ∈ dirs, moduleName? file dir = some name

/-- The pairs of a name and a file that declares it, file by file. -/
def declaredNames (files dirs : List Path) : List (String × Path) :=
  files.flatMap fun file => dirs.filterMap fun dir => (moduleName? file dir).map (·, file)

/-- Which files declare each module name. -/
abbrev ModuleClaims := NameMap PathSet

namespace ModuleClaims

/-- One file more that declares a name. -/
def add (claims : ModuleClaims) (name : String) (file : Path) : ModuleClaims :=
  claims.insert name ((claims.getD name ∅).insert file)

/-- More files that declare names. -/
def addAll (claims : ModuleClaims) (pairs : List (String × Path)) : ModuleClaims :=
  pairs.foldl (fun claims (name, file) => claims.add name file) claims

end ModuleClaims

/-- Which files declare each name. -/
def moduleClaims (files : PathSet) (dirs : List Path) : ModuleClaims :=
  ModuleClaims.addAll ∅ (declaredNames files.toList dirs)

/-- The only file of a set. -/
def soleFile? (files : PathSet) : Option Path :=
  match files.toList with
  | [file] => some file
  | _ => none

/-! ## Claims -/

theorem mem_declaredNames {files : PathSet} {dirs : List Path} {name : String} {file : Path} :
    (name, file) ∈ declaredNames files.toList dirs ↔ Declares files dirs file name := by
  simp only [Declares, ← Std.ExtTreeSet.mem_toList, declaredNames, List.mem_flatMap,
    List.mem_filterMap, Option.map_eq_some_iff, Prod.mk.injEq]
  constructor
  · rintro ⟨file, hfile, dir, hdir, name, hname, rfl, rfl⟩
    exact ⟨hfile, dir, hdir, hname⟩
  · rintro ⟨hfile, dir, hdir, hname⟩
    exact ⟨file, hfile, dir, hdir, name, hname, rfl, rfl⟩

namespace ModuleClaims

variable {claims : ModuleClaims}

theorem getElem?_add (claims : ModuleClaims) (name m : String) (file : Path) :
    (claims.add name file)[m]? =
      if name = m then some ((claims.getD name ∅).insert file) else claims[m]? :=
  NameMap.getElem?_set claims name m _

theorem addAll_append (claims : ModuleClaims) (pairs more : List (String × Path)) :
    claims.addAll (pairs ++ more) = (claims.addAll pairs).addAll more := List.foldl_append

theorem mem_add {name m : String} {file f : Path} :
    f ∈ (claims.add name file).getD m ∅ ↔ f ∈ claims.getD m ∅ ∨ (name = m ∧ file = f) := by
  rw [add, Std.ExtTreeMap.getD_insert]
  by_cases h : name = m
  · subst h
    simp [Std.ExtTreeSet.mem_insert, or_comm]
  · simp [h]

/-- Every pair of a list is added. -/
theorem mem_addAll {pairs : List (String × Path)} {m : String} {f : Path} :
    f ∈ (claims.addAll pairs).getD m ∅ ↔ f ∈ claims.getD m ∅ ∨ (m, f) ∈ pairs := by
  induction pairs generalizing claims with
  | nil => simp [addAll]
  | cons pair pairs ih =>
    obtain ⟨name, file⟩ := pair
    have hpair : (m, f) = (name, file) ↔ name = m ∧ file = f := by
      rw [Prod.mk.injEq, eq_comm, @eq_comm _ f]
    rw [addAll, List.foldl_cons, ← addAll, ih, mem_add, List.mem_cons, or_assoc, hpair]

theorem nonempty_add (hclaims : ∀ (m : String) (set : PathSet),
    claims[m]? = some set → ∃ f, f ∈ set) (name : String) (file : Path) :
    ∀ (m : String) (set : PathSet), (claims.add name file)[m]? = some set → ∃ f, f ∈ set := by
  intro m set h
  rw [getElem?_add] at h
  split at h
  · rw [Option.some.injEq] at h
    subst h
    exact ⟨file, by simp⟩
  · exact hclaims m set h

/-- A name is listed with a file only. -/
theorem nonempty_addAll {pairs : List (String × Path)}
    (hclaims : ∀ (m : String) (set : PathSet), claims[m]? = some set → ∃ f, f ∈ set) :
    ∀ (m : String) (set : PathSet), (claims.addAll pairs)[m]? = some set → ∃ f, f ∈ set := by
  induction pairs generalizing claims with
  | nil => exact hclaims
  | cons pair pairs ih => exact ih (nonempty_add hclaims pair.1 pair.2)

end ModuleClaims

section Claims

variable {files : PathSet} {dirs : List Path}

theorem mem_moduleClaims {m : String} {f : Path} :
    f ∈ (moduleClaims files dirs).getD m ∅ ↔ Declares files dirs f m := by
  rw [moduleClaims, ModuleClaims.mem_addAll, mem_declaredNames]
  simp

/-- The files listed for a name are all that declare it. -/
theorem mem_of_getElem?_moduleClaims {m : String} {claimants : PathSet}
    (h : (moduleClaims files dirs)[m]? = some claimants) (f : Path) :
    f ∈ claimants ↔ Declares files dirs f m := by
  rw [← mem_moduleClaims, Std.ExtTreeMap.getD_eq_getD_getElem?, h, Option.getD_some]

theorem getElem?_moduleClaims_of_declares {m : String} {f : Path} (h : Declares files dirs f m) :
    ∃ claimants, (moduleClaims files dirs)[m]? = some claimants := by
  rw [← mem_moduleClaims, Std.ExtTreeMap.getD_eq_getD_getElem?] at h
  cases hclaimants : (moduleClaims files dirs)[m]? with
  | none => simp [hclaimants] at h
  | some claimants => exact ⟨claimants, rfl⟩

/-- Which files declare each name depends on which files and directories there are. -/
theorem moduleClaims_congr {others : PathSet} {places : List Path}
    (hsame : ∀ f m, Declares files dirs f m ↔ Declares others places f m) :
    moduleClaims files dirs = moduleClaims others places := by
  have hnonempty : ∀ (set : PathSet) (list : List Path) (m : String) (claimants : PathSet),
      (moduleClaims set list)[m]? = some claimants → ∃ f, f ∈ claimants := fun set list =>
    ModuleClaims.nonempty_addAll (by simp)
  have hfound : ∀ (m : String) (claimants : PathSet),
      (moduleClaims files dirs)[m]? = some claimants →
        (moduleClaims others places)[m]? = some claimants := by
    intro m claimants h
    obtain ⟨f, hf⟩ := hnonempty files dirs m claimants h
    have hdeclares := (hsame f m).mp ((mem_of_getElem?_moduleClaims h f).mp hf)
    obtain ⟨same, hsome⟩ := getElem?_moduleClaims_of_declares hdeclares
    rw [hsome, Option.some.injEq]
    apply Std.ExtTreeSet.ext_mem
    intro g
    rw [mem_of_getElem?_moduleClaims hsome, mem_of_getElem?_moduleClaims h, hsame]
  apply Std.ExtTreeMap.ext_getElem?
  intro m
  cases h : (moduleClaims files dirs)[m]? with
  | some claimants => rw [hfound m claimants h]
  | none =>
    cases hother : (moduleClaims others places)[m]? with
    | none => rfl
    | some claimants =>
      obtain ⟨f, hf⟩ := hnonempty others places m claimants hother
      have hdeclares := (hsame f m).mpr ((mem_of_getElem?_moduleClaims hother f).mp hf)
      obtain ⟨same, hsome⟩ := getElem?_moduleClaims_of_declares hdeclares
      rw [h] at hsome
      cases hsome

end Claims

/-! ## The size of a set -/

/-- A set with two members has more than one. -/
theorem one_lt_size_iff {set : PathSet} : 1 < set.size ↔ ∃ f g, f ≠ g ∧ f ∈ set ∧ g ∈ set := by
  have hdistinct := Std.ExtTreeSet.distinct_toList (t := set)
  simp only [← Std.ExtTreeSet.length_toList, ← Std.ExtTreeSet.mem_toList (t := set)]
  match set.toList, hdistinct with
  | [], _ => simp
  | [a], _ =>
    simp only [List.length_singleton, Nat.lt_irrefl, List.mem_singleton, false_iff]
    rintro ⟨f, g, hne, rfl, rfl⟩
    exact hne rfl
  | a :: b :: rest, hdistinct =>
    simp only [List.length_cons, Nat.lt_add_left_iff_pos, Nat.zero_lt_succ, true_iff]
    refine ⟨a, b, ?_, by simp, by simp⟩
    rintro rfl
    simp at hdistinct

theorem eq_ofList_of_size {set : PathSet} {f : Path} (hsize : ¬1 < set.size) (hf : f ∈ set) :
    set = PathSet.ofList [f] := by
  apply Std.ExtTreeSet.ext_mem
  intro g
  rw [PathSet.mem_ofList, List.mem_singleton]
  constructor
  · intro hg
    exact Classical.byContradiction fun hne => hsize (one_lt_size_iff.mpr ⟨g, f, hne, hg, hf⟩)
  · rintro rfl
    exact hf

theorem soleFile?_eq_some_iff {files : PathSet} {f : Path} :
    soleFile? files = some f ↔ ∀ g, g ∈ files ↔ g = f := by
  have hmem : ∀ g, g ∈ files ↔ g ∈ files.toList := fun g => Std.ExtTreeSet.mem_toList.symm
  have hdistinct := Std.ExtTreeSet.distinct_toList (t := files)
  simp only [hmem, soleFile?]
  match hlist : files.toList, hdistinct with
  | [], _ => simp
  | [a], _ =>
    simp only [Option.some.injEq, List.mem_singleton]
    constructor
    · rintro rfl g
      rfl
    · intro h
      exact (h a).mp rfl
  | a :: b :: rest, hdistinct =>
    simp only [reduceCtorEq, false_iff]
    intro h
    have ha := (h a).mp (by simp)
    have hb := (h b).mp (by simp)
    rw [ha, hb] at hdistinct
    simp at hdistinct

/-- A set with two members has no sole one. -/
theorem soleFile?_of_one_lt_size {set : PathSet} (h : 1 < set.size) : soleFile? set = none := by
  obtain ⟨f, g, hne, hf, hg⟩ := one_lt_size_iff.mp h
  cases hsole : soleFile? set with
  | none => rfl
  | some file =>
    have hall := soleFile?_eq_some_iff.mp hsole
    exact absurd (((hall f).mp hf).trans ((hall g).mp hg).symm) hne

end ElmSuite
