import ElmSuite.Proofs.ModuleClaims

/-!
# What a module table holds

While files are gone through, the state is told by the files that have declared each name so
far: the table holds one of them for each name, and the ambiguous names are those of several.
So in the end a table maps a name to a file when the file is the only one of its files that
declares the name below some source directory.
-/

namespace ElmSuite

namespace TableState

variable {s : TableState} {claims : ModuleClaims}

/-! ## The invariant -/

/-- What holds of the state once the files of `claims` have declared their names. -/
structure Tracks (s : TableState) (claims : ModuleClaims) : Prop where
  /-- The names of the table are those that are declared, each with one of its files. -/
  table : ∀ m : String, Option.Rel (fun (f : Path) (set : PathSet) => f ∈ set) s.table[m]? claims[m]?
  /-- The ambiguous names are those of several files, with all of these. -/
  ambiguous : s.ambiguous = claims.filter fun _ set => 1 < set.size

theorem tracks_initial : Tracks {} ∅ where
  table m := by
    rw [Std.ExtTreeMap.getElem?_empty, Std.ExtTreeMap.getElem?_empty]
    exact .none
  ambiguous := by
    apply Std.ExtTreeMap.ext_getElem?
    simp

/-- A name that was not declared before. -/
theorem Tracks.declare_new (h : s.Tracks claims) {name : String} (file : Path)
    (hclaims : claims[name]? = none) :
    Tracks ⟨s.table.insert name file, s.ambiguous, s.notes⟩ (claims.add name file) where
  table m := by
    rw [NameMap.getElem?_set, ModuleClaims.getElem?_add]
    split
    · exact .some (by simp)
    · exact h.table m
  ambiguous := by
    rw [h.ambiguous]
    apply Std.ExtTreeMap.ext_getElem?
    intro m
    rw [Std.ExtTreeMap.getElem?_filter', Std.ExtTreeMap.getElem?_filter', ModuleClaims.getElem?_add]
    split
    · next heq =>
      subst heq
      rw [hclaims, Std.ExtTreeMap.getD_eq_getD_getElem?, hclaims]
      rfl
    · rfl

/-- A file that has declared the name before changes nothing. -/
theorem add_eq_of_mem {name : String} {file : Path} {set : PathSet}
    (hclaims : claims[name]? = some set) (hfile : file ∈ set) : claims.add name file = claims := by
  apply Std.ExtTreeMap.ext_getElem?
  intro m
  rw [ModuleClaims.getElem?_add]
  split
  · next heq =>
    subst heq
    rw [Std.ExtTreeMap.getD_eq_getD_getElem?, hclaims, Option.getD_some, Option.some.injEq]
    apply Std.ExtTreeSet.ext_mem
    intro f
    rw [Std.ExtTreeSet.mem_insert, Std.LawfulEqCmp.compare_eq_iff_eq]
    constructor
    · rintro (rfl | hf)
      · exact hfile
      · exact hf
    · exact .inr
  · rfl

/-- Another file than the one in the table makes the name ambiguous. -/
theorem Tracks.declare_other (h : s.Tracks claims) {name : String} {existing file : Path}
    {set : PathSet} (hexisting : s.table[name]? = some existing) (hclaims : claims[name]? = some set)
    (hmem : existing ∈ set) (hne : existing ≠ file) :
    Tracks ⟨s.table, s.ambiguous.insert name
      (((s.ambiguous[name]?).getD (PathSet.ofList [existing])).insert file), s.notes⟩
      (claims.add name file) where
  table m := by
    rw [ModuleClaims.getElem?_add]
    split
    · next heq =>
      subst heq
      rw [hexisting, Std.ExtTreeMap.getD_eq_getD_getElem?, hclaims]
      exact .some (by simp [hmem])
    · exact h.table m
  ambiguous := by
    -- The files known before are all that declared the name, be it one file or several.
    have hknown : (s.ambiguous[name]?).getD (PathSet.ofList [existing]) = set := by
      rw [h.ambiguous, Std.ExtTreeMap.getElem?_filter', hclaims, Option.filter_some]
      split
      · rfl
      · next hsize => exact (eq_ofList_of_size (by simpa using hsize) hmem).symm
    have hsize : 1 < (set.insert file).size :=
      one_lt_size_iff.mpr ⟨existing, file, hne, by simp [hmem], by simp⟩
    rw [hknown]
    apply Std.ExtTreeMap.ext_getElem?
    intro m
    rw [NameMap.getElem?_set, Std.ExtTreeMap.getElem?_filter', ModuleClaims.getElem?_add]
    split
    · rw [Std.ExtTreeMap.getD_eq_getD_getElem?, hclaims, Option.getD_some, Option.filter_some,
        if_pos (by simpa using hsize)]
    · rw [h.ambiguous, Std.ExtTreeMap.getElem?_filter']

/-- **One declaration more** keeps the invariant, whichever file declares the name. -/
theorem Tracks.declare (h : s.Tracks claims) (name : String) (file : Path) :
    (s.declare name file).Tracks (claims.add name file) := by
  rw [TableState.declare]
  have hname := h.table name
  cases htable : s.table[name]? with
  | none =>
    rw [htable] at hname
    cases hclaims : claims[name]? with
    | none => exact h.declare_new file hclaims
    | some set =>
      rw [hclaims] at hname
      cases hname
  | some existing =>
    rw [htable] at hname
    cases hclaims : claims[name]? with
    | none =>
      rw [hclaims] at hname
      cases hname
    | some set =>
      rw [hclaims] at hname
      cases hname with
      | some hmem =>
        dsimp only
        split
        · next heq =>
          subst heq
          have htable' : s.table.insert name existing = s.table := by
            apply Std.ExtTreeMap.ext_getElem?
            intro m
            rw [NameMap.getElem?_set]
            split
            · next heq => rw [← heq, htable]
            · rfl
          rw [add_eq_of_mem hclaims hmem, htable']
          exact h
        · next hne => exact h.declare_other htable hclaims hmem hne

theorem Tracks.mem_ambiguous_iff (h : s.Tracks claims) {m : String} {set : PathSet}
    (hclaims : claims[m]? = some set) : m ∈ s.ambiguous.keys ↔ 1 < set.size := by
  rw [Std.ExtTreeMap.mem_keys, Std.ExtTreeMap.mem_iff_isSome_getElem?, h.ambiguous,
    Std.ExtTreeMap.getElem?_filter', hclaims, Option.filter_some]
  by_cases hsize : 1 < set.size <;> simp [hsize]

/-! ## The loop -/

theorem Tracks.step (h : s.Tracks claims) (file dir : Path) :
    (s.step file dir).Tracks (claims.addAll ((moduleName? file dir).map (·, file)).toList) := by
  rw [TableState.step, moduleName?]
  cases moduleCandidate file dir with
  | outside => exact h
  | illegal parts => exact ⟨h.table, h.ambiguous⟩
  | named name => exact h.declare name file

theorem Tracks.foldl_step (h : s.Tracks claims) (file : Path) (dirs : List Path) :
    (dirs.foldl (TableState.step file) s).Tracks
      (claims.addAll (dirs.filterMap fun dir => (moduleName? file dir).map (·, file))) := by
  induction dirs generalizing s claims with
  | nil => exact h
  | cons dir dirs ih =>
    have hpairs := ih (h.step file dir)
    rw [← ModuleClaims.addAll_append] at hpairs
    rw [List.filterMap_cons]
    cases hname : (moduleName? file dir).map (·, file) with
    | none => rwa [hname] at hpairs
    | some pair => rwa [hname] at hpairs

/-- The whole loop keeps the invariant. -/
theorem Tracks.run (h : s.Tracks claims) (files dirs : List Path) :
    (run files dirs s).Tracks (claims.addAll (declaredNames files dirs)) := by
  induction files generalizing s claims with
  | nil => exact h
  | cons file files ih =>
    rw [declaredNames, List.flatMap_cons, ModuleClaims.addAll_append]
    exact ih (h.foldl_step file dirs)

/-- The note on a file that has no module name below a directory. -/
def illegalNote? (file dir : Path) : Option LogRecord :=
  match moduleCandidate file dir with
  | .illegal parts => some (illegalNameNote file dir parts)
  | _ => none

theorem notes_foldl_step (file : Path) (dirs : List Path) (s : TableState) :
    (dirs.foldl (step file) s).notes = s.notes ++ dirs.filterMap (illegalNote? file) := by
  induction dirs generalizing s with
  | nil => simp
  | cons dir dirs ih =>
    rw [List.foldl_cons, ih, List.filterMap_cons, illegalNote?, step]
    cases moduleCandidate file dir with
    | outside => rfl
    | illegal parts => simp
    | named name =>
      dsimp only
      rw [TableState.declare]
      split
      · rfl
      · split <;> rfl

theorem notes_run (files dirs : List Path) (s : TableState) :
    (run files dirs s).notes =
      s.notes ++ files.flatMap fun file => dirs.filterMap (illegalNote? file) := by
  induction files generalizing s with
  | nil => simp [run]
  | cons file files ih =>
    rw [run, List.foldl_cons, ← run, ih, notes_foldl_step, List.flatMap_cons, List.append_assoc]

end TableState

section Table

variable {files : PathSet} {dirs : List Path}

/-- In the end the state is told by the files that declare each name. -/
theorem tracks_tableState (files : PathSet) (dirs : List Path) :
    (tableState files dirs).Tracks (moduleClaims files dirs) := by
  have hdirs : moduleClaims files dirs.eraseDups = moduleClaims files dirs :=
    moduleClaims_congr fun f m => by simp only [Declares, List.mem_eraseDups]
  rw [← hdirs]
  exact TableState.tracks_initial.run files.toList dirs.eraseDups

theorem notes_tableState (files : PathSet) (dirs : List Path) :
    (tableState files dirs).notes = files.toList.flatMap fun file =>
      dirs.eraseDups.filterMap (TableState.illegalNote? file) := by
  rw [tableState, TableState.notes_run, List.nil_append]

theorem exists_illegalNameNote_of_mem_notes {r : LogRecord}
    (h : r ∈ (tableState files dirs).notes) :
    ∃ file dir parts, r = illegalNameNote file dir parts := by
  rw [notes_tableState] at h
  obtain ⟨file, -, hfile⟩ := List.mem_flatMap.mp h
  obtain ⟨dir, -, hdir⟩ := List.mem_filterMap.mp hfile
  rw [TableState.illegalNote?] at hdir
  split at hdir
  · next parts _ => exact ⟨file, dir, parts, (Option.some.inj hdir).symm⟩
  · cases hdir

/-! ## The table -/

theorem getElem?_foldl_erase (names : List String) (table : NameMap Path) (m : String) :
    (names.foldl (fun table name => table.erase name) table)[m]? =
      if m ∈ names then none else table[m]? := by
  induction names generalizing table with
  | nil => simp
  | cons name names ih =>
    rw [List.foldl_cons, ih, NameMap.getElem?_without]
    by_cases hname : name = m
    · simp [hname]
    · simp [hname, Ne.symm hname]

/-- The table has the names that one file alone declares. -/
theorem moduleTable_eq (files : PathSet) (dirs : List Path) :
    moduleTable files dirs = (moduleClaims files dirs).filterMap fun _ => soleFile? := by
  have htracks := tracks_tableState files dirs
  apply Std.ExtTreeMap.ext_getElem?
  intro m
  have htable := htracks.table m
  rw [moduleTable, getElem?_foldl_erase, Std.ExtTreeMap.getElem?_filterMap']
  cases hclaims : (moduleClaims files dirs)[m]? with
  | none =>
    rw [hclaims] at htable
    generalize (tableState files dirs).table[m]? = found at htable ⊢
    cases htable
    exact ite_self none
  | some set =>
    rw [hclaims] at htable
    have hambiguous := htracks.mem_ambiguous_iff hclaims
    generalize (tableState files dirs).table[m]? = found at htable ⊢
    cases htable with
    | some hmem =>
      rw [Option.bind_some]
      split
      · next hkey => exact (soleFile?_of_one_lt_size (hambiguous.mp hkey)).symm
      · next hkey =>
        rw [eq_ofList_of_size (mt hambiguous.mpr hkey) hmem]
        exact (soleFile?_eq_some_iff.mpr fun g => by simp).symm

/-- A name is mapped to the only file that declares it. -/
theorem getElem?_moduleTable {m : String} {f : Path} :
    (moduleTable files dirs)[m]? = some f ↔ ∀ g, Declares files dirs g m ↔ g = f := by
  rw [moduleTable_eq, Std.ExtTreeMap.getElem?_filterMap', Option.bind_eq_some_iff]
  simp only [soleFile?_eq_some_iff, ← mem_moduleClaims]
  constructor
  · rintro ⟨claimants, hclaimants, hsole⟩ g
    rw [Std.ExtTreeMap.getD_eq_getD_getElem?, hclaimants, Option.getD_some]
    exact hsole g
  · intro h
    have hf := (h f).mpr rfl
    rw [Std.ExtTreeMap.getD_eq_getD_getElem?] at hf
    cases hclaimants : (moduleClaims files dirs)[m]? with
    | none => simp [hclaimants] at hf
    | some claimants =>
      refine ⟨claimants, rfl, fun g => ?_⟩
      rw [← h g, Std.ExtTreeMap.getD_eq_getD_getElem?, hclaimants, Option.getD_some]

/-- A table holds files of its set only. -/
theorem mem_of_moduleTable {m : String} {f : Path}
    (h : (moduleTable files dirs)[m]? = some f) : f ∈ files :=
  ((getElem?_moduleTable.mp h f).mpr rfl).1

end Table

end ElmSuite
