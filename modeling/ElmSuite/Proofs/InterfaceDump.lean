import ElmSuite.InterfaceDump
import ElmSuite.Proofs.Names
import ElmSuite.Proofs.Text.CodePoints

/-!
# What is collected from a dump

The records of a dump are gone through one by one. What was collected from some of
them has an entry for each module of the table with tests in these records, which
holds all these tests and the file of the module.
-/

namespace ElmSuite.InterfaceDump

/-- Whether a record declares, in this module, a value of this name with the test type. -/
def Reports (testType : String) (records : List ModuleRecord) (m : String) (n : CodePoints) : Prop :=
  ∃ r ∈ records, r.moduleName = .ofString m ∧ ⟨n, .ofString testType⟩ ∈ r.declarations

/-- Whether a dump reports a test of a module in the table. -/
def IsTest (table : NameMap Path) (testType : String) (records : List ModuleRecord) (m : String)
    (n : CodePoints) : Prop :=
  m ∈ table ∧ Reports testType records m n

theorem reports_append {testType : String} {a b : List ModuleRecord} {m : String}
    {n : CodePoints} :
    Reports testType (a ++ b) m n ↔ Reports testType a m n ∨ Reports testType b m n := by
  simp only [Reports, List.mem_append, or_and_right, exists_or]

theorem reports_singleton {testType : String} {r : ModuleRecord} {m : String} {n : CodePoints} :
    Reports testType [r] m n ↔
      r.moduleName = .ofString m ∧ ⟨n, .ofString testType⟩ ∈ r.declarations := by
  simp [Reports]

theorem mem_testsOf {testType : String} {r : ModuleRecord} {n : CodePoints} :
    n ∈ testsOf testType r ↔ ⟨n, .ofString testType⟩ ∈ r.declarations := by
  simp only [testsOf, TextSet.mem_ofList, List.mem_map, List.mem_filter, decide_eq_true_eq]
  constructor
  · rintro ⟨⟨name, signature⟩, ⟨hd, rfl⟩, rfl⟩
    exact hd
  · intro h
    exact ⟨_, ⟨h, rfl⟩, rfl⟩

theorem knownModule?_eq_some_iff {table : NameMap Path} {r : ModuleRecord} {m : String}
    {file : Path} : knownModule? table r = some (m, file) ↔
      r.moduleName = .ofString m ∧ table[m]? = some file := by
  rw [← CodePoints.text?_eq_some_iff]
  simp only [knownModule?, Option.bind_eq_bind, Option.bind_eq_some_iff, Option.pure_def,
    Option.some.injEq, Prod.mk.injEq]
  constructor
  · rintro ⟨name, hname, found, hfound, rfl, rfl⟩
    exact ⟨hname, hfound⟩
  · rintro ⟨hname, hfile⟩
    exact ⟨m, hname, file, hfile, rfl, rfl⟩

/-- The tests of a module that were collected. -/
def testsUnder (found : NameMap ModuleTests) (m : String) : TextSet :=
  (found[m]?.map (·.tests)).getD ∅

theorem testsUnder_of_eq_some {found : NameMap ModuleTests} {m : String} {t : ModuleTests}
    (h : found[m]? = some t) : testsUnder found m = t.tests := by
  rw [testsUnder, h]
  rfl

theorem exists_of_mem_testsUnder {found : NameMap ModuleTests} {m : String} {n : CodePoints}
    (h : n ∈ testsUnder found m) : ∃ t : ModuleTests, found[m]? = some t ∧ n ∈ t.tests := by
  rw [testsUnder] at h
  cases ht : found[m]? with
  | none =>
    rw [ht] at h
    exact absurd h Std.ExtTreeSet.not_mem_empty
  | some t =>
    rw [ht] at h
    exact ⟨t, rfl, h⟩

/-- What was collected, with tests added to those of a module. -/
def merge (found : NameMap ModuleTests) (m : String) (file : Path) (tests : TextSet) :
    NameMap ModuleTests :=
  found.insert m ⟨file, (testsUnder found m).insertMany tests.toList⟩

section Merge

variable {found : NameMap ModuleTests} {k m : String} {n : CodePoints} {file : Path}
  {tests : TextSet}

theorem mem_testsUnder_merge :
    n ∈ testsUnder (merge found k file tests) m ↔ n ∈ testsUnder found m ∨ (k = m ∧ n ∈ tests) := by
  rw [testsUnder, merge, Std.ExtTreeMap.getElem?_insert]
  by_cases h : k = m
  · subst h
    simp
  · simp [h, testsUnder]

/-- An entry is the one that was changed, or was there before. -/
theorem merge_cases {t : ModuleTests} (h : (merge found k file tests)[m]? = some t) :
    (k = m ∧ t.file = file ∧ ∀ n, n ∈ tests → n ∈ t.tests) ∨ found[m]? = some t := by
  rw [merge, Std.ExtTreeMap.getElem?_insert] at h
  by_cases hm : k = m
  · rw [if_pos (Std.LawfulEqCmp.compare_eq_iff_eq.mpr hm), Option.some.injEq] at h
    subst h
    exact .inl ⟨hm, rfl, fun n hn => by simp [hn]⟩
  · right
    simpa [hm] using h

end Merge

/-- What was collected from some records. -/
structure Collected (table : NameMap Path) (testType : String) (records : List ModuleRecord)
    (found : NameMap ModuleTests) : Prop where
  file : ∀ (m : String) (t : ModuleTests), found[m]? = some t → table[m]? = some t.file
  nonempty : ∀ (m : String) (t : ModuleTests), found[m]? = some t → ∃ n, n ∈ t.tests
  tests : ∀ m n, n ∈ testsUnder found m ↔ IsTest table testType records m n

section Entries

variable {table : NameMap Path} {testType : String} {records others : List ModuleRecord}
  {found : NameMap ModuleTests} {m : String} {n : CodePoints}

/-- An entry holds the tests of a module in the table, and the file of the module. -/
theorem Collected.exists_entry_iff (h : Collected table testType records found) {P : Path → Prop} :
    (∃ t : ModuleTests, found[m]? = some t ∧ n ∈ t.tests ∧ P t.file) ↔
      IsTest table testType records m n ∧ ∃ file, table[m]? = some file ∧ P file := by
  rw [← h.tests]
  constructor
  · rintro ⟨t, ht, hn, hfile⟩
    rw [testsUnder_of_eq_some ht]
    exact ⟨hn, t.file, h.file m t ht, hfile⟩
  · rintro ⟨hn, file, hm, hfile⟩
    obtain ⟨t, ht, hn⟩ := exists_of_mem_testsUnder hn
    have hsame := h.file m t ht
    rw [hm, Option.some.injEq] at hsame
    exact ⟨t, ht, hn, hsame ▸ hfile⟩

/-- Modules of the table with tests have an entry, which holds these tests and nothing else. -/
theorem Collected.getElem?_eq_some_iff (h : Collected table testType records found)
    {t : ModuleTests} : found[m]? = some t ↔ table[m]? = some t.file ∧ (∃ n, n ∈ t.tests) ∧
      ∀ n, n ∈ t.tests ↔ IsTest table testType records m n := by
  constructor
  · intro ht
    refine ⟨h.file m t ht, h.nonempty m t ht, ?_⟩
    intro n
    rw [← h.tests, testsUnder_of_eq_some ht]
  · intro ht
    obtain ⟨hfile, ⟨n, hn⟩, htests⟩ := ht
    obtain ⟨u, hu, -⟩ := exists_of_mem_testsUnder ((h.tests m n).mpr ((htests n).mp hn))
    have hsame := h.file m u hu
    rw [hfile, Option.some.injEq] at hsame
    have hnames : t.tests = u.tests := by
      apply Std.ExtTreeSet.ext_mem
      intro k
      rw [htests, ← h.tests, testsUnder_of_eq_some hu]
    cases t
    cases u
    simp_all

/-- What was collected depends on the tests of the modules in the table. -/
theorem Collected.eq_of_isTest {a b : NameMap ModuleTests} (ha : Collected table testType records a)
    (hb : Collected table testType others b)
    (hsame : ∀ m n, IsTest table testType records m n ↔ IsTest table testType others m n) :
    a = b := by
  apply Std.ExtTreeMap.ext_getElem?
  intro m
  apply Option.ext
  intro t
  rw [ha.getElem?_eq_some_iff, hb.getElem?_eq_some_iff]
  simp only [hsame]

end Entries

theorem collected_nil (table : NameMap Path) (testType : String) :
    Collected table testType [] ∅ where
  file m t h := by simp at h
  nonempty m t h := by simp at h
  tests m n := by simp [testsUnder, IsTest, Reports]

section Step

variable {table : NameMap Path} {testType : String} {records : List ModuleRecord}
  {found : NameMap ModuleTests}

/-- A record adds its own tests, if its module is in the table. -/
theorem isTest_append_singleton (r : ModuleRecord) (m : String) (n : CodePoints) :
    IsTest table testType (records ++ [r]) m n ↔
      IsTest table testType records m n ∨
        ((∃ file, knownModule? table r = some (m, file)) ∧ n ∈ testsOf testType r) := by
  simp only [knownModule?_eq_some_iff, exists_and_left]
  rw [← Option.isSome_iff_exists, ← Std.ExtTreeMap.mem_iff_isSome_getElem?, IsTest, IsTest,
    reports_append, reports_singleton, mem_testsOf, and_or_left, and_assoc,
    and_left_comm (b := m ∈ table)]

/-- A record without tests to collect changes nothing. -/
theorem Collected.skip (h : Collected table testType records found) {r : ModuleRecord}
    (hnone : ∀ m file, knownModule? table r = some (m, file) → ∀ n, n ∉ testsOf testType r) :
    Collected table testType (records ++ [r]) found := by
  refine ⟨h.file, h.nonempty, fun m n => ?_⟩
  rw [h.tests, isTest_append_singleton]
  constructor
  · exact .inl
  · rintro (hmn | ⟨⟨file, hm⟩, hn⟩)
    · exact hmn
    · exact absurd hn (hnone m file hm n)

/-- The tests of a record are added to those of its module. -/
theorem Collected.merge (h : Collected table testType records found) {r : ModuleRecord}
    {k : String} {file : Path} (hknown : knownModule? table r = some (k, file))
    (hsome : ∃ n, n ∈ testsOf testType r) :
    Collected table testType (records ++ [r]) (merge found k file (testsOf testType r)) := by
  refine ⟨?_, ?_, ?_⟩
  · intro m t ht
    rcases merge_cases ht with ⟨rfl, rfl, -⟩ | ht
    · exact (knownModule?_eq_some_iff.mp hknown).2
    · exact h.file m t ht
  · intro m t ht
    rcases merge_cases ht with ⟨-, -, hadded⟩ | ht
    · obtain ⟨n, hn⟩ := hsome
      exact ⟨n, hadded n hn⟩
    · exact h.nonempty m t ht
  · intro m n
    rw [mem_testsUnder_merge, isTest_append_singleton, ← h.tests, hknown]
    constructor
    · rintro (hn | ⟨rfl, hn⟩)
      · exact .inl hn
      · exact .inr ⟨⟨file, rfl⟩, hn⟩
    · rintro (hn | ⟨⟨other, hm⟩, hn⟩)
      · exact .inl hn
      · exact .inr ⟨congrArg Prod.fst (Option.some.inj hm), hn⟩

/-- One record more is collected. -/
theorem Collected.collectRecord (h : Collected table testType records found) (r : ModuleRecord) :
    Collected table testType (records ++ [r]) (collectRecord table testType found r) := by
  unfold InterfaceDump.collectRecord
  cases hknown : knownModule? table r with
  | none =>
    refine h.skip fun m file hm => ?_
    rw [hknown] at hm
    cases hm
  | some known =>
    obtain ⟨m, file⟩ := known
    dsimp only
    cases hempty : (testsOf testType r).isEmpty with
    | true =>
      rw [if_pos rfl]
      refine h.skip fun _ _ _ n hn => ?_
      rw [TextSet.isEmpty_eq_false_iff.mpr ⟨n, hn⟩] at hempty
      cases hempty
    | false =>
      rw [if_neg Bool.false_ne_true]
      exact h.merge hknown (TextSet.isEmpty_eq_false_iff.mp hempty)

end Step

/-- All records of a dump are collected. -/
theorem collected_collect (table : NameMap Path) (testType : String) (records : List ModuleRecord) :
    Collected table testType records (collect table testType records) := by
  have hrun : ∀ (more done : List ModuleRecord) (found : NameMap ModuleTests),
      Collected table testType done found →
      Collected table testType (done ++ more) (more.foldl (collectRecord table testType) found) := by
    intro more
    induction more with
    | nil =>
      intro done found h
      rwa [List.append_nil]
    | cons r more ih =>
      intro done found h
      have hnext := ih (done ++ [r]) _ (h.collectRecord r)
      rwa [List.append_assoc, List.singleton_append] at hnext
  exact hrun records [] ∅ (collected_nil table testType)

end ElmSuite.InterfaceDump
