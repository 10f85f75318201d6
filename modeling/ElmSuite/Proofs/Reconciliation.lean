import ElmSuite.Proofs.Names
import ElmSuite.Reconciliation

/-!
# How tests are split

When the file of every module with tests was scanned, a reconciliation sends each
test to one of two sides: those that its module exposes and those that it does not.
No test is lost and none is on both sides, whatever other modules of the same file or
with tests of the same names come to. The modules with a test on a side are listed on
that side, and the reconciliation is refused for all unexposed tests at once.
-/

namespace ElmSuite

theorem mem_confirmedTests {tests : TextSet} {exposing : Exposing} {n : CodePoints} :
    n ∈ confirmedTests tests exposing ↔ n ∈ tests ∧ exposing.exposes n = true := by
  simp [confirmedTests, Std.ExtTreeSet.mem_filter]

theorem mem_unexposedTests {tests : TextSet} {exposing : Exposing} {n : CodePoints} :
    n ∈ unexposedTests tests exposing ↔ n ∈ tests ∧ exposing.exposes n = false := by
  simp [unexposedTests, Std.ExtTreeSet.mem_filter]

namespace Reconciliation

theorem nonempty?_eq_some_iff {names : TextSet} {kept : TextSet} :
    nonempty? names = some kept ↔ names = kept ∧ ∃ n, n ∈ names := by
  rw [← TextSet.isEmpty_eq_false_iff, nonempty?]
  cases names.isEmpty <;> simp

/-- Modules with names of their own are listed with them. -/
theorem lists_nonempty (compiled : NameMap ModuleTests) (side : ModuleTests → TextSet) :
    NameMap.Lists (compiled.filterMap fun _ t => nonempty? (side t))
      fun m n => ∃ t : ModuleTests, compiled[m]? = some t ∧ n ∈ side t where
  nonempty m names h := by
    rw [Std.ExtTreeMap.getElem?_filterMap', Option.bind_eq_some_iff] at h
    obtain ⟨t, -, ht⟩ := h
    obtain ⟨rfl, hsome⟩ := nonempty?_eq_some_iff.mp ht
    exact hsome
  iff_related m n := by
    simp only [Std.ExtTreeMap.getElem?_filterMap', Option.bind_eq_some_iff, nonempty?_eq_some_iff]
    constructor
    · rintro ⟨names, ⟨t, ht, rfl, -⟩, hn⟩
      exact ⟨t, ht, hn⟩
    · rintro ⟨t, ht, hn⟩
      exact ⟨side t, ⟨t, ht, rfl, n, hn⟩, hn⟩

/-- Narrowing the tests of modules drops the modules that have none left. -/
theorem map_tests_nonempty (compiled : NameMap ModuleTests) (side : ModuleTests → TextSet) :
    ((compiled.filterMap fun _ t => (nonempty? (side t)).map fun names =>
      { t with tests := names }).map fun _ t => t.tests) =
      compiled.filterMap fun _ t => nonempty? (side t) := by
  apply Std.ExtTreeMap.ext_getElem?
  intro m
  rw [Std.ExtTreeMap.getElem?_map, Std.ExtTreeMap.getElem?_filterMap',
    Std.ExtTreeMap.getElem?_filterMap', Option.map_bind]
  congr 1
  funext t
  simp [Function.comp_def]

/-- Both sides of the tests of modules whose files expose what `exposing` says. -/
structure Splits (compiled : NameMap ModuleTests) (exposing : Path → Exposing)
    (r : Reconciliation) : Prop where
  file : ∀ (m : String) (t : ModuleTests), r.modules[m]? = some t →
    ∃ before : ModuleTests, compiled[m]? = some before ∧ before.file = t.file
  confirmed : NameMap.Lists r.testsByModule fun m n =>
    ∃ t : ModuleTests, compiled[m]? = some t ∧ n ∈ t.tests ∧ (exposing t.file).exposes n = true
  unexposed : NameMap.Lists r.unexposed fun m n =>
    ∃ t : ModuleTests, compiled[m]? = some t ∧ n ∈ t.tests ∧ (exposing t.file).exposes n = false

theorem isEmpty_testsByModule (r : Reconciliation) :
    r.testsByModule.isEmpty = r.modules.isEmpty := by
  rw [Bool.eq_iff_iff, Std.ExtTreeMap.isEmpty_iff, Std.ExtTreeMap.isEmpty_iff, testsByModule,
    Std.ExtTreeMap.map_eq_empty_iff]

/-- The tests of modules, held against what the files of these modules expose. -/
def held (compiled : NameMap ModuleTests) (exposing : Path → Exposing) : Reconciliation where
  modules := compiled.filterMap fun _ t =>
    (nonempty? (confirmedTests t.tests (exposing t.file))).map fun names => { t with tests := names }
  unexposed := compiled.filterMap fun _ t => nonempty? (unexposedTests t.tests (exposing t.file))

/-- Modules whose files were all scanned are reconciled. -/
theorem ofModules_eq_held {compiled : NameMap ModuleTests} {exposed : PathMap Exposing}
    (h : ∀ (m : String) (t : ModuleTests), compiled[m]? = some t → t.file ∈ exposed) :
    ofModules compiled exposed = .ok (held compiled (exposingOf exposed)) := by
  rw [ofModules]
  split
  · next m t hfound =>
    have hmem := Std.ExtTreeMap.mem_toList_iff_getElem?_eq_some.mp (List.mem_of_find?_eq_some hfound)
    have hmissing : exposed.contains t.file = false := by simpa using List.find?_some hfound
    rw [Std.ExtTreeMap.contains_iff_mem.mpr (h m t hmem)] at hmissing
    cases hmissing
  · rfl

section Held

variable (compiled : NameMap ModuleTests) (exposing : Path → Exposing)

theorem testsByModule_held : (held compiled exposing).testsByModule =
    compiled.filterMap fun _ t => nonempty? (confirmedTests t.tests (exposing t.file)) :=
  map_tests_nonempty compiled fun t => confirmedTests t.tests (exposing t.file)

theorem splits_held : Splits compiled exposing (held compiled exposing) where
  file m t ht := by
    rw [held, Std.ExtTreeMap.getElem?_filterMap', Option.bind_eq_some_iff] at ht
    obtain ⟨before, hbefore, hkept⟩ := ht
    obtain ⟨names, -, rfl⟩ := Option.map_eq_some_iff.mp hkept
    exact ⟨before, hbefore, rfl⟩
  confirmed := by
    rw [testsByModule_held]
    exact (lists_nonempty compiled _).congr fun m n => by simp only [mem_confirmedTests]
  unexposed :=
    (lists_nonempty compiled _).congr fun m n => by simp only [mem_unexposedTests]

end Held

theorem ofModules_of_scanned {compiled : NameMap ModuleTests} {exposed : PathMap Exposing}
    (h : ∀ (m : String) (t : ModuleTests), compiled[m]? = some t → t.file ∈ exposed) :
    ∃ r, ofModules compiled exposed = .ok r ∧ Splits compiled (exposingOf exposed) r :=
  ⟨_, ofModules_eq_held h, splits_held compiled (exposingOf exposed)⟩

/-! ## The two sides of each module -/

/-- The two sides of the tests of a module whose file exposes `e`. -/
structure IsSplit (tests : TextSet) (e : Exposing) (confirmed unexposed : TextSet) : Prop where
  mem_confirmed : ∀ n, n ∈ confirmed ↔ n ∈ tests ∧ e.exposes n = true
  mem_unexposed : ∀ n, n ∈ unexposed ↔ n ∈ tests ∧ e.exposes n = false
  disjoint : ∀ n ∈ confirmed, n ∉ unexposed
  cover : ∀ n, n ∈ confirmed ∨ n ∈ unexposed ↔ n ∈ tests
  everything : e = .everything → unexposed = ∅

theorem isSplit_tests (tests : TextSet) (e : Exposing) :
    IsSplit tests e (confirmedTests tests e) (unexposedTests tests e) where
  mem_confirmed n := mem_confirmedTests
  mem_unexposed n := mem_unexposedTests
  disjoint n := by simp +contextual [mem_confirmedTests, mem_unexposedTests]
  cover n := by
    rw [mem_confirmedTests, mem_unexposedTests, ← and_or_left]
    cases e.exposes n <;> simp
  everything h := by
    apply Std.ExtTreeSet.ext_mem
    intro n
    simp [mem_unexposedTests, h]

/-- The confirmed tests of a module, none if it is not listed. -/
def confirmedOf (r : Reconciliation) (m : String) : TextSet := (r.testsByModule[m]?).getD ∅

/-- The unexposed tests of a module, none if it is not reported. -/
def unexposedOf (r : Reconciliation) (m : String) : TextSet := (r.unexposed[m]?).getD ∅

/-- What a reconciliation tells of modules, by what each file exposes. -/
structure Reconciles (compiled : NameMap ModuleTests) (exposed : PathMap Exposing)
    (r : Reconciliation) : Prop where
  /-- The tests of a module are held against its own file. -/
  split : ∀ (m : String) (t : ModuleTests) (e : Exposing), compiled[m]? = some t →
    exposed[t.file]? = some e → IsSplit t.tests e (r.confirmedOf m) (r.unexposedOf m)
  /-- The modules are listed by name. -/
  ascending : (r.modules.toList.map Prod.fst).Pairwise (· < ·)
  /-- A module is listed with its confirmed tests and its file, if it has such tests. -/
  listed : ∀ (m : String) (t : ModuleTests), (m, t) ∈ r.modules.toList ↔
    (∃ n, n ∈ r.confirmedOf m) ∧ t.tests = r.confirmedOf m ∧
      ∃ before : ModuleTests, compiled[m]? = some before ∧ t.file = before.file
  /-- A module is reported with its unexposed tests, if it has such tests. -/
  reported : ∀ (m : String) (names : TextSet), r.unexposed[m]? = some names ↔
    (∃ n, n ∈ r.unexposedOf m) ∧ names = r.unexposedOf m ∧ m ∈ compiled

theorem getD_nonempty? (names : TextSet) : (nonempty? names).getD ∅ = names := by
  rw [nonempty?]
  cases h : names.isEmpty with
  | false => rfl
  | true => exact (Std.ExtTreeSet.isEmpty_iff.mp h).symm

section Sides

variable {compiled : NameMap ModuleTests} {exposing : Path → Exposing} {m : String}
  {t : ModuleTests}

theorem confirmedOf_held (h : compiled[m]? = some t) :
    (held compiled exposing).confirmedOf m = confirmedTests t.tests (exposing t.file) := by
  rw [confirmedOf, testsByModule_held, Std.ExtTreeMap.getElem?_filterMap', h]
  exact getD_nonempty? _

theorem unexposedOf_held (h : compiled[m]? = some t) :
    (held compiled exposing).unexposedOf m = unexposedTests t.tests (exposing t.file) := by
  rw [unexposedOf, held, Std.ExtTreeMap.getElem?_filterMap', h]
  exact getD_nonempty? _

theorem mem_modules_held : (m, t) ∈ (held compiled exposing).modules.toList ↔
    (∃ n, n ∈ (held compiled exposing).confirmedOf m) ∧
      t.tests = (held compiled exposing).confirmedOf m ∧
      ∃ before : ModuleTests, compiled[m]? = some before ∧ t.file = before.file := by
  rw [Std.ExtTreeMap.mem_toList_iff_getElem?_eq_some, held, Std.ExtTreeMap.getElem?_filterMap',
    ← held]
  cases hm : compiled[m]? with
  | none => simp
  | some before =>
    rw [confirmedOf_held hm, Option.bind_some, Option.map_eq_some_iff]
    obtain ⟨file, tests⟩ := t
    simp only [nonempty?_eq_some_iff, ModuleTests.mk.injEq, Option.some.injEq, exists_eq_left']
    constructor
    · intro h
      obtain ⟨names, ⟨rfl, hsome⟩, hfile, hnames⟩ := h
      exact ⟨hsome, hnames.symm, hfile.symm⟩
    · intro h
      obtain ⟨hsome, hnames, hfile⟩ := h
      exact ⟨_, ⟨rfl, hsome⟩, hfile.symm, hnames.symm⟩

theorem getElem?_unexposed_held {names : TextSet} :
    (held compiled exposing).unexposed[m]? = some names ↔
      (∃ n, n ∈ (held compiled exposing).unexposedOf m) ∧
        names = (held compiled exposing).unexposedOf m ∧ m ∈ compiled := by
  rw [Std.ExtTreeMap.mem_iff_isSome_getElem?, held, Std.ExtTreeMap.getElem?_filterMap', ← held]
  cases hm : compiled[m]? with
  | none => simp
  | some t =>
    rw [unexposedOf_held hm, Option.bind_some, nonempty?_eq_some_iff]
    simp only [Option.isSome_some, and_true]
    rw [and_comm, eq_comm]

/-- Where no test is unexposed, the confirmed tests are all tests. -/
theorem testsByModule_held_of_exposed
    (h : ∀ m n, n ∉ (held compiled exposing).unexposedOf m) :
    (held compiled exposing).testsByModule =
      (compiled.map fun _ t => t.tests).filter fun _ tests => !tests.isEmpty := by
  apply Std.ExtTreeMap.ext_getElem?
  intro m
  rw [testsByModule_held, Std.ExtTreeMap.getElem?_filterMap', Std.ExtTreeMap.getElem?_filter',
    Std.ExtTreeMap.getElem?_map]
  cases hm : compiled[m]? with
  | none => rfl
  | some t =>
    have hall : confirmedTests t.tests (exposing t.file) = t.tests := by
      apply Std.ExtTreeSet.ext_mem
      intro n
      have hn := h m n
      rw [unexposedOf_held hm, mem_unexposedTests] at hn
      rw [mem_confirmedTests]
      grind
    rw [Option.bind_some, hall, nonempty?, Option.map_some, Option.filter_some]
    cases t.tests.isEmpty <;> rfl

end Sides

theorem Reconciles.isOk_iff {compiled : NameMap ModuleTests} {exposed : PathMap Exposing}
    {r : Reconciliation} (h : Reconciles compiled exposed r) :
    r.isOk = true ↔ ∀ m n, n ∉ r.unexposedOf m := by
  rw [isOk, Std.ExtTreeMap.isEmpty_iff]
  constructor
  · intro hempty m n
    simp [unexposedOf, hempty]
  · intro hnone
    apply Std.ExtTreeMap.ext_getElem?
    intro m
    cases hm : r.unexposed[m]? with
    | none => simp
    | some names =>
      obtain ⟨⟨n, hn⟩, -⟩ := (h.reported m names).mp hm
      exact absurd hn (hnone m n)

theorem reconciles_held (compiled : NameMap ModuleTests) (exposed : PathMap Exposing) :
    Reconciles compiled exposed (held compiled (exposingOf exposed)) where
  split m t e hm he := by
    have hexposing : exposingOf exposed t.file = e := by
      rw [exposingOf, Std.ExtTreeMap.getD_eq_getD_getElem?, he, Option.getD_some]
    rw [confirmedOf_held hm, unexposedOf_held hm, hexposing]
    exact isSplit_tests t.tests e
  ascending := by
    rw [Std.ExtTreeMap.map_fst_toList_eq_keys]
    exact Std.ExtTreeMap.ordered_keys.imp lt_of_compare
  listed m t := mem_modules_held
  reported m names := getElem?_unexposed_held

theorem require_eq (r : Reconciliation) :
    (require r = .ok r ∧ r.isOk = true) ∨
      (require r = .error (.problem (.unexposedTests r.unexposed)) ∧ ¬r.isOk = true) := by
  rw [require]
  cases r.isOk <;> simp

/-- **Every module is split exactly, and every offender is reported**: the tests of each module are
held against what its own file exposes, the modules with a test on a side are listed on that side,
and unless no test is unexposed the reconciliation is refused for all that are. -/
theorem ofModules_reconciles {compiled : NameMap ModuleTests} {exposed : PathMap Exposing}
    (h : ∀ entry ∈ compiled.toList, entry.2.file ∈ exposed) :
    ∃ r, ofModules compiled exposed = .ok r ∧ Reconciles compiled exposed r ∧
      (∀ fault, ofModules compiled exposed >>= require = .error fault ↔
        (∃ m n, n ∈ r.unexposedOf m) ∧ fault = .problem (.unexposedTests r.unexposed)) ∧
      (∀ kept, ofModules compiled exposed >>= require = .ok kept ↔
        (∀ m n, n ∉ r.unexposedOf m) ∧ kept = r) ∧
      ((∀ m n, n ∉ r.unexposedOf m) → r.testsByModule =
        (compiled.map fun _ t => t.tests).filter fun _ tests => !tests.isEmpty) := by
  have hofModules := ofModules_eq_held fun m t ht =>
    h (m, t) (Std.ExtTreeMap.mem_toList_iff_getElem?_eq_some.mpr ht)
  have hreconciles := reconciles_held compiled exposed
  have hrun : ofModules compiled exposed >>= require =
      require (held compiled (exposingOf exposed)) := by
    rw [hofModules]
    rfl
  refine ⟨_, hofModules, hreconciles, ?_, ?_, testsByModule_held_of_exposed⟩
  · intro fault
    rw [hrun]
    rcases require_eq (held compiled (exposingOf exposed)) with ⟨heq, hok⟩ | ⟨heq, hok⟩
    · rw [hreconciles.isOk_iff] at hok
      simp [heq, hok]
    · rw [hreconciles.isOk_iff] at hok
      simp only [Classical.not_forall, Classical.not_not] at hok
      simp [heq, hok, eq_comm]
  · intro kept
    rw [hrun]
    rcases require_eq (held compiled (exposingOf exposed)) with ⟨heq, hok⟩ | ⟨heq, hok⟩
    · rw [hreconciles.isOk_iff] at hok
      simp [heq, hok, eq_comm]
    · rw [hreconciles.isOk_iff] at hok
      simp [heq, hok]

open CodePoints (ofString)

/-- Two modules in one file, and one in a file of its own. -/
def sharedModules : NameMap ModuleTests :=
  ((∅ : NameMap ModuleTests).insert "A" ⟨⟨.root, ["A.elm"]⟩, TextSet.ofStrings ["a", "b"]⟩).insert
    "B" ⟨⟨.root, ["A.elm"]⟩, TextSet.ofStrings ["b"]⟩ |>.insert
    "C" ⟨⟨.root, ["C.elm"]⟩, TextSet.ofStrings ["b"]⟩

def sharedFiles : PathMap Exposing :=
  ((∅ : PathMap Exposing).insert ⟨.root, ["A.elm"]⟩ (.only (NameSet.ofList ["a"]))).insert
    ⟨.root, ["C.elm"]⟩ .everything

/-- A module may be on both sides. -/
theorem reconciles_sharedModules :
    (∀ entry ∈ sharedModules.toList, entry.2.file ∈ sharedFiles) ∧
      ∃ r, ofModules sharedModules sharedFiles = .ok r ∧ Reconciles sharedModules sharedFiles r ∧
        ofString "a" ∈ r.confirmedOf "A" ∧ ofString "b" ∈ r.unexposedOf "A" ∧
        ofString "b" ∈ r.unexposedOf "B" ∧ ofString "b" ∈ r.confirmedOf "C" ∧
        ofModules sharedModules sharedFiles >>= require =
          .error (.problem (.unexposedTests r.unexposed)) := by
  have hscanned : ∀ entry ∈ sharedModules.toList, entry.2.file ∈ sharedFiles := by decide +kernel
  obtain ⟨r, hr, hreconciles, hfault, -, -⟩ := ofModules_reconciles hscanned
  have hA := hreconciles.split "A" ⟨⟨.root, ["A.elm"]⟩, TextSet.ofStrings ["a", "b"]⟩
    (.only (NameSet.ofList ["a"])) (by decide +kernel) (by decide +kernel)
  have hB := hreconciles.split "B" ⟨⟨.root, ["A.elm"]⟩, TextSet.ofStrings ["b"]⟩
    (.only (NameSet.ofList ["a"])) (by decide +kernel) (by decide +kernel)
  have hC := hreconciles.split "C" ⟨⟨.root, ["C.elm"]⟩, TextSet.ofStrings ["b"]⟩
    .everything (by decide +kernel) (by decide +kernel)
  have hbA : ofString "b" ∈ r.unexposedOf "A" :=
    (hA.mem_unexposed (ofString "b")).mpr ⟨by decide +kernel, by decide +kernel⟩
  refine ⟨hscanned, r, hr, hreconciles, ?_, hbA, ?_, ?_,
    (hfault _).mpr ⟨⟨"A", ofString "b", hbA⟩, rfl⟩⟩
  · exact (hA.mem_confirmed (ofString "a")).mpr ⟨by decide +kernel, by decide +kernel⟩
  · exact (hB.mem_unexposed (ofString "b")).mpr ⟨by decide +kernel, by decide +kernel⟩
  · exact (hC.mem_confirmed (ofString "b")).mpr ⟨by decide +kernel, rfl⟩

end Reconciliation

end ElmSuite
