import Mathlib.Logic.Relation
import ElmSuite.Proofs.InterfaceDump

/-!
# Records that report the same tests

What is collected from records is told by the tests that they report for the modules of a
table. Records may therefore come in any order and more than once, a module may have any
number of them, and what is said of other types and of other modules does not matter.

## Main definitions

* `Rearranges table testType` relates records to those that one change makes of them. The
  equivalence that it generates allows the changes to be taken back, in any number.
* `collect_exact` says what is collected, and that rearranging records does not touch it.
-/

namespace ElmSuite.InterfaceDump

/-- A change of records after which the same tests are reported for the modules of a table. -/
inductive Rearranges (table : NameMap Path) (testType : String) :
    List ModuleRecord → List ModuleRecord → Prop
  /-- The records come in another order. -/
  | permuted {records others : List ModuleRecord} (h : records.Perm others) :
      Rearranges table testType records others
  /-- A record comes once more. -/
  | repeated {records : List ModuleRecord} {r : ModuleRecord} (h : r ∈ records) :
      Rearranges table testType records (r :: records)
  /-- A record is split in two, each with a part of its declarations. -/
  | split (m : CodePoints) (first second : List Declaration) (rest : List ModuleRecord) :
      Rearranges table testType (⟨m, first ++ second⟩ :: rest) (⟨m, first⟩ :: ⟨m, second⟩ :: rest)
  /-- A value of another type is declared. -/
  | declared (m : CodePoints) (first second : List Declaration) {d : Declaration}
      (h : d.signature ≠ .ofString testType) (rest : List ModuleRecord) :
      Rearranges table testType (⟨m, first ++ second⟩ :: rest) (⟨m, first ++ d :: second⟩ :: rest)
  /-- A record of a module outside of the table is added. -/
  | outside {r : ModuleRecord} (h : ∀ m ∈ table, r.moduleName ≠ .ofString m)
      (records : List ModuleRecord) :
      Rearranges table testType records (r :: records)

section Reports

variable {testType m : String} {n : CodePoints}

theorem reports_cons {r : ModuleRecord} {records : List ModuleRecord} :
    Reports testType (r :: records) m n ↔
      (r.moduleName = .ofString m ∧ ⟨n, .ofString testType⟩ ∈ r.declarations) ∨
        Reports testType records m n := by
  simp [Reports]

/-- A module of the table reports a test exactly if it declares a value of the type. -/
theorem exists_reports_iff {records : List ModuleRecord} :
    (∃ n, Reports testType records m n) ↔
      ∃ r ∈ records, r.moduleName = .ofString m ∧
        ∃ d ∈ r.declarations, d.signature = .ofString testType := by
  constructor
  · intro h
    obtain ⟨n, r, hr, hm, hd⟩ := h
    exact ⟨r, hr, hm, ⟨n, .ofString testType⟩, hd, rfl⟩
  · intro h
    obtain ⟨r, hr, hm, ⟨n, signature⟩, hd, hsignature⟩ := h
    rw [show signature = .ofString testType from hsignature] at hd
    exact ⟨n, r, hr, hm, hd⟩

end Reports

section Rearranges

variable {table : NameMap Path} {testType : String} {records others : List ModuleRecord}

/-- One change keeps the tests that are reported for the modules of the table. -/
theorem Rearranges.isTest_iff (h : Rearranges table testType records others) (m : String)
    (n : CodePoints) :
    IsTest table testType records m n ↔ IsTest table testType others m n := by
  refine and_congr_right fun hm => ?_
  cases h with
  | permuted h => simp only [Reports, h.mem_iff]
  | @repeated _ r h =>
    rw [reports_cons]
    constructor
    · exact .inr
    · intro hreports
      exact hreports.elim (fun hr => ⟨r, h, hr⟩) id
  | split k first second rest =>
    simp only [reports_cons, List.mem_append, and_or_left, or_assoc]
  | @declared k first second d h rest =>
    have hne : (⟨n, .ofString testType⟩ : Declaration) ≠ d := by
      rintro rfl
      exact h rfl
    simp only [reports_cons, List.mem_append, List.mem_cons, hne, false_or]
  | @outside r h =>
    have hne : r.moduleName ≠ .ofString m := h m hm
    simp only [reports_cons, hne, false_and, false_or]

/-- Changes in any number, and the ways back, keep what is collected. -/
theorem collect_eq_of_rearranges (h : Relation.EqvGen (Rearranges table testType) records others) :
    collect table testType records = collect table testType others := by
  induction h with
  | rel records others h =>
    exact (collected_collect table testType records).eq_of_isTest
      (collected_collect table testType others) h.isTest_iff
  | refl records => rfl
  | symm records others _ ih => exact ih.symm
  | trans records others more _ _ ih ih' => exact ih.trans ih'

theorem mem_collect_iff {m : String} : m ∈ collect table testType records ↔
    m ∈ table ∧ ∃ n, Reports testType records m n := by
  have hcollected := collected_collect table testType records
  rw [Std.ExtTreeMap.mem_iff_isSome_getElem?, Option.isSome_iff_exists]
  constructor
  · intro h
    obtain ⟨t, ht⟩ := h
    obtain ⟨-, ⟨n, hn⟩, htests⟩ := hcollected.getElem?_eq_some_iff.mp ht
    exact ⟨((htests n).mp hn).1, n, ((htests n).mp hn).2⟩
  · intro h
    obtain ⟨hm, n, hreports⟩ := h
    obtain ⟨t, ht, -⟩ := exists_of_mem_testsUnder ((hcollected.tests m n).mpr ⟨hm, hreports⟩)
    exact ⟨t, ht⟩

end Rearranges

/-- **Exactly the tests that records report for modules of a table are collected**: under each
module with such tests, with the file of the module, the names of all of them. It does not matter
how the records are arranged. -/
theorem collect_exact (table : NameMap Path) (testType : String) (records : List ModuleRecord) :
    (∀ m, m ∈ collect table testType records ↔ m ∈ table ∧
      ∃ r ∈ records, r.moduleName = .ofString m ∧
        ∃ d ∈ r.declarations, d.signature = .ofString testType) ∧
    (∀ (m : String) (t : ModuleTests), (collect table testType records)[m]? = some t →
      table[m]? = some t.file ∧ ∀ n, n ∈ t.tests ↔
        ∃ r ∈ records, r.moduleName = .ofString m ∧
          (⟨n, .ofString testType⟩ : Declaration) ∈ r.declarations) ∧
    ∀ others, Relation.EqvGen (Rearranges table testType) records others →
      collect table testType records = collect table testType others := by
  refine ⟨?_, ?_, fun others => collect_eq_of_rearranges⟩
  · intro m
    rw [mem_collect_iff, exists_reports_iff]
  · intro m t ht
    obtain ⟨hfile, -, htests⟩ :=
      (collected_collect table testType records).getElem?_eq_some_iff.mp ht
    have hm : m ∈ table := by
      rw [Std.ExtTreeMap.mem_iff_isSome_getElem?, hfile]
      rfl
    refine ⟨hfile, ?_⟩
    intro n
    rw [htests, IsTest, and_iff_right hm, Reports]

end ElmSuite.InterfaceDump
