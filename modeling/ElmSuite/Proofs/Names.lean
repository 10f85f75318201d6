import ElmSuite.Names

/-!
# Members of sets and tables

Tables whose values are sets list each name that is related to a key under the
key, and no key without such names.
-/

namespace ElmSuite

/-- The order of names is the one of their code points. -/
theorem lt_of_compare {a b : String} (h : compare a b = .lt) : a < b := by
  by_cases hlt : a < b
  · exact hlt
  · have hcompare : compare a b = if a < b then .lt else if a = b then .eq else .gt := rfl
    rw [hcompare, if_neg hlt] at h
    split at h
    · cases h
    · cases h

namespace NameSet

theorem toList_ascending (names : NameSet) : names.toList.Pairwise (· < ·) :=
  Std.ExtTreeSet.ordered_toList.imp lt_of_compare

end NameSet

namespace TextSet

theorem isEmpty_eq_false_iff {names : TextSet} : names.isEmpty = false ↔ ∃ n, n ∈ names := by
  constructor
  · intro h
    have hne : names.toList ≠ [] := by
      intro hnil
      have hempty := Std.ExtTreeSet.isEmpty_toList (t := names)
      rw [hnil, h] at hempty
      exact absurd hempty (by decide)
    obtain ⟨n, hn⟩ := List.exists_mem_of_ne_nil _ hne
    exact ⟨n, Std.ExtTreeSet.mem_toList.mp hn⟩
  · rintro ⟨n, hn⟩
    rw [Std.ExtTreeSet.isEmpty_eq_false_iff]
    rintro rfl
    exact Std.ExtTreeSet.not_mem_empty hn

end TextSet

namespace NameMap

theorem getElem?_set {β : Type} (table : NameMap β) (name m : String) (value : β) :
    (table.insert name value)[m]? = if name = m then some value else table[m]? := by
  simp only [Std.ExtTreeMap.getElem?_insert, Std.LawfulEqCmp.compare_eq_iff_eq]

theorem getElem?_without {β : Type} (table : NameMap β) (name m : String) :
    (table.erase name)[m]? = if name = m then none else table[m]? := by
  simp only [Std.ExtTreeMap.getElem?_erase, Std.LawfulEqCmp.compare_eq_iff_eq]

/-- The table lists under each key the names that are related to it, and keys with such names
only. -/
structure Lists (table : NameMap TextSet) (related : String → CodePoints → Prop) : Prop where
  nonempty : ∀ (m : String) (names : TextSet), table[m]? = some names → ∃ n, n ∈ names
  iff_related : ∀ (m : String) (n : CodePoints),
    (∃ names : TextSet, table[m]? = some names ∧ n ∈ names) ↔ related m n

theorem Lists.congr {table : NameMap TextSet} {r s : String → CodePoints → Prop} (h : Lists table r)
    (hrs : ∀ m n, r m n ↔ s m n) : Lists table s :=
  ⟨h.nonempty, fun m n => (h.iff_related m n).trans (hrs m n)⟩

/-- A relation is listed in one way only. -/
theorem Lists.unique {a b : NameMap TextSet} {related : String → CodePoints → Prop} (ha : Lists a related)
    (hb : Lists b related) : a = b := by
  have hsame : ∀ (m : String) (n : CodePoints), (∃ names : TextSet, a[m]? = some names ∧ n ∈ names) ↔
      ∃ names : TextSet, b[m]? = some names ∧ n ∈ names := fun m n =>
    (ha.iff_related m n).trans (hb.iff_related m n).symm
  apply Std.ExtTreeMap.ext_getElem?
  intro m
  cases hma : a[m]? with
  | none =>
    cases hmb : b[m]? with
    | none => rfl
    | some names =>
      obtain ⟨n, hn⟩ := hb.nonempty m names hmb
      obtain ⟨_, hsome, -⟩ := (hsame m n).mpr ⟨names, hmb, hn⟩
      rw [hma] at hsome
      cases hsome
  | some names =>
    obtain ⟨n, hn⟩ := ha.nonempty m names hma
    obtain ⟨others, hmb, -⟩ := (hsame m n).mp ⟨names, hma, hn⟩
    rw [hmb]
    congr 1
    apply Std.ExtTreeSet.ext_mem
    intro k
    have hk := hsame m k
    rw [hma, hmb] at hk
    simpa using hk

theorem Lists.isEmpty_iff {table : NameMap TextSet} {related : String → CodePoints → Prop}
    (h : Lists table related) : table.isEmpty = true ↔ ∀ m n, ¬related m n := by
  rw [Std.ExtTreeMap.isEmpty_iff]
  constructor
  · rintro rfl m n hmn
    obtain ⟨names, hnames, -⟩ := (h.iff_related m n).mpr hmn
    simp at hnames
  · intro hnone
    apply Std.ExtTreeMap.ext_getElem?
    intro m
    cases hm : table[m]? with
    | none => simp
    | some names =>
      obtain ⟨n, hn⟩ := h.nonempty m names hm
      exact absurd ((h.iff_related m n).mp ⟨names, hm, hn⟩) (hnone m n)

theorem Lists.exists_of_isEmpty_eq_false {table : NameMap TextSet}
    {related : String → CodePoints → Prop} (h : Lists table related) (hsome : table.isEmpty = false) :
    ∃ m n, related m n := by
  apply Classical.byContradiction
  intro hnone
  have hempty := h.isEmpty_iff.mpr fun m n hmn => hnone ⟨m, n, hmn⟩
  rw [hsome] at hempty
  cases hempty

end NameMap

end ElmSuite
