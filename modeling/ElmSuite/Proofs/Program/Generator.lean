import ElmSuite.Program.Generator
import ElmSuite.Proofs.Names
import ElmSuite.Proofs.Program.Plain
import ElmSuite.Proofs.Results

/-!
# When a program is generated

For a table that has modules, each with tests, a program is generated unless an integer has
too many digits to be shown, or a surrogate stands alone in a name or a path.
-/

namespace ElmSuite.Generator

open CodePoints (ofString)

/-- The body of the program for a table of tests. -/
def bodyOf (tests : NameMap TextSet) (o : RunOptions) : CodePoints :=
  Program.body (tests.map fun _ names => names.toList) o

/-- Whether all integers that a program is generated from can be shown. -/
def ShowsIntegers (g : Generator) (o : RunOptions) : Prop :=
  ∀ n ∈ g.integers o, IntegerText.isShown n = true

instance (g : Generator) (o : RunOptions) : Decidable (g.ShowsIntegers o) :=
  inferInstanceAs (Decidable (∀ n ∈ g.integers o, IntegerText.isShown n = true))

/-- Whether the names of all tests and all paths are texts. -/
structure IsPlain (tests : NameMap TextSet) (o : RunOptions) : Prop where
  names : ∀ (m : String) (names : TextSet), tests[m]? = some names → ∀ n ∈ names, n.IsText
  paths : ∀ path ∈ o.paths, path.IsText

theorem isText_bodyOf {tests : NameMap TextSet} {o : RunOptions} :
    (bodyOf tests o).IsText ↔ IsPlain tests o := by
  have hnames : (∀ entry ∈ (tests.map fun _ names => names.toList).toList,
      ∀ n ∈ entry.2, n.IsText) ↔
      ∀ (m : String) (names : TextSet), tests[m]? = some names → ∀ n ∈ names, n.IsText := by
    simp only [Std.ExtTreeMap.toList_map, List.forall_mem_map, Prod.forall,
      Std.ExtTreeMap.mem_toList_iff_getElem?_eq_some, Std.ExtTreeSet.mem_toList]
  rw [bodyOf, Program.isText_body, hnames]
  exact ⟨fun h => ⟨h.1, h.2⟩, fun h => ⟨h.names, h.paths⟩⟩

section Nonempty

variable {g : Generator} {tests : NameMap TextSet} {o : RunOptions}

/-- What generating a program comes to where every module has tests. -/
theorem generate_of_nonempty (hsome : tests.isEmpty = false)
    (htests : ∀ (m : String) (names : TextSet), tests[m]? = some names → ∃ n, n ∈ names) :
    g.generate tests o =
      if ¬(g.integers o).all IntegerText.isShown then .error .longInteger
      else (g.encodedBody (bodyOf tests o)).map g.programOf := by
  have hkeys : (tests.filter fun _ names => names.isEmpty).keys = [] := by
    rw [List.eq_nil_iff_forall_not_mem]
    intro m hm
    rw [Std.ExtTreeMap.mem_keys, Std.ExtTreeMap.mem_iff_isSome_getElem?,
      Std.ExtTreeMap.getElem?_filter', Option.isSome_iff_exists] at hm
    obtain ⟨names, hnames⟩ := hm
    obtain ⟨hm, hempty⟩ := Option.filter_eq_some_iff.mp hnames
    have hfull := TextSet.isEmpty_eq_false_iff.mpr (htests m names hm)
    rw [hfull] at hempty
    exact absurd hempty (by decide)
  rw [generate, if_neg (by rw [hsome]; decide), hkeys, if_neg (by simp)]
  rfl

theorem encodedBody_eq_ok_iff {body : CodePoints} {text : String} :
    g.encodedBody body = .ok text ↔ body = ofString text := by
  rw [encodedBody, mapError_eq_ok_iff, CodePoints.encode_eq_ok_iff]

theorem encodedBody_error {body : CodePoints} (h : ¬body.IsText) :
    ∃ flaw, g.encodedBody body = .error (.unencodable flaw) := by
  obtain ⟨flaw, hflaw⟩ := CodePoints.exists_encode_eq_error_iff.mpr h
  exact ⟨flaw, by rw [encodedBody, hflaw]; rfl⟩

/-- How generating a program ends where every module has tests. -/
inductive Generates (g : Generator) (tests : NameMap TextSet) (o : RunOptions) :
    Except Fault Program → Prop where
  /-- All can be shown and encoded. -/
  | generated {text : String} (hshown : g.ShowsIntegers o) (hplain : IsPlain tests o)
      (htext : bodyOf tests o = ofString text) : Generates g tests o (.ok (g.programOf text))
  /-- An integer is too long to be shown. -/
  | longInteger (hlong : ¬g.ShowsIntegers o) : Generates g tests o (.error .longInteger)
  /-- A surrogate stands alone in a name or a path. -/
  | unencodable {flaw : CodePoints.Flaw} (hshown : g.ShowsIntegers o)
      (hlone : ¬IsPlain tests o) : Generates g tests o (.error (.unencodable flaw))

theorem generates_generate (hsome : tests.isEmpty = false)
    (htests : ∀ (m : String) (names : TextSet), tests[m]? = some names → ∃ n, n ∈ names) :
    Generates g tests o (g.generate tests o) := by
  rw [generate_of_nonempty hsome htests]
  split
  · next hlong => exact .longInteger fun h => hlong (List.all_eq_true.mpr h)
  · next hshown =>
    have hshown : g.ShowsIntegers o := List.all_eq_true.mp (Classical.not_not.mp hshown)
    by_cases htext : (bodyOf tests o).IsText
    · obtain ⟨text, hbody⟩ := CodePoints.isText_iff_exists.mp htext
      rw [encodedBody_eq_ok_iff.mpr hbody]
      exact .generated hshown (isText_bodyOf.mp htext) hbody
    · obtain ⟨flaw, hflaw⟩ := encodedBody_error (g := g) htext
      rw [hflaw]
      exact .unencodable hshown (mt isText_bodyOf.mpr htext)

end Nonempty

/-- A program that is generated is that of the body for its tests, which is a text. -/
theorem eq_programOf_of_generate {g : Generator} {tests : NameMap TextSet} {o : RunOptions}
    {program : Program} (h : g.generate tests o = .ok program) :
    ∃ text, bodyOf tests o = ofString text ∧ program = g.programOf text := by
  rw [generate, ← bodyOf] at h
  split at h
  · cases h
  · dsimp only at h
    split at h
    · cases h
    · split at h
      · cases h
      · cases hbody : g.encodedBody (bodyOf tests o) with
        | error e =>
          rw [hbody] at h
          cases h
        | ok text =>
          rw [hbody] at h
          exact ⟨text, encodedBody_eq_ok_iff.mp hbody, (Except.ok.inj h).symm⟩

end ElmSuite.Generator
