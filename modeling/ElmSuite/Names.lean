import Std.Data.ExtTreeMap
import Std.Data.ExtTreeSet
import ElmSuite.Path
import ElmSuite.Text.CodePoints

/-!
# Sets and tables in order

Finite sets of names, of texts and of paths and tables keyed by them. They list their
members in ascending order and are equal when they have the same members, so
no answer can depend on the order in which something was found.
-/

namespace ElmSuite

/-- A finite set of names, listed by code point. -/
abbrev NameSet := Std.ExtTreeSet String

/-- A finite set of texts, listed by code point. -/
abbrev TextSet := Std.ExtTreeSet CodePoints

/-- A table keyed by names, listed by code point. -/
abbrev NameMap (β : Type) := Std.ExtTreeMap String β

/-- A finite set of paths, listed part by part. -/
abbrev PathSet := Std.ExtTreeSet Path

/-- A table keyed by paths, listed part by part. -/
abbrev PathMap (β : Type) := Std.ExtTreeMap Path β

namespace NameSet

/-- The set of the names in a list. -/
def ofList (names : List String) : NameSet := Std.ExtTreeSet.ofList names

@[simp] theorem mem_ofList {names : List String} {n : String} : n ∈ ofList names ↔ n ∈ names := by
  simp [ofList, Std.ExtTreeSet.mem_ofList]

/-- Repetition and order of the list do not matter. -/
theorem ofList_eq_iff {a b : List String} : ofList a = ofList b ↔ ∀ n, n ∈ a ↔ n ∈ b := by
  refine ⟨fun h n => ?_, fun h => Std.ExtTreeSet.ext_mem fun n => by simpa using h n⟩
  rw [← mem_ofList, h, mem_ofList]

end NameSet

namespace TextSet

/-- Tables of sets are compared through this one instance. -/
instance : LawfulBEq TextSet := inferInstance

/-- The set of the texts in a list. -/
def ofList (texts : List CodePoints) : TextSet := Std.ExtTreeSet.ofList texts

@[simp] theorem mem_ofList {texts : List CodePoints} {t : CodePoints} :
    t ∈ ofList texts ↔ t ∈ texts := by
  simp [ofList, Std.ExtTreeSet.mem_ofList]

/-- The set of the strings in a list. -/
def ofStrings (strings : List String) : TextSet := ofList (strings.map CodePoints.ofString)

end TextSet

namespace PathSet

/-- The set of the paths in a list. -/
def ofList (paths : List Path) : PathSet := Std.ExtTreeSet.ofList paths

@[simp] theorem mem_ofList {paths : List Path} {p : Path} : p ∈ ofList paths ↔ p ∈ paths := by
  simp [ofList, Std.ExtTreeSet.mem_ofList]

end PathSet

end ElmSuite
