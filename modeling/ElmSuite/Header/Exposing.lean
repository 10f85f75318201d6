import ElmSuite.Names
import ElmSuite.Text.Blank

/-!
# Exposing lists

What a module header exposes: everything, written `..`, or the names in a list.
A list is cut at the commas outside parentheses only, so that an item such as
`Shape(Circle, Square)` stays whole.
-/

namespace ElmSuite

/-- What a module exposes. -/
inductive Exposing where
  | everything
  | only (names : NameSet)
  deriving DecidableEq

namespace Exposing

/-- Whether a name is exposed. -/
def exposes : Exposing → CodePoints → Bool
  | everything, _ => true
  | only names, n => n.text?.any (· ∈ names)

/-- The names listed; none when everything is exposed. -/
def names : Exposing → NameSet
  | everything => ∅
  | only names => names

/-- The depth of parentheses after a character. -/
def depthAfter (depth : Int) (c : Char) : Int :=
  if c = '(' then depth + 1 else if c = ')' then depth - 1 else depth

/-- The pieces of a text between the commas at depth zero, for a text that starts at `depth`. -/
def items (depth : Int) : List Char → List (List Char)
  | [] => [[]]
  | c :: rest =>
    if c = ',' ∧ depth = 0 then [] :: items depth rest
    else match items (depthAfter depth c) rest with
      | [] => [[c]]
      | item :: more => (c :: item) :: more

/-- Reads what stands between the parentheses of an exposing list. -/
def split (content : List Char) : Exposing :=
  if Text.trim content = ['.', '.'] then everything
  else only (NameSet.ofList
    (((items 0 content).map fun item => String.ofList (Text.trim item)).filter (· ≠ "")))

@[simp] theorem exposes_everything (n : CodePoints) : everything.exposes n = true := rfl

@[simp] theorem exposes_only {names : NameSet} {n : CodePoints} :
    (only names).exposes n = true ↔ ∃ s, n.text? = some s ∧ s ∈ names := by
  simp [exposes, Option.any_eq_true]

/-- A text has at least one piece. -/
theorem items_ne_nil (depth : Int) (content : List Char) : items depth content ≠ [] := by
  cases content with
  | nil => simp [items]
  | cons c rest =>
    rw [items]
    split
    · simp
    · split <;> simp

end Exposing

end ElmSuite
