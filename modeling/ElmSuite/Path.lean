/-!
# Paths

A path is an anchor and a list of names. Reading a path drops empty names and
the name `.`, keeps `..`, and tells a root written with exactly two slashes
from one written with any other number. Nothing here looks at a file system.

Paths are ordered part by part, the root counting as the first part, so that
`a/b` comes before `a-b`.
-/

namespace ElmSuite

/-- Where a path starts. -/
inductive Anchor where
  /-- At the directory it is read in. -/
  | here
  /-- At the root. -/
  | root
  /-- At the root written with exactly two slashes. -/
  | doubleRoot
  deriving DecidableEq, Repr, Ord

/-- A path as an anchor and the names below it. -/
structure Path where
  anchor : Anchor
  names : List String
  deriving DecidableEq, Repr

namespace Anchor

/-- The anchor as it is written before the names. -/
def text : Anchor → String
  | here => ""
  | root => "/"
  | doubleRoot => "//"

/-- The anchor as the first parts of a path. -/
def parts (a : Anchor) : List String := if a = here then [] else [a.text]

instance : Std.TransOrd Anchor where
  eq_swap {a b} := by cases a <;> cases b <;> rfl
  isLE_trans {a b c} := by cases a <;> cases b <;> cases c <;> decide

instance : Std.LawfulEqOrd Anchor where
  compare_self {a} := by cases a <;> rfl
  eq_of_compare {a b} := by cases a <;> cases b <;> decide

end Anchor

/-- The pieces of a text between the places where `sep` stands. -/
def splitAt {α : Type} [DecidableEq α] (sep : α) : List α → List (List α)
  | [] => [[]]
  | c :: rest =>
    if c = sep then [] :: splitAt sep rest
    else match splitAt sep rest with
      | [] => [[c]]
      | piece :: pieces => (c :: piece) :: pieces

/-- The pieces of a string between the places where `sep` stands. -/
def splitString (sep : Char) (s : String) : List String :=
  (splitAt sep s.toList).map String.ofList

namespace Path

/-- The parts of a path: its root, if it has one, and its names. -/
def parts (p : Path) : List String := p.anchor.parts ++ p.names

/-- Part by part, the anchor deciding between paths that have the same parts. -/
instance : Ord Path :=
  ⟨compareLex (compareOn parts) (compareLex (compareOn anchor) (compareOn names))⟩

instance : Std.TransOrd Path :=
  inferInstanceAs (Std.TransCmp
    (compareLex (compareOn parts) (compareLex (compareOn anchor) (compareOn names))))

instance : Std.LawfulEqOrd Path where
  compare_self {p} := by
    change compareLex (compareOn parts) (compareLex (compareOn anchor) (compareOn names)) p p = .eq
    simp [compareLex, compareOn]
  eq_of_compare {p q} h := by
    have h : compareLex (compareOn parts) (compareLex (compareOn anchor) (compareOn names)) p q
        = .eq := h
    simp only [compareLex, compareOn, Ordering.then_eq_eq, Std.LawfulEqOrd.compare_eq_iff_eq] at h
    cases p; cases q; simp_all

/-- The names in a text: its pieces between slashes but for empty ones and `.`. -/
def namesOf (s : String) : List String :=
  (splitString '/' s).filter fun n => n ≠ "" ∧ n ≠ "."

/-- The anchor a text starts with. -/
def anchorOf (s : String) : Anchor :=
  match s.toList with
  | '/' :: '/' :: '/' :: _ => .root
  | '/' :: '/' :: _ => .doubleRoot
  | '/' :: _ => .root
  | _ => .here

/-- Reads a path. -/
def ofString (s : String) : Path := ⟨anchorOf s, namesOf s⟩

/-- Writes a path; the path of no names at the current directory is `.`. -/
protected def toString (p : Path) : String :=
  if p.anchor = .here ∧ p.names = [] then "."
  else p.anchor.text ++ String.intercalate "/" p.names

instance : ToString Path := ⟨Path.toString⟩

/-- Whether a path starts at a root. -/
def isAbsolute (p : Path) : Bool := p.anchor ≠ .here

/-- The path `q` read from `p`; an absolute `q` stands for itself. -/
def join (p q : Path) : Path := if q.isAbsolute then q else ⟨p.anchor, p.names ++ q.names⟩

/-- A path given as text, read from `p`. -/
def joinText (p : Path) (s : String) : Path := p.join (ofString s)

/-- The path of one name more. -/
def child (p : Path) (name : String) : Path := ⟨p.anchor, p.names ++ [name]⟩

/-- The path without its last name; a path of no names is its own parent. -/
def parent (p : Path) : Path := ⟨p.anchor, p.names.dropLast⟩

/-- The proper ancestors of a path, the nearest first. -/
def parents (p : Path) : List Path :=
  (List.range p.names.length).reverse.map fun n => ⟨p.anchor, p.names.take n⟩

/-- The last name of a path. -/
def name? (p : Path) : Option String := p.names.getLast?

/-- The names that lead from `base` down to `p`, when `base` is `p` or an ancestor of it. -/
def relativeTo? (p base : Path) : Option (List String) :=
  if p.anchor = base.anchor ∧ base.names.isPrefixOf p.names then
    some (p.names.drop base.names.length)
  else none

/-- A name cut before its last dot, when the dot is neither its first nor its last character. -/
def stem (name : String) : String :=
  let reversed := name.toList.reverse
  let suffix := reversed.takeWhile (· ≠ '.')
  let front := (reversed.drop (suffix.length + 1)).reverse
  if suffix.isEmpty || front.isEmpty then name else String.ofList front

/-- The ancestors of a path are its names cut short. -/
theorem mem_parents {p q : Path} :
    q ∈ p.parents ↔ q.anchor = p.anchor ∧ ∃ n, n < p.names.length ∧ q.names = p.names.take n := by
  cases q
  simp only [parents, List.mem_map, List.mem_reverse, List.mem_range, Path.mk.injEq]
  constructor
  · rintro ⟨n, hn, ha, hq⟩
    exact ⟨ha.symm, n, hn, hq.symm⟩
  · rintro ⟨ha, n, hn, hq⟩
    exact ⟨n, hn, ha.symm, hq.symm⟩

end Path

end ElmSuite
