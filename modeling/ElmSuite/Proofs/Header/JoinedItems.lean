import ElmSuite.Proofs.Header.ExposingList
import ElmSuite.Proofs.Text.Trim

/-!
# Joining items and cutting them apart

Items that close the parentheses they open and have their commas in parentheses are what the
list that they are joined to is cut into, with whatever blank characters they hold. So what a
list exposes is told by its items but not by their order, and their repetition is seen in one
case only: the item `..` stands for everything where it is alone, and for itself where it is
repeated.
-/

namespace ElmSuite.Exposing

open Parentheses

variable {pieces others : List (List Char)}

/-- Pieces with commas between them. -/
def joined (pieces : List (List Char)) : List Char := [','].intercalate pieces

/-- Whether a text stands for everything. -/
def IsDots (s : List Char) : Prop := Text.trim s = ['.', '.']

instance (s : List Char) : Decidable (IsDots s) := inferInstanceAs (Decidable (_ = _))

/-- A piece is a text that is not cut. -/
theorem isPiece_iff {depth : Int} {s : List Char} :
    IsPiece depth s ↔ Settles depth s ∧ items depth s = [s] := by
  constructor
  · intro h
    have hwhole := items_append h.commas [] (show items (depth + net s) [] = [[]] from rfl)
    exact ⟨h.settles, by simpa using hwhole⟩
  · rintro ⟨hsettles, hitems⟩
    exact (isPiece_of_items hsettles hitems).1

instance (depth : Int) (s : List Char) : Decidable (IsPiece depth s) :=
  decidable_of_iff _ isPiece_iff.symm

/-- The names that pieces stand for in a list: what is left of them when they are trimmed. -/
theorem mem_trimmed {n : String} :
    n ∈ (pieces.map fun p => String.ofList (Text.trim p)).filter (· ≠ "") ↔
      n ≠ "" ∧ ∃ p ∈ pieces, Text.trim p = n.toList := by
  have hname (p : List Char) : String.ofList (Text.trim p) = n ↔ Text.trim p = n.toList := by
    rw [← String.toList_inj, String.toList_ofList]
  simp only [List.mem_filter, List.mem_map, decide_eq_true_eq, hname]
  exact and_comm

/-- Pieces stand for everything only where there is one of them. -/
theorem isDots_joined_iff : IsDots (joined pieces) ↔ ∃ p, pieces = [p] ∧ IsDots p := by
  match pieces with
  | [] => exact ⟨fun h => absurd h (by decide), nofun⟩
  | [p] => simp [joined]
  | p :: next :: rest =>
    refine ⟨fun h => ?_, nofun⟩
    have hcomma : ',' ∈ joined (p :: next :: rest) := by simp [joined, List.intercalate_cons_cons]
    have hmem := Text.mem_trim hcomma (by decide)
    rw [h] at hmem
    exact absurd hmem (by decide)

section Pieces

variable (h : ∀ p ∈ pieces, IsPiece 0 p)

include h

/-- Joined pieces are cut apart again. -/
theorem items_joined (hne : pieces ≠ []) : items 0 (joined pieces) = pieces := by
  refine items_intercalate hne (fun p hp => ?_) fun p hp before after heq => ?_
  · simpa using (h p hp).settles.settled
  · simpa using (h p hp).commas before after heq

theorem split_joined_of_not_isDots (hdots : ¬IsDots (joined pieces)) :
    split (joined pieces) =
      only (NameSet.ofList ((pieces.map fun p => String.ofList (Text.trim p)).filter (· ≠ ""))) := by
  by_cases hne : pieces = []
  · subst hne
    rfl
  · rw [split, items_joined h hne]
    exact if_neg hdots

end Pieces

theorem split_of_isDots {s : List Char} (h : IsDots s) : split s = everything := if_pos h

/-- Lists of the same pieces are told apart only if one of them stands for everything. -/
theorem split_joined_eq_iff (h : ∀ p ∈ pieces, IsPiece 0 p)
    (hsame : ∀ p, p ∈ others ↔ p ∈ pieces) :
    split (joined others) = split (joined pieces) ↔
      (IsDots (joined others) ↔ IsDots (joined pieces)) := by
  have hothers : ∀ p ∈ others, IsPiece 0 p := fun p hp => h p ((hsame p).mp hp)
  by_cases hleft : IsDots (joined others) <;> by_cases hright : IsDots (joined pieces)
  · simp only [split_of_isDots hleft, split_of_isDots hright, hleft, hright]
  · simp only [split_of_isDots hleft, split_joined_of_not_isDots h hright, hleft, hright,
      reduceCtorEq, true_iff]
  · simp only [split_joined_of_not_isDots hothers hleft, split_of_isDots hright, hleft, hright,
      reduceCtorEq, false_iff, not_true_eq_false]
  · rw [split_joined_of_not_isDots hothers hleft, split_joined_of_not_isDots h hright]
    have hnames : NameSet.ofList
          ((others.map fun p => String.ofList (Text.trim p)).filter (· ≠ "")) =
        NameSet.ofList ((pieces.map fun p => String.ofList (Text.trim p)).filter (· ≠ "")) := by
      refine NameSet.ofList_eq_iff.mpr fun n => ?_
      simp only [mem_trimmed, hsame]
    simp only [hnames, hleft, hright]

/-- The order of pieces does not tell whether they stand for everything. -/
theorem isDots_joined_of_perm (h : others.Perm pieces) :
    IsDots (joined others) ↔ IsDots (joined pieces) := by
  have hone (p : List Char) : others = [p] ↔ pieces = [p] :=
    ⟨fun ho => List.perm_singleton.mp (ho ▸ h.symm), fun hp => List.perm_singleton.mp (hp ▸ h)⟩
  simp only [isDots_joined_iff, hone]

/-- **Cutting undoes joining.** Pieces that are joined by commas are cut apart into just these
pieces, no comma in parentheses being a cut. They expose everything if the text that they are
joined to is `..` when trimmed, which takes a single piece, and otherwise the names that they
are when they are trimmed, the empty one left out. In another order they expose the same, and
with other repetitions too, unless they are a `..` that is repeated in one list and stands
alone in the other. -/
theorem split_joined (h : ∀ p ∈ pieces, IsPiece 0 p) :
    (pieces ≠ [] → items 0 (joined pieces) = pieces) ∧
    (IsDots (joined pieces) → split (joined pieces) = everything) ∧
    (¬IsDots (joined pieces) → ∃ names, split (joined pieces) = only names ∧
      ∀ n, n ∈ names ↔ n ≠ "" ∧ ∃ p ∈ pieces, Text.trim p = n.toList) ∧
    (IsDots (joined pieces) ↔ ∃ p, pieces = [p] ∧ IsDots p) ∧
    (∀ others, others.Perm pieces → split (joined others) = split (joined pieces)) ∧
    ∀ others, (∀ p, p ∈ others ↔ p ∈ pieces) →
      (split (joined others) = split (joined pieces) ↔
        (IsDots (joined others) ↔ IsDots (joined pieces))) := by
  refine ⟨items_joined h, split_of_isDots, fun hdots => ?_, isDots_joined_iff, ?_, ?_⟩
  · exact ⟨_, split_joined_of_not_isDots h hdots, fun n => by rw [NameSet.mem_ofList, mem_trimmed]⟩
  · intro others hperm
    exact (split_joined_eq_iff h fun p => hperm.mem_iff).mpr (isDots_joined_of_perm hperm)
  · exact fun others => split_joined_eq_iff h

/-- Pieces with blank characters around and in them; some are empty, and one is repeated. -/
def raggedPieces : List (List Char) :=
  ["\tShape( Circle, Wrap (A, (B,C)) ) ", "", " ", "b", " .. ", "b\n"].map String.toList

theorem split_joined_ragged :
    (∀ p ∈ raggedPieces, IsPiece 0 p) ∧
    (∃ names, split (joined raggedPieces) = only names ∧
      ∀ n, n ∈ names ↔ n ≠ "" ∧ ∃ p ∈ raggedPieces, Text.trim p = n.toList) ∧
    split (joined raggedPieces.reverse) = split (joined raggedPieces) ∧
    split (joined raggedPieces.eraseDups) = split (joined raggedPieces) := by
  have hpieces : ∀ p ∈ raggedPieces, IsPiece 0 p := by decide +kernel
  obtain ⟨-, -, hnames, hdots, hperm, hsame⟩ := split_joined hpieces
  have hnot : ¬IsDots (joined raggedPieces) := by decide +kernel
  have hnot' : ¬IsDots (joined raggedPieces.eraseDups) := by decide +kernel
  exact ⟨hpieces, hnames hnot, hperm _ (List.reverse_perm _),
    (hsame _ fun p => List.mem_eraseDups).mpr (iff_of_false hnot' hnot)⟩

example : split (joined raggedPieces) =
    only (NameSet.ofList ["Shape( Circle, Wrap (A, (B,C)) )", "b", ".."]) := by
  decide +kernel

/-- Repeating an item is seen where it is a single `..`. -/
theorem split_joined_repeatedDots :
    IsPiece 0 ['.', '.'] ∧ split (joined [['.', '.']]) = everything ∧
    split (joined [['.', '.'], ['.', '.']]) = only (NameSet.ofList [".."]) ∧
    split (joined [['.', '.'], ['.', '.']]) ≠ split (joined [['.', '.']]) := by
  decide +kernel

end ElmSuite.Exposing
