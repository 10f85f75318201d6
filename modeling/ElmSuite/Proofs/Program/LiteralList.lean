import Mathlib.Data.List.Forall2
import ElmSuite.Proofs.Program.Literal
import ElmSuite.Proofs.Program.Plain

/-!
# Lists of literals

Literals in brackets, with a comma between neighbours. Where each of them ends is seen from
itself, and what follows tells whether the list goes on, so that no text is a list of two
different rows of strings.
-/

namespace ElmSuite.Program

open Literal (IsLiteralOf)

/-- Whether a text is a list of literals of some strings, in brackets. -/
def IsListOf (text : List Char) (strings : List String) : Prop :=
  ∃ literals, text = '[' :: (joinWith [',', ' '] literals ++ [']']) ∧
    List.Forall₂ IsLiteralOf literals strings

theorem forall₂_literal (strings : List String) :
    List.Forall₂ IsLiteralOf (strings.map Literal.literal) strings := by
  rw [List.forall₂_map_left_iff, List.forall₂_same]
  exact fun s _ => Literal.isLiteralOf_literal s

/-- A list starts with its first text, and what follows tells whether it goes on. -/
theorem joinWith_cons (text : List Char) (texts : List (List Char)) (s : List Char) :
    ∃ rest, joinWith [',', ' '] (text :: texts) ++ ']' :: s = text ++ rest ∧
      ((texts = [] ∧ rest = ']' :: s) ∨
        rest = ',' :: ' ' :: (joinWith [',', ' '] texts ++ ']' :: s)) := by
  cases texts with
  | nil => exact ⟨_, by rw [joinWith, List.intercalate_singleton], .inl ⟨rfl, rfl⟩⟩
  | cons next texts =>
    refine ⟨_, ?_, .inr rfl⟩
    rw [joinWith, List.intercalate_cons_cons, List.append_assoc, List.append_assoc]
    rfl

/-- A list that is not empty starts with a quote. -/
theorem head?_joinWith_cons {text : List Char} {string : String} (h : IsLiteralOf text string)
    (texts : List (List Char)) (s : List Char) :
    (joinWith [',', ' '] (text :: texts) ++ ']' :: s).head? = some '"' := by
  obtain ⟨rest, hrest, -⟩ := joinWith_cons text texts s
  obtain ⟨inside, rfl, -⟩ := h
  rw [hrest]
  rfl

/-- Where a list of literals ends and what it stands for is seen from the list. -/
theorem literals_append_inj {xs ys : List (List Char)} {ss ts : List String} {a b : List Char}
    (hx : List.Forall₂ IsLiteralOf xs ss) (hy : List.Forall₂ IsLiteralOf ys ts)
    (h : joinWith [',', ' '] xs ++ ']' :: a = joinWith [',', ' '] ys ++ ']' :: b) :
    ss = ts ∧ a = b := by
  induction hx generalizing ys ts with
  | nil =>
    cases hy with
    | nil => exact ⟨rfl, (List.cons.inj h).2⟩
    | cons hy _ =>
      have hhead := (congrArg List.head? h).trans (head?_joinWith_cons hy _ b)
      exact absurd (Option.some.inj hhead) (by decide)
  | @cons x s xs ss hx hxs ih =>
    cases hy with
    | nil =>
      have hhead := (congrArg List.head? h).symm.trans (head?_joinWith_cons hx xs a)
      exact absurd (Option.some.inj hhead) (by decide)
    | @cons y t ys ts hy hys =>
      obtain ⟨left, hleftText, hleft⟩ := joinWith_cons x xs a
      obtain ⟨right, hrightText, hright⟩ := joinWith_cons y ys b
      rw [hleftText, hrightText] at h
      obtain ⟨rfl, hrest⟩ := hx.append_inj hy h
      -- Either both lists end behind the literal, or both go on with a comma.
      rcases hleft with ⟨rfl, rfl⟩ | rfl <;> rcases hright with ⟨rfl, rfl⟩ | rfl
      · cases hxs
        cases hys
        exact ⟨rfl, (List.cons.inj hrest).2⟩
      · exact absurd (List.cons.inj hrest).1 (by decide)
      · exact absurd (List.cons.inj hrest).1 (by decide)
      · obtain ⟨rfl, hend⟩ := ih hys (List.cons.inj (List.cons.inj hrest).2).2
        exact ⟨rfl, hend⟩

/-- The list of some literals is that of no other strings. -/
theorem isListOf_literalList_iff {ss ts : List String} :
    IsListOf (literalList ss) ts ↔ ts = ss := by
  constructor
  · rintro ⟨ys, htext, hys⟩
    exact (literals_append_inj (forall₂_literal ss) hys (List.cons.inj htext).2).1.symm
  · rintro rfl
    exact ⟨_, rfl, forall₂_literal ts⟩

end ElmSuite.Program
