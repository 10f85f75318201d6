/-!
# Texts as code points

A text that comes from an escape in JSON, or from the bytes of an argument, may
hold surrogates that stand alone. Such a text has no encoded form: encoding it
fails at the first surrogates that stand side by side.
-/

namespace ElmSuite

/-- A text as its code points, surrogates allowed. -/
abbrev CodePoints := List Nat

namespace CodePoints

/-- The code points of characters. -/
def ofChars (chars : List Char) : CodePoints := chars.map Char.toNat

/-- The code points of a string. -/
def ofString (s : String) : CodePoints := ofChars s.toList

/-- Whether all code points are characters: no surrogate stands alone. -/
def IsText (codes : CodePoints) : Prop := ∀ n ∈ codes, n.isValidChar

instance (codes : CodePoints) : Decidable codes.IsText :=
  inferInstanceAs (Decidable (∀ n ∈ codes, n.isValidChar))

/-- The string that code points make, if all of them are characters. -/
def text? (codes : CodePoints) : Option String :=
  if codes.IsText then some (String.ofList (codes.map Char.ofNat)) else none

/-- The last four digits of a number in base sixteen. -/
def fourDigits (n : Nat) : List Char :=
  [n / 0x1000, n / 0x100, n / 0x10, n].map fun k => Nat.digitChar (k % 16)

/-- What is shown of a code point: its character, or its number for a surrogate. -/
def shownPoint (n : Nat) : List Char :=
  if n.isValidChar then [Char.ofNat n] else '\\' :: 'u' :: fourDigits n

/-- A text as it is shown in a report. -/
def shown (codes : CodePoints) : String := String.ofList (codes.flatMap shownPoint)

/-- Surrogates that stand alone, side by side in a text that is to be encoded. -/
structure Flaw where
  /-- How many code points stand before them. -/
  position : Nat
  first : Nat
  /-- The surrogates that follow the first one. -/
  more : List Nat
  deriving DecidableEq, Repr

/-- The first surrogates of a text, `position` code points being left behind, that stand in the way of
encoding it. Those that are `escaped` do not. -/
def flawFrom (escaped : Nat → Bool) (position : Nat) : CodePoints → Option Flaw
  | [] => none
  | n :: rest =>
    if n.isValidChar ∨ escaped n then flawFrom escaped (position + 1) rest
    else some ⟨position, n, rest.takeWhile fun k => !decide k.isValidChar⟩

/-- The report on a text that cannot be encoded. -/
def Flaw.message (f : Flaw) : String :=
  let place := match f.more with
    | [] => "character '" ++ shown [f.first] ++ "' in position " ++ toString f.position
    | _ => "characters in position " ++ toString f.position ++ "-" ++
        toString (f.position + f.more.length)
  "'utf-8' codec can't encode " ++ place ++ ": surrogates not allowed"

/-- Encodes a text that stands behind `position` other characters. -/
def encode (position : Nat) (codes : CodePoints) : Except Flaw String :=
  match flawFrom (fun _ => false) position codes with
  | some flaw => .error flaw
  | none => .ok (String.ofList (codes.map Char.ofNat))

end CodePoints

end ElmSuite
