/-!
# Blank characters

The characters that count as blank, and the trimming of text that goes with
them. The class is the Unicode white space together with the four information
separators `U+001C` to `U+001F`; the zero-width characters are not in it.
-/

namespace ElmSuite.Text

/-- The ranges of blank code points, both ends included. -/
def blankRanges : List (Nat × Nat) :=
  [(0x09, 0x0D), (0x1C, 0x20), (0x85, 0x85), (0xA0, 0xA0), (0x1680, 0x1680), (0x2000, 0x200A),
    (0x2028, 0x2029), (0x202F, 0x202F), (0x205F, 0x205F), (0x3000, 0x3000)]

/-- Whether a code point lies in one of the ranges of a table. -/
def inRanges (table : List (Nat × Nat)) (n : Nat) : Bool :=
  table.any fun (lo, hi) => lo ≤ n && n ≤ hi

/-- Whether a character is blank. -/
def isBlank (c : Char) : Bool := inRanges blankRanges c.toNat

theorem isBlank_of_isWhitespace {c : Char} (h : c.isWhitespace = true) : isBlank c = true := by
  simp only [Char.isWhitespace, Bool.or_eq_true, decide_eq_true_eq] at h
  rcases h with ((rfl | rfl) | rfl) | rfl <;> decide

/-- Drops the blank characters at the start. -/
def trimLeft (s : List Char) : List Char := s.dropWhile isBlank

/-- Drops the blank characters at the end. -/
def trimRight (s : List Char) : List Char := (s.reverse.dropWhile isBlank).reverse

/-- Drops the blank characters at both ends. -/
def trim (s : List Char) : List Char := trimRight (trimLeft s)

/-- Whether a text holds blank characters only. -/
def allBlank (s : List Char) : Bool := s.all isBlank

/-- The text of a string without the blank characters at its ends. -/
def trimString (s : String) : String := String.ofList (trim s.toList)

@[simp] theorem trim_nil : trim [] = [] := rfl

end ElmSuite.Text
